import Mathlib

/- Graphs whose silent vertices are skipped.

   A path shows what its vertices show, one after the other. A silent vertex shows
   nothing and has one edge at most. `Skips` is the graph in which every edge leads on to
   where `skip` takes it, and `skip` may only move forward over silent vertices; how far it
   moves is left open, so it may stop at a silent vertex, or on a cycle of them.

   What is proved:
     1. `Shows.expand`: what a path of the graph with skipped vertices shows, a path of the
        full graph between the same ends shows.
     2. `Shows.collapse`: and conversely, for paths that do not end at a silent vertex. -/
namespace Collapse

variable {V O : Type*}

/-- Silent vertices show nothing, and there is one way on from them at most. -/
structure Quiet (E : V → V → Prop) (silent : V → Prop) (shown : V → List O) : Prop where
  mute : ∀ a, silent a → shown a = []
  forced : ∀ a b c, silent a → E a b → E a c → b = c

/-- A path of so many edges, and what its vertices show. -/
inductive Shows (E : V → V → Prop) (shown : V → List O) : Nat → V → V → List O → Prop
  | stay (a : V) : Shows E shown 0 a a (shown a)
  | step {n : Nat} {a b c : V} {os : List O} (hedge : E a b) (hrest : Shows E shown n b c os) :
      Shows E shown (n + 1) a c (shown a ++ os)

/-- Forward over silent vertices. -/
inductive Forwards (E : V → V → Prop) (silent : V → Prop) : V → V → Prop
  | refl (a : V) : Forwards E silent a a
  | step {a b c : V} (hsilent : silent a) (hedge : E a b) (hrest : Forwards E silent b c) : Forwards E silent a c

/-- The edges with their ends moved. -/
def Skips (E : V → V → Prop) (skip : V → V) (a c : V) : Prop := ∃ b, E a b ∧ skip b = c

variable {E : V → V → Prop} {silent : V → Prop} {shown : V → List O} {skip : V → V}

theorem Forwards.shows (hquiet : Quiet E silent shown) {a b c : V} {n : Nat} {os : List O}
    (h : Forwards E silent a b) (hpath : Shows E shown n b c os) : ∃ m, Shows E shown m a c os := by
  induction h with
  | refl a => exact ⟨n, hpath⟩
  | @step a b d hsilent hedge _ ih =>
    obtain ⟨m, hm⟩ := ih hpath
    have hlonger := Shows.step hedge hm
    rw [hquiet.mute a hsilent] at hlonger
    exact ⟨m + 1, hlonger⟩

/-- A path that does not end at a silent vertex goes through everything ahead of its
start. -/
theorem Shows.along (hquiet : Quiet E silent shown) {a b c : V} {n : Nat} {os : List O}
    (hpath : Shows E shown n a c os) (hc : ¬ silent c) (h : Forwards E silent a b) :
    ∃ m ≤ n, Shows E shown m b c os := by
  induction h generalizing n os with
  | refl a => exact ⟨n, Nat.le_refl n, hpath⟩
  | @step a b d hsilent hedge _ ih =>
    cases hpath with
    | stay => exact absurd hsilent hc
    | @step n _ b' _ os hedge' hrest =>
      obtain rfl := hquiet.forced a b b' hsilent hedge hedge'
      rw [hquiet.mute a hsilent]
      obtain ⟨m, hle, hm⟩ := ih hrest
      exact ⟨m, Nat.le_succ_of_le hle, hm⟩

theorem Shows.expand (hquiet : Quiet E silent shown) (hskip : ∀ b, Forwards E silent b (skip b)) {a c : V} {n : Nat}
    {os : List O} (h : Shows (Skips E skip) shown n a c os) : ∃ m, Shows E shown m a c os := by
  induction h with
  | stay a => exact ⟨0, .stay a⟩
  | step hedge _ ih =>
    obtain ⟨b, hb, rfl⟩ := hedge
    obtain ⟨k, hk⟩ := ih
    obtain ⟨m, hm⟩ := (hskip b).shows hquiet hk
    exact ⟨m + 1, .step hb hm⟩

theorem Shows.collapse (hquiet : Quiet E silent shown) (hskip : ∀ b, Forwards E silent b (skip b)) {a c : V} {n : Nat}
    {os : List O} (h : Shows E shown n a c os) (hc : ¬ silent c) : ∃ m, Shows (Skips E skip) shown m a c os := by
  induction n using Nat.strongRecOn generalizing a os with
  | ind n ih =>
    cases h with
    | stay => exact ⟨0, .stay _⟩
    | @step n _ b _ os hedge hrest =>
      obtain ⟨m, hle, hm⟩ := hrest.along hquiet hc (hskip b)
      obtain ⟨k, hk⟩ := ih m (Nat.lt_succ_of_le hle) hm
      exact ⟨k + 1, .step ⟨b, hedge, rfl⟩ hk⟩

end Collapse
