import Windy.Decompiler.Ssa.Rounds
import Windy.Decompiler.Structure.Region

/- Dominators and postdominators are exact (`ssa/cfg.rs`, `structure/pdom.rs`).

   `build_ipdom` is `build_idom` on the graph turned around, with a block behind all exits for its
   entry. An edge of that graph is an `ExitEdge` backwards (`edge_reversed`), so its dominators are
   the postdominators, and it reaches the blocks that an exit is reached from (`reach_virtualExit`).
   Blocks are natural numbers; the `u32` of the source hold the number of the new block too.

   What is proved:
     `dominators_exact`: on every graph both end, with the immediate dominators and
     postdominators and nothing else in their tables. -/
namespace Windy.Decompiler

open Dominance

/-- The edges of the graph with a block behind its exits. -/
def ExitEdge (g : Ssa.Cfg) (a b : Nat) : Prop :=
  g.Edge a b ∨ a < g.size ∧ g.succ a = [] ∧ b = virtualExit g

section Exit
variable {g : Ssa.Cfg} {a b : Nat}

theorem edge_reversed : (reversedWithExit g).Edge a b ↔ ExitEdge g b a := by
  unfold Ssa.Cfg.Edge Ssa.Cfg.succ ExitEdge virtualExit
  rw [show (reversedWithExit g).succs = g.preds ++ [exits g] from rfl, getD_reversed]
  split
  · rename_i ha
    -- no edge of the graph leads to the new block
    have hnot : ¬ g.Edge b a := fun h => by
      have := (Ssa.Cfg.mem_succ_lt h).2
      omega
    constructor
    · intro h
      obtain ⟨hlt, hexit⟩ := List.mem_filter.mp h
      exact Or.inr ⟨List.mem_range.mp hlt, of_decide_eq_true hexit, ha⟩
    · intro h
      obtain ⟨hlt, hexit, -⟩ := h.resolve_left hnot
      exact List.mem_filter.mpr ⟨List.mem_range.mpr hlt, decide_eq_true hexit⟩
  · rename_i ha
    rw [Ssa.Cfg.mem_pred_iff]
    simp [ha]

theorem size_reversedWithExit (g : Ssa.Cfg) : (reversedWithExit g).size = g.size + 1 := by
  unfold Ssa.Cfg.size reversedWithExit
  rw [List.length_append, g.preds_length]
  rfl

theorem virtualExit_lt (g : Ssa.Cfg) : virtualExit g < (reversedWithExit g).size := by
  rw [size_reversedWithExit]
  exact Nat.lt_succ_self _

/-- A block gets to the new block when it gets to an exit. -/
theorem reach_virtualExit (hb : b < g.size) :
    Relation.ReflTransGen (ExitEdge g) b (virtualExit g) ↔ ∃ e, g.Reachable b e ∧ g.succ e = [] := by
  constructor
  · intro h
    have hall : ∀ c, Relation.ReflTransGen (ExitEdge g) b c →
        (c < g.size ∧ g.Reachable b c) ∨ ∃ e, g.Reachable b e ∧ g.succ e = [] := by
      intro c hc
      induction hc with
      | refl => exact Or.inl ⟨hb, Relation.ReflTransGen.refl⟩
      | tail _ hedge ih =>
        rcases ih with ⟨_, hreach⟩ | hexit
        · rcases hedge with hedge | ⟨_, hexit, _⟩
          · exact Or.inl ⟨(Ssa.Cfg.mem_succ_lt hedge).2, hreach.tail hedge⟩
          · exact Or.inr ⟨_, hreach, hexit⟩
        · exact Or.inr hexit
    rcases hall _ h with ⟨hlt, -⟩ | hexit
    · exact absurd hlt (Nat.lt_irrefl _)
    · exact hexit
  · intro h
    obtain ⟨e, hreach, hexit⟩ := h
    have hpath : Relation.ReflTransGen (ExitEdge g) b e := Relation.ReflTransGen.mono (fun _ _ => Or.inl) _ _ hreach
    exact hpath.tail (Or.inr ⟨hreach.lt hb, hexit, rfl⟩)

theorem postDominatorTable_buildIpdom (g : Ssa.Cfg) :
    PostDominatorTable (ExitEdge g) (virtualExit g) (buildIpdom g) :=
  (Ssa.dominatorTable_buildIdom (virtualExit_lt g)).turn fun _ _ => edge_reversed

end Exit

/-- Both end, whatever the graph. The entry is its own dominator, any other block that is
reached has its immediate dominator and no other block has one; the new block is its own
postdominator, a block has its immediate postdominator where an exit is reached from it and
else none. -/
theorem dominators_exact (g : Ssa.Cfg) :
    (∀ entry < g.size,
      (∃ enough, ∀ rounds ≥ enough, Ssa.buildIdomIn g entry rounds = some (Ssa.buildIdom g entry)) ∧
      DominatorTable g.Edge entry (Ssa.buildIdom g entry)) ∧
    (∃ enough, ∀ rounds ≥ enough, Ssa.buildIdomIn (reversedWithExit g) (virtualExit g) rounds = some (buildIpdom g)) ∧
    buildIpdom g (virtualExit g) = some (virtualExit g) ∧
    ∀ b < g.size,
      ((∃ e, g.Reachable b e ∧ g.succ e = []) →
        ∃ d, buildIpdom g b = some d ∧ ImmediatelyPostDominates (ExitEdge g) (virtualExit g) d b ∧
          ∀ c, ImmediatelyPostDominates (ExitEdge g) (virtualExit g) c b → c = d) ∧
      ((¬ ∃ e, g.Reachable b e ∧ g.succ e = []) → buildIpdom g b = none) := by
  have htable := postDominatorTable_buildIpdom g
  refine ⟨fun entry hentry => ⟨⟨Ssa.enoughRounds g, fun _ hrounds => Ssa.buildIdomIn_eq hentry hrounds⟩,
    Ssa.dominatorTable_buildIdom hentry⟩,
    ⟨Ssa.enoughRounds (reversedWithExit g), fun _ hrounds => Ssa.buildIdomIn_eq (virtualExit_lt g) hrounds⟩,
    htable.self, fun b hb => ⟨fun hexit => ?_, fun hnone => ?_⟩⟩
  · exact htable.reaching b ((reach_virtualExit hb).mpr hexit) (Nat.ne_of_lt hb)
  · exact htable.others b fun hreach => hnone ((reach_virtualExit hb).mp hreach)

/-- A loop that is entered at both of its blocks, with an exit that is also behind a block
that nothing leads to, and a block that stays where it is. -/
def twoEntries : List (List Nat) := [[1, 2, 5], [2, 3], [1, 1], [], [3], [5]]

theorem twoEntries_lt : ∀ js ∈ twoEntries, ∀ j ∈ js, j < twoEntries.length := by decide

def twoEntriesGraph : Ssa.Cfg := Ssa.Cfg.ofSuccs twoEntries twoEntries_lt

theorem dominators_exact_twoEntries :
    DominatorTable twoEntriesGraph.Edge 0 (Ssa.buildIdom twoEntriesGraph 0) ∧
    (List.range 6).map (Ssa.buildIdom twoEntriesGraph 0) = [some 0, some 0, some 0, some 1, none, some 0] ∧
    (∃ d, buildIpdom twoEntriesGraph 2 = some d ∧
      ImmediatelyPostDominates (ExitEdge twoEntriesGraph) (virtualExit twoEntriesGraph) d 2) ∧
    (List.range 7).map (buildIpdom twoEntriesGraph) =
      [some 1, some 3, some 1, some 6, some 3, none, some 6] := by
  have hexit : ∃ e, twoEntriesGraph.Reachable 2 e ∧ twoEntriesGraph.succ e = [] := by
    refine ⟨3, ?_, by decide⟩
    have h21 : 1 ∈ twoEntriesGraph.succ 2 := by decide
    have h13 : 3 ∈ twoEntriesGraph.succ 1 := by decide
    exact (Relation.ReflTransGen.refl.tail h21).tail h13
  obtain ⟨d, hd, himm, -⟩ := ((dominators_exact twoEntriesGraph).2.2.2 2 (by decide)).1 hexit
  exact ⟨((dominators_exact twoEntriesGraph).1 0 (by decide)).2, by decide +kernel, ⟨d, hd, himm⟩, by decide +kernel⟩

end Windy.Decompiler
