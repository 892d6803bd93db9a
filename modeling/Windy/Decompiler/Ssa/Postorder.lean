import Windy.Decompiler.Ssa.Cfg
import Mathlib.Data.List.GetD
import Mathlib.Algebra.BigOperators.Group.Finset.Basic
import Mathlib.Algebra.Order.BigOperators.Group.Finset

/- The depth-first search numbers the reachable blocks.

   `Dfs.Inv` holds in every round; when the stack is empty it says that `order` has
   every reachable block once (`mem_order_iff`), that the numbers are the positions
   in it, and that every block but the entry has a predecessor with a higher number
   (`exists_parent`), the block it was first found from. The work counted by
   `Dfs.work` grows in every round and is bounded, so the stack does get empty. -/
namespace Windy.Ssa

/-! ## Edges -/

namespace Cfg
variable {g : Cfg} {i j : Nat}

theorem mem_succ_lt (h : j ∈ g.succ i) : i < g.size ∧ j < g.size := by
  have hi : i < g.succs.length := by
    by_contra hge
    rw [Cfg.succ, List.getD_eq_default _ _ (Nat.not_lt.mp hge)] at h
    cases h
  rw [Cfg.succ, List.getD_eq_getElem _ _ hi] at h
  exact ⟨hi, g.succs_lt _ (List.getElem_mem hi) j h⟩

theorem mem_pred_lt (h : i ∈ g.pred j) : i < g.size ∧ j < g.size := by
  have hj : j < g.preds.length := by
    by_contra hge
    rw [Cfg.pred, List.getD_eq_default _ _ (Nat.not_lt.mp hge)] at h
    cases h
  rw [Cfg.pred, List.getD_eq_getElem _ _ hj] at h
  exact ⟨g.preds_lt _ (List.getElem_mem hj) i h, by rw [Cfg.size, ← g.preds_length]; exact hj⟩

theorem mem_pred_iff : i ∈ g.pred j ↔ g.Edge i j := by
  constructor
  · intro h
    obtain ⟨hi, hj⟩ := mem_pred_lt h
    exact (g.consistent i hi j hj).mpr h
  · intro h
    obtain ⟨hi, hj⟩ := mem_succ_lt h
    exact (g.consistent i hi j hj).mp h

theorem Reachable.lt {entry b : Nat} (h : g.Reachable entry b) (hentry : entry < g.size) : b < g.size := by
  unfold Reachable at h
  induction h with
  | refl => exact hentry
  | tail _ hedge _ => exact (mem_succ_lt hedge).2

end Cfg

/-! ## One round -/

/-- The blocks on the stack. -/
def Dfs.nodes (s : Dfs) : List Nat :=
  s.stack.map Prod.fst

/-- What a round does: it looks at a successor that is known, goes down to a new
one, or finishes the block on top. -/
theorem Dfs.step_cases (g : Cfg) (s : Dfs) :
    (s.stack = [] ∧ s.step g = s) ∨
    ∃ node next rest, s.stack = (node, next) :: rest ∧
      ((∃ child, (g.succ node)[next]? = some child ∧
          Function.update s.visited node true child = true ∧
          s.step g = { s with
            stack := (node, next + 1) :: rest
            visited := Function.update s.visited node true }) ∨
        (∃ child, (g.succ node)[next]? = some child ∧
          Function.update s.visited node true child = false ∧
          s.step g = { s with
            stack := (child, 0) :: (node, next + 1) :: rest
            visited := Function.update s.visited node true }) ∨
        ((g.succ node)[next]? = none ∧
          s.step g =
            { stack := rest
              visited := Function.update s.visited node true
              postorder := Function.update s.postorder node s.order.length
              order := s.order ++ [node] })) := by
  unfold Dfs.step
  split
  · next h => exact Or.inl ⟨h, rfl⟩
  · next node next rest h =>
    refine Or.inr ⟨node, next, rest, h, ?_⟩
    cases hchild : (g.succ node)[next]? with
    | none => exact Or.inr (Or.inr ⟨rfl, rfl⟩)
    | some child =>
      by_cases hv : Function.update s.visited node true child = true
      · refine Or.inl ⟨child, rfl, hv, ?_⟩
        simp only [hv, if_true]
      · have hfalse : Function.update s.visited node true child = false := by
          simpa using hv
        refine Or.inr (Or.inl ⟨child, rfl, hfalse, ?_⟩)
        simp only [hfalse, Bool.false_eq_true, if_false]

/-- What holds in every round of the search. -/
structure Dfs.Inv (g : Cfg) (entry : Nat) (s : Dfs) : Prop where
  nodup : (s.nodes ++ s.order).Nodup
  visited : ∀ b, s.visited b = true → b ∈ s.nodes ∨ b ∈ s.order
  finished : ∀ b ∈ s.order, s.visited b = true
  below : ∀ b ∈ s.nodes.tail, s.visited b = true
  reach : ∀ b, b ∈ s.nodes ∨ b ∈ s.order → g.Reachable entry b
  linked : s.nodes.IsChain fun a b => g.Edge b a
  bottom : s.nodes = [] ∨ s.nodes.getLast? = some entry
  source : entry ∈ s.nodes ∨ entry ∈ s.order
  cursor : ∀ e ∈ s.stack, e.2 ≤ (g.succ e.1).length
  seen : ∀ e ∈ s.stack, ∀ j ∈ (g.succ e.1).take e.2, j ∈ s.nodes ∨ j ∈ s.order
  closed : ∀ b ∈ s.order, ∀ j ∈ g.succ b, j ∈ s.nodes ∨ j ∈ s.order
  parent : ∀ b ∈ s.order, b ≠ entry →
    ∃ p, g.Edge p b ∧ (p ∈ s.nodes ∨ (p ∈ s.order ∧ s.postorder b < s.postorder p))
  index : ∀ i b, s.order[i]? = some b → s.postorder b = i

theorem Dfs.inv_start (g : Cfg) (entry : Nat) : (Dfs.start entry).Inv g entry := by
  refine ⟨?_, ?_, ?_, ?_, ?_, ?_, ?_, ?_, ?_, ?_, ?_, ?_, ?_⟩
  · simp [Dfs.start, Dfs.nodes]
  · intro b hb; cases hb
  · intro b hb; cases hb
  · intro b hb; cases hb
  · intro b hb
    have : b = entry := by simpa [Dfs.start, Dfs.nodes] using hb
    rw [this]
    exact Relation.ReflTransGen.refl
  · simp [Dfs.start, Dfs.nodes]
  · exact Or.inr rfl
  · exact Or.inl (by simp [Dfs.start, Dfs.nodes])
  · intro e he
    have : e = (entry, 0) := by simpa [Dfs.start] using he
    rw [this]
    exact Nat.zero_le _
  · intro e he j hj
    have : e = (entry, 0) := by simpa [Dfs.start] using he
    rw [this] at hj
    simp at hj
  · intro b hb; cases hb
  · intro b hb; cases hb
  · intro i b hb; cases hb

section Step
variable {g : Cfg} {entry : Nat} {s : Dfs} {node next : Nat} {rest : List (Nat × Nat)}

/-- A block on the stack is marked. -/
theorem Dfs.Inv.mark (h : s.Inv g entry) (hnode : node ∈ s.nodes) :
    Dfs.Inv g entry { s with visited := Function.update s.visited node true } := by
  have hkeep : ∀ b, s.visited b = true → Function.update s.visited node true b = true := by
    intro b hb
    by_cases heq : b = node
    · rw [heq, Function.update_self]
    · rw [Function.update_of_ne heq]
      exact hb
  refine ⟨h.nodup, ?_, fun b hb => hkeep b (h.finished b hb), fun b hb => hkeep b (h.below b hb), h.reach,
    h.linked, h.bottom, h.source, h.cursor, h.seen, h.closed, h.parent, h.index⟩
  intro b hb
  by_cases heq : b = node
  · exact Or.inl (by rw [heq]; exact hnode)
  · refine h.visited b ?_
    simpa [Function.update_of_ne heq] using hb

/-- A successor that is known is passed over. -/
theorem Dfs.Inv.advance (h : s.Inv g entry) (above : List (Nat × Nat))
    (hstack : s.stack = above ++ (node, next) :: rest) {child : Nat}
    (hchild : (g.succ node)[next]? = some child) (hknown : child ∈ s.nodes ∨ child ∈ s.order) :
    Dfs.Inv g entry { s with stack := above ++ (node, next + 1) :: rest } := by
  have hsame : Dfs.nodes { s with stack := above ++ (node, next + 1) :: rest } = s.nodes := by
    simp [Dfs.nodes, hstack]
  have hold : ∀ e ∈ above ++ (node, next + 1) :: rest, e = (node, next + 1) ∨ e ∈ s.stack := by
    intro e he
    rw [hstack]
    simp only [List.mem_append, List.mem_cons] at he ⊢
    tauto
  have hmem : (node, next) ∈ s.stack := by
    rw [hstack]
    exact List.mem_append_right _ List.mem_cons_self
  refine ⟨?_, ?_, h.finished, ?_, ?_, ?_, ?_, ?_, ?_, ?_, ?_, ?_, h.index⟩
  · rw [hsame]; exact h.nodup
  · rw [hsame]; exact h.visited
  · rw [hsame]; exact h.below
  · rw [hsame]; exact h.reach
  · rw [hsame]; exact h.linked
  · rw [hsame]; exact h.bottom
  · rw [hsame]; exact h.source
  · intro e he
    rcases hold e he with rfl | he
    · exact (List.getElem?_eq_some_iff.mp hchild).1
    · exact h.cursor e he
  · rw [hsame]
    intro e he j hj
    rcases hold e he with rfl | he
    · rw [List.take_add_one, hchild] at hj
      rcases List.mem_append.mp hj with hj | hj
      · exact h.seen (node, next) hmem j hj
      · obtain rfl : j = child := by simpa using hj
        exact hknown
    · exact h.seen e he j hj
  · rw [hsame]; exact h.closed
  · rw [hsame]; exact h.parent

/-- A known block goes on top of the stack. -/
theorem Dfs.Inv.push (h : s.Inv g entry) (hvisited : ∀ b ∈ s.nodes, s.visited b = true) {child : Nat}
    (hlink : ∀ top ∈ s.nodes.head?, g.Edge top child) (hnonempty : s.nodes ≠ [])
    (hnew : s.visited child = false) :
    Dfs.Inv g entry { s with stack := (child, 0) :: s.stack } := by
  have hnodes : Dfs.nodes { s with stack := (child, 0) :: s.stack } = child :: s.nodes := rfl
  have hfresh : child ∉ s.nodes ∧ child ∉ s.order := by
    constructor
    · intro hc
      rw [hvisited child hc] at hnew
      cases hnew
    · intro hc
      rw [h.finished child hc] at hnew
      cases hnew
  have hor : ∀ b, b ∈ s.nodes ∨ b ∈ s.order → b ∈ child :: s.nodes ∨ b ∈ s.order :=
    fun b hb => hb.imp_left (List.mem_cons_of_mem child)
  refine ⟨?_, ?_, h.finished, ?_, ?_, ?_, ?_, ?_, ?_, ?_, ?_, ?_, h.index⟩
  · rw [hnodes]
    refine List.nodup_cons.mpr ⟨?_, h.nodup⟩
    intro hc
    rcases List.mem_append.mp hc with hc | hc
    · exact hfresh.1 hc
    · exact hfresh.2 hc
  · rw [hnodes]; exact fun b hb => hor b (h.visited b hb)
  · rw [hnodes]; exact hvisited
  · rw [hnodes]
    intro b hb
    rcases hb with hb | hb
    · rcases List.mem_cons.mp hb with rfl | hb
      · obtain ⟨top, tail, heq⟩ := List.exists_cons_of_ne_nil hnonempty
        have htop : top ∈ s.nodes := by rw [heq]; exact List.mem_cons_self
        exact Relation.ReflTransGen.tail (h.reach top (Or.inl htop)) (hlink top (by rw [heq]; rfl))
      · exact h.reach b (Or.inl hb)
    · exact h.reach b (Or.inr hb)
  · rw [hnodes]
    exact List.IsChain.cons h.linked hlink
  · rw [hnodes]
    refine Or.inr ?_
    rcases h.bottom with hb | hb
    · exact absurd hb hnonempty
    · rw [List.getLast?_cons, hb]
      rfl
  · rw [hnodes]; exact h.source.imp_left (List.mem_cons_of_mem child)
  · intro e he
    rcases List.mem_cons.mp he with rfl | he
    · exact Nat.zero_le _
    · exact h.cursor e he
  · rw [hnodes]
    intro e he j hj
    rcases List.mem_cons.mp he with rfl | he
    · simp at hj
    · exact hor j (h.seen e he j hj)
  · rw [hnodes]; exact fun b hb j hj => hor j (h.closed b hb j hj)
  · rw [hnodes]
    intro b hb hne
    obtain ⟨p, hedge, hp⟩ := h.parent b hb hne
    exact ⟨p, hedge, hp.imp_left (List.mem_cons_of_mem child)⟩

/-- The block on top is finished; the one below it is the block it was found from. -/
theorem Dfs.Inv.finish (h : s.Inv g entry) (hstack : s.stack = (node, next) :: rest)
    (hdone : (g.succ node)[next]? = none) :
    Dfs.Inv g entry
      { stack := rest
        visited := Function.update s.visited node true
        postorder := Function.update s.postorder node s.order.length
        order := s.order ++ [node] } := by
  have hnodes : s.nodes = node :: rest.map Prod.fst := by rw [Dfs.nodes, hstack]; rfl
  have hnodup := h.nodup
  rw [hnodes, List.cons_append, List.nodup_cons] at hnodup
  obtain ⟨hnot, hrest⟩ := hnodup
  have hnotOrder : node ∉ s.order := fun hm => hnot (List.mem_append_right _ hm)
  have hor : ∀ b, b ∈ s.nodes ∨ b ∈ s.order → b ∈ rest.map Prod.fst ∨ b ∈ s.order ++ [node] := by
    intro b hb
    rcases hb with hb | hb
    · rw [hnodes] at hb
      rcases List.mem_cons.mp hb with rfl | hb
      · exact Or.inr (List.mem_append_right _ (List.mem_singleton_self _))
      · exact Or.inl hb
    · exact Or.inr (List.mem_append_left _ hb)
  have hall : (g.succ node).length ≤ next := List.getElem?_eq_none_iff.mp hdone
  have hne : ∀ b ∈ s.order, b ≠ node := by
    intro b hb heq
    rw [heq] at hb
    exact hnotOrder hb
  have hpost : ∀ b ∈ s.order, Function.update s.postorder node s.order.length b = s.postorder b :=
    fun b hb => Function.update_of_ne (hne b hb) _ _
  have hlt : ∀ b ∈ s.order, s.postorder b < s.order.length := by
    intro b hb
    obtain ⟨i, hi, heq⟩ := List.mem_iff_getElem.mp hb
    rw [h.index i b (List.getElem?_eq_some_iff.mpr ⟨hi, heq⟩)]
    exact hi
  refine ⟨?_, ?_, ?_, ?_, ?_, ?_, ?_, ?_, ?_, ?_, ?_, ?_, ?_⟩
  · show (rest.map Prod.fst ++ (s.order ++ [node])).Nodup
    rw [← List.append_assoc]
    exact List.nodup_append.mpr ⟨hrest, List.nodup_singleton _, fun a ha b hb =>
      fun heq => hnot (by rw [← List.mem_singleton.mp hb, ← heq]; exact ha)⟩
  · intro b hb
    by_cases heq : b = node
    · exact Or.inr (by rw [heq]; exact List.mem_append_right _ (List.mem_singleton_self _))
    · refine hor b (h.visited b ?_)
      simpa [Function.update_of_ne heq] using hb
  · intro b hb
    rcases List.mem_append.mp hb with hb | hb
    · show Function.update s.visited node true b = true
      rw [Function.update_of_ne (hne b hb)]
      exact h.finished b hb
    · show Function.update s.visited node true b = true
      rw [List.mem_singleton.mp hb, Function.update_self]
  · intro b hb
    have hb' : b ∈ s.nodes.tail := by
      rw [hnodes]
      exact List.mem_of_mem_tail hb
    by_cases heq : b = node
    · show Function.update s.visited node true b = true
      rw [heq, Function.update_self]
    · show Function.update s.visited node true b = true
      rw [Function.update_of_ne heq]
      exact h.below b hb'
  · intro b hb
    refine h.reach b ?_
    rcases hb with hb | hb
    · exact Or.inl (by rw [hnodes]; exact List.mem_cons_of_mem _ hb)
    · rcases List.mem_append.mp hb with hb | hb
      · exact Or.inr hb
      · exact Or.inl (by rw [hnodes, List.mem_singleton.mp hb]; exact List.mem_cons_self)
  · have hlinked := h.linked
    rw [hnodes] at hlinked
    exact hlinked.tail
  · cases hrest' : rest with
    | nil => exact Or.inl rfl
    | cons below rest' =>
      refine Or.inr ?_
      have hbottom := h.bottom
      rw [hnodes, hrest', List.map_cons, List.getLast?_cons_cons] at hbottom
      rcases hbottom with hb | hb
      · cases hb
      · exact hb
  · exact hor entry h.source
  · exact fun e he => h.cursor e (by rw [hstack]; exact List.mem_cons_of_mem _ he)
  · exact fun e he j hj => hor j (h.seen e (by rw [hstack]; exact List.mem_cons_of_mem _ he) j hj)
  · intro b hb j hj
    refine hor j ?_
    rcases List.mem_append.mp hb with hb | hb
    · exact h.closed b hb j hj
    · rw [List.mem_singleton.mp hb] at hj
      refine h.seen (node, next) (by rw [hstack]; exact List.mem_cons_self) j ?_
      rwa [List.take_of_length_le hall]
  · intro b hmem hentry
    rcases List.mem_append.mp hmem with hb | hb
    · obtain ⟨p, hedge, hp⟩ := h.parent b hb hentry
      refine ⟨p, hedge, ?_⟩
      rcases hp with hp | ⟨hp, hord⟩
      · rw [hnodes] at hp
        rcases List.mem_cons.mp hp with heq | hp
        · refine Or.inr ⟨List.mem_append_right _ (List.mem_singleton.mpr heq), ?_⟩
          show Function.update s.postorder node s.order.length b < Function.update s.postorder node s.order.length p
          rw [hpost b hb, heq, Function.update_self]
          exact hlt b hb
        · exact Or.inl hp
      · refine Or.inr ⟨List.mem_append_left _ hp, ?_⟩
        show Function.update s.postorder node s.order.length b < Function.update s.postorder node s.order.length p
        rw [hpost b hb, hpost p hp]
        exact hord
    · rw [List.mem_singleton.mp hb] at hentry ⊢
      cases hrest' : rest with
      | nil =>
        have hbottom := h.bottom
        rw [hnodes, hrest'] at hbottom
        rcases hbottom with hb | hb
        · cases hb
        · exact absurd (Option.some.inj hb) hentry
      | cons below rest' =>
        have hlinked := h.linked
        rw [hnodes, hrest', List.map_cons, List.isChain_cons_cons] at hlinked
        exact ⟨below.1, hlinked.1, Or.inl List.mem_cons_self⟩
  · intro i b hi
    rw [List.getElem?_append] at hi
    show Function.update s.postorder node s.order.length b = i
    split at hi
    · have hb : b ∈ s.order := List.mem_of_getElem? hi
      rw [hpost b hb]
      exact h.index i b hi
    · next hge =>
      have hi0 : i - s.order.length = 0 := by
        have := (List.getElem?_eq_some_iff.mp hi).1
        simp at this
        exact this
      rw [hi0] at hi
      obtain rfl : node = b := by simpa using hi
      rw [Function.update_self]
      omega

theorem Dfs.inv_step (h : s.Inv g entry) : (s.step g).Inv g entry := by
  rcases Dfs.step_cases g s with ⟨-, hstep⟩ | ⟨node, next, rest, hstack, hcases⟩
  · rw [hstep]
    exact h
  · have hnodes : s.nodes = node :: rest.map Prod.fst := by rw [Dfs.nodes, hstack]; rfl
    have hmark := h.mark (show node ∈ s.nodes by rw [hnodes]; exact List.mem_cons_self)
    rcases hcases with ⟨child, hchild, hknown, hstep⟩ | ⟨child, hchild, hnew, hstep⟩ | ⟨hdone, hstep⟩
    · rw [hstep]
      exact hmark.advance [] hstack hchild (hmark.visited child hknown)
    · rw [hstep]
      -- Everything on the stack is marked when the new block goes on top.
      have hall : ∀ b ∈ s.nodes, Function.update s.visited node true b = true := by
        intro b hb
        rw [hnodes] at hb
        by_cases heq : b = node
        · rw [heq, Function.update_self]
        · rw [Function.update_of_ne heq]
          refine h.below b ?_
          rw [hnodes]
          exact (List.mem_cons.mp hb).resolve_left heq
      have hedge : g.Edge node child := List.mem_of_getElem? hchild
      have hpush := hmark.push hall (fun top htop => by
        obtain rfl : node = top := by
          have : s.nodes.head? = some top := htop
          rw [hnodes] at this
          exact Option.some.inj this
        exact hedge) (by show s.nodes ≠ []; rw [hnodes]; exact List.cons_ne_nil _ _) hnew
      exact hpush.advance [(child, 0)] (by rw [← hstack]; rfl) hchild (Or.inl List.mem_cons_self)
    · rw [hstep]
      exact h.finish hstack hdone

end Step

theorem Dfs.inv_iterate (g : Cfg) (entry : Nat) (n : Nat) :
    ((Dfs.step g)^[n] (Dfs.start entry)).Inv g entry := by
  induction n with
  | zero => exact Dfs.inv_start g entry
  | succ n ih =>
    rw [Function.iterate_succ_apply']
    exact Dfs.inv_step ih

/-! ## The search ends -/

/-- The rounds taken so far. -/
def Dfs.work (g : Cfg) (s : Dfs) : Nat :=
  (s.stack.map fun e => e.2).sum + (s.order.map fun b => (g.succ b).length + 1).sum

theorem Dfs.work_step {g : Cfg} {entry : Nat} {s : Dfs} (h : s.Inv g entry) (hstack : s.stack ≠ []) :
    (s.step g).work g = s.work g + 1 := by
  rcases Dfs.step_cases g s with ⟨hempty, -⟩ | ⟨node, next, rest, hs, hcases⟩
  · exact absurd hempty hstack
  · rcases hcases with ⟨child, -, -, hstep⟩ | ⟨child, -, -, hstep⟩ | ⟨hdone, hstep⟩
    · rw [hstep]
      simp only [Dfs.work, hs, List.map_cons, List.sum_cons]
      omega
    · rw [hstep]
      simp only [Dfs.work, hs, List.map_cons, List.sum_cons]
      omega
    · have hle := h.cursor (node, next) (by rw [hs]; exact List.mem_cons_self)
      have hge : (g.succ node).length ≤ next := List.getElem?_eq_none_iff.mp hdone
      rw [hstep]
      simp only [Dfs.work, hs, List.map_cons, List.sum_cons, List.map_append, List.sum_append, List.map_nil,
        List.sum_nil]
      dsimp only at hle
      omega

/-- A sum over different blocks is at most the sum over all of them. -/
theorem sum_le_rounds (g : Cfg) {bs : List Nat} (hnodup : bs.Nodup) (hlt : ∀ b ∈ bs, b < g.size) :
    (bs.map fun b => (g.succ b).length + 1).sum ≤ g.rounds := by
  have hsub : bs.toFinset ⊆ Finset.range g.size := by
    intro b hb
    exact Finset.mem_range.mpr (hlt b (List.mem_toFinset.mp hb))
  calc (bs.map fun b => (g.succ b).length + 1).sum
      = ∑ b ∈ bs.toFinset, ((g.succ b).length + 1) := (List.sum_toFinset _ hnodup).symm
    _ ≤ ∑ b ∈ Finset.range g.size, ((g.succ b).length + 1) := Finset.sum_le_sum_of_subset hsub
    _ = g.rounds := rfl

theorem Dfs.work_lt {g : Cfg} {entry : Nat} {s : Dfs} (h : s.Inv g entry) (hentry : entry < g.size)
    (hstack : s.stack ≠ []) : s.work g < g.rounds := by
  have hrounds := sum_le_rounds g h.nodup fun b hb => (h.reach b (List.mem_append.mp hb)).lt hentry
  have hcursors : ∀ stack : List (Nat × Nat), (∀ e ∈ stack, e.2 ≤ (g.succ e.1).length) →
      (stack.map fun e => e.2).sum + stack.length ≤
        ((stack.map Prod.fst).map fun b => (g.succ b).length + 1).sum := by
    intro stack hstack
    induction stack with
    | nil => exact Nat.le_refl 0
    | cons e rest ih =>
      have he := hstack e List.mem_cons_self
      have hrest := ih fun e' he' => hstack e' (List.mem_cons_of_mem e he')
      simp only [List.map_cons, List.sum_cons, List.length_cons]
      omega
  have hsum := hcursors s.stack h.cursor
  have hpos : 0 < s.stack.length := List.length_pos_iff.mpr hstack
  rw [List.map_append, List.sum_append] at hrounds
  unfold Dfs.work
  unfold Dfs.nodes at hrounds
  omega

theorem dfs_inv (g : Cfg) (entry : Nat) : (dfs g entry).Inv g entry :=
  Dfs.inv_iterate g entry g.rounds

theorem dfs_stack (g : Cfg) {entry : Nat} (hentry : entry < g.size) : (dfs g entry).stack = [] := by
  -- As long as the stack is not empty every round counts, so there are not enough of them.
  have hcount : ∀ n, ((Dfs.step g)^[n] (Dfs.start entry)).stack = [] ∨
      n ≤ ((Dfs.step g)^[n] (Dfs.start entry)).work g := by
    intro n
    induction n with
    | zero => exact Or.inr (Nat.zero_le _)
    | succ n ih =>
      rw [Function.iterate_succ_apply']
      by_cases hstack : ((Dfs.step g)^[n] (Dfs.start entry)).stack = []
      · rcases Dfs.step_cases g ((Dfs.step g)^[n] (Dfs.start entry)) with ⟨-, hstep⟩ | ⟨node, next, rest, hs, -⟩
        · rw [hstep]
          exact Or.inl hstack
        · rw [hstack] at hs
          cases hs
      · have hwork := Dfs.work_step (Dfs.inv_iterate g entry n) hstack
        have hle := ih.resolve_left hstack
        exact Or.inr (by omega)
  by_contra hstack
  have hlt := Dfs.work_lt (dfs_inv g entry) hentry hstack
  have hle := (hcount g.rounds).resolve_left hstack
  unfold dfs at hlt
  omega

/-! ## The order -/

section Order
variable {g : Cfg} {entry : Nat}

theorem dfs_nodes (hentry : entry < g.size) : (dfs g entry).nodes = [] := by
  rw [Dfs.nodes, dfs_stack g hentry]
  rfl

theorem order_nodup (g : Cfg) (entry : Nat) : (dfs g entry).order.Nodup :=
  (List.nodup_append.mp (dfs_inv g entry).nodup).2.1

/-- The search finishes exactly the reachable blocks. -/
theorem mem_order_iff (hentry : entry < g.size) {b : Nat} : b ∈ (dfs g entry).order ↔ g.Reachable entry b := by
  have hinv := dfs_inv g entry
  have hnodes := dfs_nodes hentry
  constructor
  · exact fun hb => hinv.reach b (Or.inr hb)
  · intro hb
    unfold Cfg.Reachable at hb
    induction hb with
    | refl =>
      refine hinv.source.resolve_left ?_
      rw [hnodes]
      exact List.not_mem_nil
    | tail _ hedge ih =>
      refine (hinv.closed _ ih _ hedge).resolve_left ?_
      rw [hnodes]
      exact List.not_mem_nil

theorem postorder_lt (hentry : entry < g.size) {b : Nat} (hb : g.Reachable entry b) :
    (dfs g entry).postorder b < g.size := by
  obtain ⟨i, hi, heq⟩ := List.mem_iff_getElem.mp ((mem_order_iff hentry).mpr hb)
  rw [(dfs_inv g entry).index i b (List.getElem?_eq_some_iff.mpr ⟨hi, heq⟩)]
  refine Nat.lt_of_lt_of_le hi ?_
  have hsub : (dfs g entry).order.toFinset ⊆ Finset.range g.size := by
    intro c hc
    exact Finset.mem_range.mpr (((mem_order_iff hentry).mp (List.mem_toFinset.mp hc)).lt hentry)
  calc (dfs g entry).order.length
      = (dfs g entry).order.toFinset.card := (List.toFinset_card_of_nodup (order_nodup g entry)).symm
    _ ≤ (Finset.range g.size).card := Finset.card_le_card hsub
    _ = g.size := Finset.card_range _

theorem postorder_inj (hentry : entry < g.size) {a b : Nat} (ha : g.Reachable entry a) (hb : g.Reachable entry b)
    (h : (dfs g entry).postorder a = (dfs g entry).postorder b) : a = b := by
  obtain ⟨i, hi, hia⟩ := List.mem_iff_getElem.mp ((mem_order_iff hentry).mpr ha)
  obtain ⟨j, hj, hjb⟩ := List.mem_iff_getElem.mp ((mem_order_iff hentry).mpr hb)
  have hinv := dfs_inv g entry
  rw [hinv.index i a (List.getElem?_eq_some_iff.mpr ⟨hi, hia⟩),
    hinv.index j b (List.getElem?_eq_some_iff.mpr ⟨hj, hjb⟩)] at h
  subst h
  exact hia.symm.trans hjb

/-- Every block but the entry has a predecessor that is finished after it. -/
theorem exists_parent (hentry : entry < g.size) {b : Nat} (hb : g.Reachable entry b) (hne : b ≠ entry) :
    ∃ p, g.Edge p b ∧ g.Reachable entry p ∧ (dfs g entry).postorder b < (dfs g entry).postorder p := by
  obtain ⟨p, hedge, hp⟩ := (dfs_inv g entry).parent b ((mem_order_iff hentry).mpr hb) hne
  rcases hp with hp | ⟨hp, hlt⟩
  · rw [dfs_nodes hentry] at hp
    cases hp
  · exact ⟨p, hedge, (mem_order_iff hentry).mp hp, hlt⟩

/-- The numbers fall along the reverse postorder. -/
theorem rpo_sorted (g : Cfg) (entry : Nat) :
    (dfs g entry).order.reverse.Pairwise fun a b => (dfs g entry).postorder b < (dfs g entry).postorder a := by
  have hinv := dfs_inv g entry
  rw [List.pairwise_reverse]
  refine List.pairwise_iff_getElem.mpr ?_
  intro i j hi hj hij
  rw [hinv.index i _ (List.getElem?_eq_some_iff.mpr ⟨hi, rfl⟩),
    hinv.index j _ (List.getElem?_eq_some_iff.mpr ⟨hj, rfl⟩)]
  exact hij

end Order


end Windy.Ssa
