import Mathlib

/- Splitting a stream at a separator, each piece keeping its separator, the last
   piece possibly without one (`read_until` in a loop).

   `rawLines_terminated` is the rule a log reader needs: a stream that starts
   with whole lines is split into those lines and whatever the rest gives. -/
namespace Lines

variable {α : Type*} [DecidableEq α]

/-- The pieces of a stream, each ending in the separator except perhaps the
last. -/
def rawLines (sep : α) : List α → List (List α)
  | [] => []
  | b :: bs =>
    if b = sep then [sep] :: rawLines sep bs
    else
      match rawLines sep bs with
      | [] => [[b]]
      | l :: ls => (b :: l) :: ls

/-- One whole line, then the rest. -/
theorem rawLines_line {sep : α} {line : List α} (h : sep ∉ line) (rest : List α) :
    rawLines sep (line ++ sep :: rest) = (line ++ [sep]) :: rawLines sep rest := by
  induction line with
  | nil => simp [rawLines]
  | cons b line ih =>
    have hb : b ≠ sep := fun hb => h (hb ▸ List.mem_cons_self)
    have hline : sep ∉ line := fun hm => h (List.mem_cons_of_mem b hm)
    simp [rawLines, hb, ih hline]

/-- Whole lines, then the rest. -/
theorem rawLines_terminated {sep : α} {lines : List (List α)} (h : ∀ l ∈ lines, sep ∉ l) (rest : List α) :
    rawLines sep (lines.flatMap (· ++ [sep]) ++ rest) =
      lines.map (· ++ [sep]) ++ rawLines sep rest := by
  induction lines with
  | nil => simp
  | cons l ls ih =>
    have hl : sep ∉ l := h l List.mem_cons_self
    have hls : ∀ x ∈ ls, sep ∉ x := fun x hx => h x (List.mem_cons_of_mem l hx)
    calc rawLines sep ((l :: ls).flatMap (· ++ [sep]) ++ rest)
        = rawLines sep (l ++ sep :: (ls.flatMap (· ++ [sep]) ++ rest)) := by simp
      _ = (l ++ [sep]) :: rawLines sep (ls.flatMap (· ++ [sep]) ++ rest) := rawLines_line hl _
      _ = (l :: ls).map (· ++ [sep]) ++ rawLines sep rest := by rw [ih hls]; rfl

end Lines
