import Mathlib

/- Byte positions in a text: the length of its UTF-8 encoding, which offsets are
   character boundaries, and the slices at them.

   A boundary is at most three bytes away (`exists_isBoundary`), so rounding an
   offset down to one loses no more than that (`le_floor`).

   Bytes that need not be an encoding are decoded with a replacement character for each
   part of a sequence that does not go on (`fromUtf8Lossy`). -/
namespace Utf8

-- What holds of the characters of a text is decided along the text, not for all characters.
scoped instance (priority := 2000) decidableForallMem (p : Char → Prop) [DecidablePred p] (cs : List Char) :
    Decidable (∀ c ∈ cs, p c) :=
  List.decidableBAll p cs

scoped instance (priority := 2000) decidableExistsMem (p : Char → Prop) [DecidablePred p] (cs : List Char) :
    Decidable (∃ c ∈ cs, p c) :=
  List.decidableBEx p cs

scoped instance (priority := 2000) decidableForallOption (p : Char → Prop) [DecidablePred p] :
    (o : Option Char) → Decidable (∀ c ∈ o, p c) :=
  Option.decidableForallMem

/-- Texts are equal if they are found equal. -/
instance lawfulText : LawfulBEq (List Char) := inferInstance

/-- The length of the encoding in bytes. -/
def size (cs : List Char) : Nat :=
  (cs.map Char.utf8Size).sum

/-- The offset is the start of a character or the end of the text. -/
def isBoundary : List Char → Nat → Bool
  | _, 0 => true
  | [], _ + 1 => false
  | c :: cs, n + 1 => decide (c.utf8Size ≤ n + 1) && isBoundary cs (n + 1 - c.utf8Size)

/-- The characters that end at or before the offset. -/
def before : List Char → Nat → List Char
  | [], _ => []
  | c :: cs, n => if c.utf8Size ≤ n then c :: before cs (n - c.utf8Size) else []

/-- The characters from the offset on. -/
def after : List Char → Nat → List Char
  | [], _ => []
  | c :: cs, n => if c.utf8Size ≤ n then after cs (n - c.utf8Size) else c :: cs

/-- Steps down to a boundary, but not below `low`. -/
def floor (cs : List Char) (low : Nat) : Nat → Nat
  | 0 => 0
  | n + 1 => if low < n + 1 ∧ isBoundary cs (n + 1) = false then floor cs low n else n + 1

/-- Steps up to a boundary, `fuel` times at most. -/
def ceil (cs : List Char) : Nat → Nat → Nat
  | 0, n => n
  | fuel + 1, n => if isBoundary cs n = false then ceil cs fuel (n + 1) else n

@[simp] theorem size_nil : size [] = 0 := rfl

@[simp] theorem size_cons (c : Char) (cs : List Char) : size (c :: cs) = c.utf8Size + size cs := by
  simp [size]

@[simp] theorem size_append (cs ds : List Char) : size (cs ++ ds) = size cs + size ds := by
  simp [size]

theorem utf8Size_of_lt {c : Char} (h : c.toNat < 128) : c.utf8Size = 1 := by
  have hval : c.val ≤ 127 := by
    rw [UInt32.le_iff_toNat_le]
    exact Nat.le_of_lt_succ h
  unfold Char.utf8Size
  exact if_pos hval

theorem isBoundary_zero (cs : List Char) : isBoundary cs 0 = true := by
  cases cs <;> rfl

variable {cs : List Char}

/-- Past the first character, the boundaries are those of the rest. -/
theorem isBoundary_cons {c : Char} {n : Nat} (h : c.utf8Size ≤ n) :
    isBoundary (c :: cs) n = isBoundary cs (n - c.utf8Size) := by
  have hpos := c.utf8Size_pos
  obtain ⟨k, rfl⟩ : ∃ k, n = k + 1 := ⟨n - 1, by omega⟩
  simp [isBoundary, h]

/-- A boundary inside the text is at most three bytes below an offset. -/
theorem exists_isBoundary {n : Nat} (h : n ≤ size cs) :
    ∃ b, b ≤ n ∧ n ≤ b + 3 ∧ isBoundary cs b = true := by
  induction cs generalizing n with
  | nil =>
    have hn : n = 0 := by simpa using h
    exact ⟨0, by omega, by omega, rfl⟩
  | cons c cs ih =>
    have hle := c.utf8Size_le_four
    by_cases hc : c.utf8Size ≤ n
    · obtain ⟨b, hb, hn, hbound⟩ := ih (n := n - c.utf8Size) (by rw [size_cons] at h; omega)
      refine ⟨b + c.utf8Size, by omega, by omega, ?_⟩
      rw [isBoundary_cons (by omega), Nat.add_sub_cancel]
      exact hbound
    · -- The offset is inside the first character.
      exact ⟨0, by omega, by omega, isBoundary_zero _⟩

theorem floor_le (cs : List Char) (low n : Nat) : floor cs low n ≤ n := by
  induction n with
  | zero => exact Nat.le_refl 0
  | succ n ih =>
    unfold floor
    split
    · omega
    · exact Nat.le_refl _

/-- Rounding down does not step over a boundary. -/
theorem le_floor_of_isBoundary {low n b : Nat} (hb : b ≤ n)
    (hbound : isBoundary cs b = true) : b ≤ floor cs low n := by
  induction n with
  | zero => omega
  | succ n ih =>
    unfold floor
    split
    · next h =>
      have hne : b ≠ n + 1 := by
        intro heq
        rw [heq, h.2] at hbound
        cases hbound
      exact ih (by omega)
    · exact hb

theorem le_floor {n : Nat} (low : Nat) (h : n ≤ size cs) : n ≤ floor cs low n + 3 := by
  obtain ⟨b, hb, hn, hbound⟩ := exists_isBoundary h
  have hfloor : b ≤ floor cs low n := le_floor_of_isBoundary hb hbound
  omega

/-- Rounding down from zero on ends at a boundary. -/
theorem isBoundary_floor (cs : List Char) (n : Nat) : isBoundary cs (floor cs 0 n) = true := by
  induction n with
  | zero => exact isBoundary_zero cs
  | succ n ih =>
    unfold floor
    split
    · exact ih
    · next h => simpa using h

theorem size_before {n : Nat} (h : isBoundary cs n = true) : size (before cs n) = n := by
  induction cs generalizing n with
  | nil =>
    cases n with
    | zero => rfl
    | succ n => cases h
  | cons c cs ih =>
    by_cases hc : c.utf8Size ≤ n
    · rw [isBoundary_cons hc] at h
      rw [before, if_pos hc, size_cons, ih h]
      omega
    · -- Only the start of the text is a boundary below its first character's end.
      cases n with
      | zero => simp [before, hc]
      | succ n => simp [isBoundary, hc] at h

theorem isBoundary_size (cs : List Char) : isBoundary cs (size cs) = true := by
  induction cs with
  | nil => rfl
  | cons c cs ih =>
    rw [isBoundary_cons (by rw [size_cons]; omega), size_cons, Nat.add_sub_cancel_left]
    exact ih

theorem before_size (cs : List Char) : before cs (size cs) = cs := by
  induction cs with
  | nil => rfl
  | cons c cs ih =>
    rw [before, if_pos (by rw [size_cons]; omega), size_cons, Nat.add_sub_cancel_left, ih]

theorem after_zero (cs : List Char) : after cs 0 = cs := by
  cases cs with
  | nil => rfl
  | cons c cs =>
    have hpos := c.utf8Size_pos
    rw [after, if_neg (by omega)]

theorem floor_size (cs : List Char) (low : Nat) : floor cs low (size cs) = size cs :=
  Nat.le_antisymm (floor_le _ _ _) (le_floor_of_isBoundary (Nat.le_refl _) (isBoundary_size cs))

/-! ## Bytes that need not be an encoding -/

def replacementCharacter : Char := Char.ofNat 0xFFFD

/-- The length of the sequence that a byte starts, and the bounds of its second byte. -/
def sequenceOf (b : UInt8) : Option (Nat × UInt8 × UInt8) :=
  if 0xC2 ≤ b ∧ b ≤ 0xDF then some (2, 0x80, 0xBF)
  else if b = 0xE0 then some (3, 0xA0, 0xBF)
  else if b = 0xED then some (3, 0x80, 0x9F)
  else if 0xE1 ≤ b ∧ b ≤ 0xEF then some (3, 0x80, 0xBF)
  else if b = 0xF0 then some (4, 0x90, 0xBF)
  else if 0xF1 ≤ b ∧ b ≤ 0xF3 then some (4, 0x80, 0xBF)
  else if b = 0xF4 then some (4, 0x80, 0x8F)
  else none

/-- The six bits of a byte that goes on with a sequence. -/
def continuation (b : UInt8) : Option Nat := if 0x80 ≤ b ∧ b ≤ 0xBF then some (b.toNat % 64) else none

/-- The first character, and how many bytes it stands for. -/
def decodeFirst (b : UInt8) (rest : List UInt8) : Char × Nat :=
  if b < 0x80 then (Char.ofNat b.toNat, 1)
  else
    match sequenceOf b, rest with
    | some (width, low, high), b1 :: rest =>
      if b1 < low ∨ high < b1 then (replacementCharacter, 1)
      else if width = 2 then (Char.ofNat (b.toNat % 32 * 64 + b1.toNat % 64), 2)
      else
        match rest.head?.bind continuation with
        | none => (replacementCharacter, 2)
        | some third =>
          if width = 3 then (Char.ofNat ((b.toNat % 16 * 64 + b1.toNat % 64) * 64 + third), 3)
          else
            match rest.tail.head?.bind continuation with
            | none => (replacementCharacter, 3)
            | some fourth => (Char.ofNat (((b.toNat % 8 * 64 + b1.toNat % 64) * 64 + third) * 64 + fourth), 4)
    | _, _ => (replacementCharacter, 1)

def decodeLossy : Nat → List UInt8 → List Char
  | 0, _ => []
  | _ + 1, [] => []
  | fuel + 1, b :: rest => (decodeFirst b rest).1 :: decodeLossy fuel (rest.drop ((decodeFirst b rest).2 - 1))

/-- `String::from_utf8_lossy`. Each character stands for a byte at least. -/
def fromUtf8Lossy (bytes : List UInt8) : List Char := decodeLossy bytes.length bytes

example : fromUtf8Lossy [0x61, 0xC3, 0xA9, 0xE2, 0x82, 0x62] = ['a', 'é', replacementCharacter, 'b'] := by decide

end Utf8
