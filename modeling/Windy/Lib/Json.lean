import Windy.Lib.Utf8

/- JSON values and the compact text a serializer writes for them.

   Objects are lists of fields in key order, as an ordered map keeps them; numbers are kept as the
   text they are written with. `text` is the output without blanks, `size` its length in bytes
   (`size_text`), so that the length of a large value is a sum over its parts. -/

/-- A JSON value. -/
inductive Json where
  | null
  | bool (b : Bool)
  | num (digits : String)
  | str (s : String)
  | arr (items : List Json)
  | obj (fields : List (String × Json))

namespace Json

/-- The field of an ordered map is added or replaced. -/
def insertField (k : String) (v : Json) : List (String × Json) → List (String × Json)
  | [] => [(k, v)]
  | (k', v') :: rest =>
    if k < k' then (k, v) :: (k', v') :: rest
    else if k = k' then (k, v) :: rest
    else (k', v') :: insertField k v rest

/-- The fields are added one after the other. -/
def insertFields : List (String × Json) → List (String × Json) → List (String × Json)
  | [], out => out
  | (k, v) :: rest, out => insertFields rest (insertField k v out)

/-- An object literal. -/
def object (fields : List (String × Json)) : Json :=
  .obj (insertFields fields [])

def nat (n : Nat) : Json :=
  .num (toString n)

/-- The field of an object; nothing for other values. -/
def get (k : String) : Json → Option Json
  | .obj fields => fields.lookup k
  | _ => none

def asStr : Json → Option String
  | .str s => some s
  | _ => none

/-- A present value, or `null`. -/
def ofOption {α : Type} (f : α → Json) : Option α → Json
  | some a => f a
  | none => .null

/-! ## Text -/

/-- A digit of a `\u` escape. -/
def hexDigit (n : Nat) : Char :=
  if n < 10 then Char.ofNat (48 + n) else Char.ofNat (87 + n)

/-- How a character is written inside a string. -/
def escapeChar (c : Char) : List Char :=
  if c = '"' then ['\\', '"']
  else if c = '\\' then ['\\', '\\']
  else if c.toNat = 8 then ['\\', 'b']
  else if c.toNat = 9 then ['\\', 't']
  else if c.toNat = 10 then ['\\', 'n']
  else if c.toNat = 12 then ['\\', 'f']
  else if c.toNat = 13 then ['\\', 'r']
  else if c.toNat < 32 then ['\\', 'u', '0', '0', hexDigit (c.toNat / 16), hexDigit (c.toNat % 16)]
  else [c]

def escape (cs : List Char) : List Char :=
  cs.flatMap escapeChar

def quote (s : String) : List Char :=
  '"' :: escape s.toList ++ ['"']

mutual

/-- The compact text of a value. -/
def text : Json → List Char
  | .null => "null".toList
  | .bool b => (if b then "true" else "false").toList
  | .num digits => digits.toList
  | .str s => quote s
  | .arr items => '[' :: textItems items ++ [']']
  | .obj fields => Char.ofNat 123 :: textFields fields ++ [Char.ofNat 125]

def textItems : List Json → List Char
  | [] => []
  | [item] => text item
  | item :: rest => text item ++ ',' :: textItems rest

def textFields : List (String × Json) → List Char
  | [] => []
  | [(k, v)] => quote k ++ ':' :: text v
  | (k, v) :: rest => quote k ++ ':' :: text v ++ ',' :: textFields rest

end

/-- The text as one string. -/
def toText (j : Json) : String :=
  String.ofList j.text

/-! ## Length of the text -/

/-- Length of a string inside its quotes. -/
def escapedSize (s : String) : Nat :=
  Utf8.size (escape s.toList)

mutual

/-- The length of the text in bytes. -/
def size : Json → Nat
  | .null => 4
  | .bool b => if b then 4 else 5
  | .num digits => Utf8.size digits.toList
  | .str s => escapedSize s + 2
  | .arr items => sizeItems items + 2
  | .obj fields => sizeFields fields + 2

def sizeItems : List Json → Nat
  | [] => 0
  | [item] => size item
  | item :: rest => size item + 1 + sizeItems rest

def sizeFields : List (String × Json) → Nat
  | [] => 0
  | [(k, v)] => escapedSize k + 3 + size v
  | (k, v) :: rest => escapedSize k + 4 + size v + sizeFields rest

end

theorem size_quote (s : String) : Utf8.size (quote s) = escapedSize s + 2 := by
  have hq : '"'.utf8Size = 1 := rfl
  simp only [quote, escapedSize, Utf8.size_cons, Utf8.size_append, List.cons_append, Utf8.size_nil, hq]
  omega

mutual

theorem size_text (j : Json) : Utf8.size j.text = j.size := by
  match j with
  | .null => rfl
  | .bool b => cases b <;> rfl
  | .num digits => rfl
  | .str s => exact size_quote s
  | .arr items =>
    have ih := size_textItems items
    have h1 : '['.utf8Size = 1 := rfl
    have h2 : ']'.utf8Size = 1 := rfl
    simp only [text, size, List.cons_append, Utf8.size_cons, Utf8.size_append, Utf8.size_nil, ih, h1, h2]
    omega
  | .obj fields =>
    have ih := size_textFields fields
    have h1 : (Char.ofNat 123).utf8Size = 1 := rfl
    have h2 : (Char.ofNat 125).utf8Size = 1 := rfl
    simp only [text, size, List.cons_append, Utf8.size_cons, Utf8.size_append, Utf8.size_nil, ih, h1, h2]
    omega

theorem size_textItems (items : List Json) : Utf8.size (textItems items) = sizeItems items := by
  match items with
  | [] => rfl
  | [item] => exact size_text item
  | item :: next :: rest =>
    have h1 : ','.utf8Size = 1 := rfl
    simp only [textItems, sizeItems, Utf8.size_cons, Utf8.size_append, size_text item,
      size_textItems (next :: rest), h1]
    omega

theorem size_textFields (fields : List (String × Json)) :
    Utf8.size (textFields fields) = sizeFields fields := by
  match fields with
  | [] => rfl
  | [(k, v)] =>
    have h1 : ':'.utf8Size = 1 := rfl
    simp only [textFields, sizeFields, Utf8.size_cons, Utf8.size_append, size_quote, size_text v, h1]
    omega
  | (k, v) :: next :: rest =>
    have h1 : ':'.utf8Size = 1 := rfl
    have h2 : ','.utf8Size = 1 := rfl
    simp only [textFields, sizeFields, List.cons_append, List.append_assoc, Utf8.size_cons,
      Utf8.size_append, size_quote, size_text v, size_textFields (next :: rest), h1, h2]
    omega

end

/-- Only quotes, backslashes and control characters are escaped. -/
theorem escapeChar_eq_self {c : Char} (h : 32 ≤ c.toNat) (hquote : c ≠ '"') (hslash : c ≠ '\\') :
    escapeChar c = [c] := by
  unfold escapeChar
  rw [if_neg hquote, if_neg hslash, if_neg (by omega), if_neg (by omega), if_neg (by omega), if_neg (by omega),
    if_neg (by omega), if_neg (by omega)]

theorem escapeChar_of_ascii {c : Char} (h : c.toNat < 128) : escapeChar c ≠ [] ∧ Utf8.size (escapeChar c) ≤ 6 := by
  have hall : ∀ n < 128, escapeChar (Char.ofNat n) ≠ [] ∧ Utf8.size (escapeChar (Char.ofNat n)) ≤ 6 := by
    decide +kernel
  simpa only [Char.ofNat_toNat] using hall c.toNat h

theorem escapeChar_of_not_ascii {c : Char} (h : ¬ c.toNat < 128) : escapeChar c = [c] := by
  have hquote : c ≠ '"' := by
    intro hc
    rw [hc] at h
    exact h (by decide)
  have hslash : c ≠ '\\' := by
    intro hc
    rw [hc] at h
    exact h (by decide)
  exact escapeChar_eq_self (by omega) hquote hslash

theorem escapeChar_ne_nil (c : Char) : escapeChar c ≠ [] := by
  by_cases hascii : c.toNat < 128
  · exact (escapeChar_of_ascii hascii).1
  · rw [escapeChar_of_not_ascii hascii]
    exact List.cons_ne_nil c []

theorem utf8Size_le_escapeChar (c : Char) : c.utf8Size ≤ Utf8.size (escapeChar c) := by
  by_cases hascii : c.toNat < 128
  · -- One byte, and an escape is not empty.
    have hone := Utf8.utf8Size_of_lt hascii
    obtain ⟨d, ds, hescape⟩ := List.exists_cons_of_ne_nil (escapeChar_ne_nil c)
    have hpos := d.utf8Size_pos
    rw [hone, hescape, Utf8.size_cons]
    omega
  · exact Nat.le_of_eq (by rw [escapeChar_of_not_ascii hascii, Utf8.size_cons, Utf8.size_nil, Nat.add_zero])

theorem size_escapeChar_le (c : Char) : Utf8.size (escapeChar c) ≤ 6 * c.utf8Size := by
  have hpos := c.utf8Size_pos
  by_cases hascii : c.toNat < 128
  · have hsix := (escapeChar_of_ascii hascii).2
    omega
  · rw [escapeChar_of_not_ascii hascii, Utf8.size_cons, Utf8.size_nil]
    omega

/-- Escaping makes no text shorter. -/
theorem size_le_escape (cs : List Char) : Utf8.size cs ≤ Utf8.size (escape cs) := by
  induction cs with
  | nil => exact Nat.le_refl 0
  | cons c cs ih =>
    have hc := utf8Size_le_escapeChar c
    rw [escape, List.flatMap_cons, Utf8.size_append, Utf8.size_cons]
    exact Nat.add_le_add hc ih

/-- Escaping makes a text at most six times as long. -/
theorem size_escape_le (cs : List Char) : Utf8.size (escape cs) ≤ 6 * Utf8.size cs := by
  induction cs with
  | nil => exact Nat.le_refl 0
  | cons c cs ih =>
    have hc := size_escapeChar_le c
    rw [escape, List.flatMap_cons, Utf8.size_append, Utf8.size_cons, Nat.mul_add]
    exact Nat.add_le_add hc ih

/-- Characters that need no escape are written as they are. -/
theorem escape_eq_self {cs : List Char} (h : ∀ c ∈ cs, escapeChar c = [c]) : escape cs = cs := by
  induction cs with
  | nil => rfl
  | cons c cs ih =>
    rw [escape, List.flatMap_cons, h c List.mem_cons_self]
    exact congrArg (c :: ·) (ih fun d hd => h d (List.mem_cons_of_mem c hd))

end Json
