import Mathlib

/- Little-endian numbers in bytes.

   A store gives every address a byte. A number is written over so many bytes from an
   offset on; what is read back is the number cut to that many bytes (`read_write`), and
   bytes elsewhere are what they were (`read_write_disjoint`).

   A list of bytes has numbers only as far as it goes. A number depends on its own bytes
   only (`numberAt_congr`), and it is there exactly when they all are (`numberAt_isSome`).
   Where bytes of a list are replaced, the number is the one that was put there
   (`numberAt_overwrite`), and the others stay (`numberAt_overwrite_apart`). -/
namespace Bytes

/-- The number in so many bytes from this offset on, the lowest first. -/
def read (store : Nat → Nat) : Nat → Nat → Nat
  | _, 0 => 0
  | offset, size + 1 => store offset % 256 + 256 * read store (offset + 1) size

def write (store : Nat → Nat) (offset size value : Nat) : Nat → Nat := fun a =>
  if offset ≤ a ∧ a < offset + size then value / 256 ^ (a - offset) % 256 else store a

theorem read_lt (store : Nat → Nat) (offset size : Nat) : read store offset size < 256 ^ size := by
  induction size generalizing offset with
  | zero => exact Nat.one_pos
  | succ size ih =>
    have hbyte : store offset % 256 < 256 := Nat.mod_lt _ (by decide)
    have hrest := ih (offset + 1)
    rw [read, Nat.pow_succ]
    omega

/-- Only the bytes that are read matter. -/
theorem read_congr {store store' : Nat → Nat} {offset size : Nat}
    (h : ∀ a, offset ≤ a → a < offset + size → store a = store' a) :
    read store offset size = read store' offset size := by
  induction size generalizing offset with
  | zero => rfl
  | succ size ih =>
    rw [read, read, h offset (Nat.le_refl _) (by omega), ih fun a hle hlt => h a (by omega) (by omega)]

theorem read_write_disjoint (store : Nat → Nat) {offset size : Nat} (value : Nat) {offset' size' : Nat}
    (h : offset + size ≤ offset' ∨ offset' + size' ≤ offset) :
    read (write store offset size value) offset' size' = read store offset' size' := by
  apply read_congr
  intro a hle hlt
  exact if_neg (by omega)

/-- The bytes of a written number from the one at `k` on. -/
theorem read_write_from (store : Nat → Nat) (offset size value k count : Nat) (h : k + count ≤ size) :
    read (write store offset size value) (offset + k) count = value / 256 ^ k % 256 ^ count := by
  induction count generalizing k with
  | zero => simp [read, Nat.mod_one]
  | succ count ih =>
    have hbyte : write store offset size value (offset + k) = value / 256 ^ k % 256 := by
      rw [write, if_pos (by omega), Nat.add_sub_cancel_left]
    calc read (write store offset size value) (offset + k) (count + 1)
        = value / 256 ^ k % 256 % 256 + 256 * (value / 256 ^ (k + 1) % 256 ^ count) := by
          rw [read, hbyte, Nat.add_assoc, ih (k + 1) (by omega)]
      _ = value / 256 ^ k % 256 + 256 * (value / 256 ^ k / 256 % 256 ^ count) := by
          rw [Nat.mod_mod, Nat.pow_succ, Nat.div_div_eq_div_mul]
      _ = value / 256 ^ k % 256 ^ (count + 1) := by rw [← Nat.mod_mul, Nat.pow_succ, Nat.mul_comm]

theorem read_write (store : Nat → Nat) (offset size value : Nat) :
    read (write store offset size value) offset size = value % 256 ^ size := by
  have h := read_write_from store offset size value 0 size (by omega)
  simpa using h

/-! ## Lists of bytes -/

/-- The number in so many bytes of a list from this offset on. -/
def numberAt (bytes : List UInt8) (offset : Nat) : Nat → Option Nat
  | 0 => some 0
  | width + 1 => do
    let low ← bytes[offset]?
    let high ← numberAt bytes (offset + 1) width
    return low.toNat + 256 * high

/-- The bytes of a number. -/
def toBytes : Nat → Nat → List UInt8
  | 0, _ => []
  | width + 1, n => UInt8.ofNat n :: toBytes width (n / 256)

/-- `bytes.chunks_exact(size)`. -/
def chunksExact (size : Nat) (bytes : List UInt8) : List (List UInt8) :=
  (List.range (bytes.length / size)).map fun i => (bytes.drop (i * size)).take size

theorem numberAt_congr {bytes bytes' : List UInt8} {offset width : Nat}
    (h : ∀ i, offset ≤ i → i < offset + width → bytes[i]? = bytes'[i]?) :
    numberAt bytes offset width = numberAt bytes' offset width := by
  induction width generalizing offset with
  | zero => rfl
  | succ width ih =>
    rw [numberAt, numberAt, h offset (Nat.le_refl _) (by omega), ih fun i hle hlt => h i (by omega) (by omega)]

theorem numberAt_take {bytes : List UInt8} {offset width n : Nat} (h : offset + width ≤ n) :
    numberAt (bytes.take n) offset width = numberAt bytes offset width := by
  apply numberAt_congr
  intro i _ hlt
  rw [List.getElem?_take, if_pos (by omega)]

theorem numberAt_drop (bytes : List UInt8) (n offset width : Nat) :
    numberAt (bytes.drop n) offset width = numberAt bytes (n + offset) width := by
  induction width generalizing offset with
  | zero => rfl
  | succ width ih => rw [numberAt, numberAt, List.getElem?_drop, ih, Nat.add_assoc]

theorem numberAt_isSome {bytes : List UInt8} {offset width : Nat} :
    (numberAt bytes offset width).isSome ↔ width = 0 ∨ offset + width ≤ bytes.length := by
  induction width generalizing offset with
  | zero => simp [numberAt]
  | succ width ih =>
    by_cases hlt : offset < bytes.length
    · have hstep : (numberAt bytes offset (width + 1)).isSome = (numberAt bytes (offset + 1) width).isSome := by
        rw [numberAt, List.getElem?_eq_getElem hlt]
        cases numberAt bytes (offset + 1) width <;> rfl
      rw [hstep, ih]
      omega
    · have hnone : numberAt bytes offset (width + 1) = none := by
        rw [numberAt, List.getElem?_eq_none (Nat.le_of_not_lt hlt)]
        rfl
      rw [hnone]
      simp
      omega

theorem numberAt_lt {bytes : List UInt8} {offset width n : Nat} (h : numberAt bytes offset width = some n) :
    n < 256 ^ width := by
  induction width generalizing offset n with
  | zero =>
    obtain rfl := Option.some.inj h
    exact Nat.one_pos
  | succ width ih =>
    obtain ⟨low, -, hrest⟩ := Option.bind_eq_some_iff.mp h
    obtain ⟨high, hhigh, hsum⟩ := Option.bind_eq_some_iff.mp hrest
    obtain rfl := Option.some.inj hsum
    have hlow := low.toNat_lt
    have hbound := ih hhigh
    rw [Nat.pow_succ]
    omega

@[simp] theorem length_toBytes (width n : Nat) : (toBytes width n).length = width := by
  induction width generalizing n with
  | zero => rfl
  | succ width ih => rw [toBytes, List.length_cons, ih]

/-! ## Bytes that are replaced -/

/-- The bytes of a list from this offset on are replaced by as many others. -/
def overwrite (bytes : List UInt8) (offset : Nat) (others : List UInt8) : List UInt8 :=
  bytes.take offset ++ (others ++ bytes.drop (offset + others.length))

section Overwrite
variable {bytes others : List UInt8} {offset : Nat}

theorem length_overwrite (h : offset + others.length ≤ bytes.length) :
    (overwrite bytes offset others).length = bytes.length := by
  simp only [overwrite, List.length_append, List.length_take, List.length_drop]
  omega

theorem getElem?_overwrite_apart (h : offset + others.length ≤ bytes.length) {i : Nat}
    (hi : i < offset ∨ offset + others.length ≤ i) : (overwrite bytes offset others)[i]? = bytes[i]? := by
  have htake : (bytes.take offset).length = offset := by
    rw [List.length_take]
    omega
  rw [overwrite]
  cases hi with
  | inl hlt => rw [List.getElem?_append_left (by omega), List.getElem?_take, if_pos hlt]
  | inr hge =>
    rw [List.getElem?_append_right (by omega), List.getElem?_append_right (by omega), List.getElem?_drop]
    congr 1
    omega

theorem drop_overwrite (h : offset + others.length ≤ bytes.length) :
    (overwrite bytes offset others).drop offset = others ++ bytes.drop (offset + others.length) := by
  have htake : (bytes.take offset).length = offset := by
    rw [List.length_take]
    omega
  exact List.drop_left' htake

theorem numberAt_overwrite_apart (h : offset + others.length ≤ bytes.length) {offset' width : Nat}
    (hapart : offset' + width ≤ offset ∨ offset + others.length ≤ offset') :
    numberAt (overwrite bytes offset others) offset' width = numberAt bytes offset' width := by
  apply numberAt_congr
  intro i hle hlt
  exact getElem?_overwrite_apart h (by omega)

theorem numberAt_toBytes (width n : Nat) (rest : List UInt8) :
    numberAt (toBytes width n ++ rest) 0 width = some (n % 256 ^ width) := by
  induction width generalizing n with
  | zero => simp [numberAt, Nat.mod_one]
  | succ width ih =>
    have htail : numberAt (toBytes (width + 1) n ++ rest) 1 width = some (n / 256 % 256 ^ width) := by
      have hdrop := numberAt_drop (toBytes (width + 1) n ++ rest) 1 0 width
      rw [← hdrop]
      exact ih (n / 256)
    have hlow : (UInt8.ofNat n).toNat = n % 256 := UInt8.toNat_ofNat'
    rw [numberAt, Nat.zero_add, htail]
    show some ((UInt8.ofNat n).toNat + 256 * (n / 256 % 256 ^ width)) = _
    rw [hlow, ← Nat.mod_mul, Nat.pow_succ, Nat.mul_comm 256]

theorem numberAt_overwrite {width n : Nat} (h : offset + width ≤ bytes.length) :
    numberAt (overwrite bytes offset (toBytes width n)) offset width = some (n % 256 ^ width) := by
  have hdrop := numberAt_drop (overwrite bytes offset (toBytes width n)) offset 0 width
  rw [drop_overwrite (by rwa [length_toBytes]), numberAt_toBytes] at hdrop
  exact hdrop.symm

end Overwrite

end Bytes
