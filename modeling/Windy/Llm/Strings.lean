import Windy.Llm.Query

/- Texts at an address (`llm/query.rs`, `try_read_string_at_va`).

   The reader takes a window of 256 bytes of the file, from the byte at the address on, and
   reads the printable bytes at its beginning. Are these too few, it takes 514 bytes and reads
   code units of 16 bits up to a zero. A window that does not fit into the file is not read at
   all, and only its first byte is compared with the section. Addresses are those of
   `AddressSpace`, which are the loader's where no sum overflows (`Loader.sectionAtVa_eq`).

   What is proved: two images show the same text at an address, and a text holds no byte from
   beyond its section, exactly when the window of a text fits into the file and no text
   `CrossesEnd` of its section (`texts_exact_iff`).

   Correspondence: the reader is that of `Windy.Llm.Query`.
     `section.va_to_offset(base, va)` ↔ `fileOffset`
     the bytes a window begins with ↔ `bytesFrom` -/
namespace Windy.Llm

section Image
variable (p : Program)

/-- Where the byte at an address is in the file. -/
def fileOffset (va : Nat) : Option Nat :=
  (p.addressSpace.sectionAtVa va).bind fun s => s.vaToOffset p.addressSpace.imageBase va

/-- The file from the byte at an address on. -/
def bytesFrom (va : Nat) : List Nat :=
  match fileOffset p va with
  | some offset => p.image.drop offset
  | none => []

/-- So many bytes of the file follow. -/
def InFile (va len : Nat) : Prop := ∃ offset, fileOffset p va = some offset ∧ offset + len ≤ p.image.length

/-- How far an address is from the start of its section. -/
def offsetIn (s : Section) (va : Nat) : Nat := va - p.addressSpace.imageBase - s.vaddr

/-- The initialized bytes of the section from an address on. -/
def initializedBytes (va : Nat) : List Nat :=
  match p.addressSpace.sectionAtVa va with
  | some s => (bytesFrom p va).take (s.rawSize - offsetIn p s va)
  | none => []

/-- How many bytes there are up to the end of the section, in memory and in the file. -/
def remaining (va : Nat) : Nat :=
  match p.addressSpace.sectionAtVa va with
  | some s => min s.vsize s.rawSize - offsetIn p s va
  | none => 0

def sectionBytes (va : Nat) : List Nat := (bytesFrom p va).take (remaining p va)

/-- The section has the text at the address, with a zero behind it. -/
structure HoldsText (va : Nat) (text : List Nat) : Prop where
  bytes : text ++ [0] <+: initializedBytes p va
  printable : ∀ b ∈ text, isPrintable b = true

end Image

/-- A unit that is read and then accepted: form feeds are refused before. -/
def isWidePrintable (u : Nat) : Bool := isPrintable u && u ≠ 0x0c

/-- The units in little-endian order. -/
def wideBytes (units : List Nat) : List Nat := units.flatMap fun u => [u % 256, u / 256]

/-- The text is written with these bytes. -/
def StringRef.Spells (r : StringRef) (bytes : List Nat) : Prop :=
  (r.encoding = "ascii" ∧ r.value = textOf bytes) ∨
    (r.encoding = "utf16" ∧ ∃ units, bytes = wideBytes units ∧ r.value = textOf units)

/-- No byte of the text is from beyond the section. -/
def StringRef.Inside (r : StringRef) (p : Program) (va : Nat) : Prop := ∃ bytes, bytes <+: sectionBytes p va ∧ r.Spells bytes

/-- The text at an address depends on the text only. -/
structure TextsExact (p q : Program) (va minLen : Nat) : Prop where
  same : ∀ text, HoldsText p va text → HoldsText q va text → minLen ≤ text.length → text.length ≤ 255 →
    tryReadStringAtVa p va minLen = some ⟨va, textOf text, "ascii"⟩ ∧
      tryReadStringAtVa q va minLen = some ⟨va, textOf text, "ascii"⟩
  inside : ∀ r, (tryReadStringAtVa p va minLen = some r → r.Inside p va) ∧
    (tryReadStringAtVa q va minLen = some r → r.Inside q va)

/-- Printable bytes that go on behind the end of the section: of one byte, or of two bytes
each up to a zero or to the longest text. -/
def CrossesEnd (p : Program) (va minLen : Nat) : Prop :=
  (InFile p va 256 ∧ ∃ text, text <+: bytesFrom p va ∧ (∀ b ∈ text, isPrintable b = true) ∧
    remaining p va < text.length ∧ minLen ≤ text.length ∧ text.length ≤ 256) ∨
  (InFile p va 514 ∧ 2 ≤ minLen ∧ ∃ text, (∀ u ∈ text, isWidePrintable u = true) ∧ remaining p va < 2 * text.length ∧
    minLen ≤ text.length ∧ (text.length = 256 ∧ wideBytes text <+: bytesFrom p va ∨
      text.length < 256 ∧ wideBytes text ++ [0, 0] <+: bytesFrom p va))

/-! ## Windows -/

section Windows
variable {p : Program} {va minLen : Nat}

theorem sliceForVa_of_inFile {len : Nat} (h : InFile p va len) :
    p.addressSpace.sliceForVa p.image va len = some ((bytesFrom p va).take len) := by
  obtain ⟨offset, hoffset, hlen⟩ := h
  rw [bytesFrom, hoffset, AddressSpace.sliceForVa, show (p.addressSpace.sectionAtVa va).bind _ = some offset from hoffset,
    Option.bind_some, if_pos hlen]

theorem sliceForVa_of_not_inFile {len : Nat} (h : ¬ InFile p va len) :
    p.addressSpace.sliceForVa p.image va len = none := by
  rw [AddressSpace.sliceForVa]
  cases hoffset : (p.addressSpace.sectionAtVa va).bind fun s => s.vaToOffset p.addressSpace.imageBase va with
  | none => rfl
  | some offset => exact if_neg fun hlen => h ⟨offset, hoffset, hlen⟩

theorem InFile.le {len len' : Nat} (h : InFile p va len) (hle : len' ≤ len) : InFile p va len' := by
  obtain ⟨offset, hoffset, hlen⟩ := h
  exact ⟨offset, hoffset, by omega⟩

theorem InFile.length_bytesFrom {len : Nat} (h : InFile p va len) : len ≤ (bytesFrom p va).length := by
  obtain ⟨offset, hoffset, hlen⟩ := h
  rw [bytesFrom, hoffset, List.length_drop]
  omega

/-- The printable bytes at the beginning of the window. -/
theorem length_takeWhile_le {bytes text : List Nat} (hstart : text <+: bytes)
    (hprintable : ∀ b ∈ text, isPrintable b = true) : text.length ≤ (bytes.takeWhile isPrintable).length := by
  obtain ⟨rest, rfl⟩ := hstart
  rw [List.takeWhile_append_of_pos hprintable, List.length_append]
  exact Nat.le_add_right _ _

theorem readPrintableAsciiz_eq (h : InFile p va 256) : readPrintableAsciiz p va 256 minLen =
    if (((bytesFrom p va).take 256).takeWhile isPrintable).length < minLen then none
    else some (textOf (((bytesFrom p va).take 256).takeWhile isPrintable)) := by
  rw [readPrintableAsciiz, sliceForVa_of_inFile h]
  rfl

theorem readPrintableAsciiz_of_not_inFile (h : ¬ InFile p va 256) : readPrintableAsciiz p va 256 minLen = none := by
  rw [readPrintableAsciiz, sliceForVa_of_not_inFile h]
  rfl

theorem tryReadStringAtVa_of_not_inFile (h : ¬ InFile p va 256) : tryReadStringAtVa p va minLen = none := by
  have hwide : ¬ InFile p va (256 * 2 + 2) := fun hlong => h (hlong.le (by decide))
  rw [tryReadStringAtVa, readPrintableAsciiz_of_not_inFile h, readPrintableUtf16le, sliceForVa_of_not_inFile hwide]
  rfl

/-! ## Texts of bytes -/

theorem initializedBytes_prefix : initializedBytes p va <+: bytesFrom p va := by
  unfold initializedBytes
  split
  · exact List.take_prefix _ _
  · exact List.nil_prefix

/-- A text is read if its window is in the file. -/
theorem tryReadStringAtVa_of_holdsText {text : List Nat} (h : HoldsText p va text) (hmin : minLen ≤ text.length)
    (hmax : text.length ≤ 255) :
    tryReadStringAtVa p va minLen = some ⟨va, textOf text, "ascii"⟩ ↔ InFile p va 256 := by
  constructor
  · intro hread
    by_contra hout
    rw [tryReadStringAtVa_of_not_inFile hout] at hread
    cases hread
  · intro hin
    obtain ⟨rest, hrest⟩ := h.bytes.trans initializedBytes_prefix
    have hrun : ((bytesFrom p va).take 256).takeWhile isPrintable = text := by
      have hzero : ((0 :: rest).take (256 - text.length)).takeWhile isPrintable = [] := by
        rw [show 256 - text.length = 255 - text.length + 1 by omega, List.take_succ_cons]
        rfl
      rw [← hrest, List.append_assoc, List.singleton_append, List.take_append, List.take_of_length_le (by omega),
        List.takeWhile_append_of_pos h.printable, hzero, List.append_nil]
    rw [tryReadStringAtVa, readPrintableAsciiz_eq hin, hrun, if_neg (by omega)]

/-! ## Texts of two bytes each -/

theorem wideBytes_cons {u : Nat} (hu : isPrintable u = true) (units : List Nat) :
    wideBytes (u :: units) = u :: 0 :: wideBytes units := by
  have hsmall : u < 256 := by
    simp only [isPrintable, Bool.or_eq_true, Bool.and_eq_true, decide_eq_true_eq] at hu
    omega
  rw [wideBytes, List.flatMap_cons, Nat.mod_eq_of_lt hsmall, Nat.div_eq_of_lt hsmall]
  rfl

theorem length_wideBytes (units : List Nat) : (wideBytes units).length = 2 * units.length := by
  induction units with
  | nil => rfl
  | cons u units ih =>
    rw [wideBytes, List.flatMap_cons, List.length_append, ← wideBytes, ih, List.length_cons]
    simp only [List.length_cons, List.length_nil]
    omega

theorem isPrintable_of_wide {u : Nat} (hu : isWidePrintable u = true) : isPrintable u = true :=
  (Bool.and_eq_true _ _ ▸ hu : _ ∧ _).1

theorem readUnits_cons {limit lo hi u : Nat} {rest units : List Nat} (hu : isPrintable u = true) :
    readUnits (limit + 1) (lo :: hi :: rest) = some (u :: units) ↔
      lo = u ∧ hi = 0 ∧ u ≠ 0x0c ∧ readUnits limit rest = some units := by
  simp only [isPrintable, Bool.or_eq_true, Bool.and_eq_true, decide_eq_true_eq] at hu
  rw [readUnits]
  split
  · rename_i hzero
    constructor
    · intro h
      cases h
    · rintro ⟨rfl, rfl, -⟩
      omega
  · split
    · rename_i hcontrol
      simp only [Bool.or_eq_true, Bool.and_eq_true, decide_eq_true_eq] at hcontrol
      constructor
      · intro h
        cases h
      · rintro ⟨rfl, rfl, hfeed, -⟩
        omega
    · rename_i hcontrol
      simp only [Bool.or_eq_true, Bool.and_eq_true, decide_eq_true_eq] at hcontrol
      rw [Option.map_eq_some_iff]
      constructor
      · rintro ⟨found, hfound, heq⟩
        obtain ⟨hlo, rfl⟩ := List.cons.inj heq
        exact ⟨by omega, by omega, by omega, hfound⟩
      · rintro ⟨rfl, rfl, -, hfound⟩
        exact ⟨units, hfound, rfl⟩

theorem readUnits_eq_nil {limit lo hi : Nat} {rest : List Nat} :
    readUnits (limit + 1) (lo :: hi :: rest) = some [] ↔ lo = 0 ∧ hi = 0 := by
  rw [readUnits]
  split
  · exact iff_of_true rfl (by omega)
  · refine iff_of_false ?_ (by omega)
    split <;> simp

/-- A text is read exactly if it is written in the window, with a zero behind it unless it
is as long as it may be. -/
theorem readUnits_eq_some_iff {limit : Nat} {bytes units : List Nat} (hlong : 2 * limit + 2 ≤ bytes.length)
    (hprintable : ∀ u ∈ units, isWidePrintable u = true) : readUnits limit bytes = some units ↔
      units.length = limit ∧ wideBytes units <+: bytes ∨ units.length < limit ∧ wideBytes units ++ [0, 0] <+: bytes := by
  induction limit generalizing bytes units with
  | zero =>
    rw [readUnits.eq_def]
    simp only [Option.some.injEq, List.length_eq_zero_iff, Nat.not_lt_zero, false_and, or_false]
    exact ⟨fun h => ⟨h.symm, h ▸ List.nil_prefix⟩, fun h => h.1.symm⟩
  | succ limit ih =>
    obtain ⟨lo, bytes, rfl⟩ := List.exists_cons_of_length_pos (show 0 < bytes.length by omega)
    rw [List.length_cons] at hlong
    obtain ⟨hi, rest, rfl⟩ := List.exists_cons_of_length_pos (show 0 < bytes.length by omega)
    rw [List.length_cons] at hlong
    cases units with
    | nil =>
      rw [readUnits_eq_nil]
      simp [wideBytes, eq_comm]
    | cons u units =>
      have hu := hprintable u List.mem_cons_self
      have hunits : ∀ u ∈ units, isWidePrintable u = true := fun v hv => hprintable v (List.mem_cons_of_mem u hv)
      have hfeed : u ≠ 0x0c := by
        simp only [isWidePrintable, Bool.and_eq_true, decide_eq_true_eq] at hu
        exact hu.2
      rw [readUnits_cons (isPrintable_of_wide hu), wideBytes_cons (isPrintable_of_wide hu), ih (by omega) hunits]
      simp only [List.cons_append, List.cons_prefix_cons, List.length_cons, Nat.add_right_cancel_iff,
        Nat.add_lt_add_iff_right, @eq_comm _ u, @eq_comm _ 0]
      constructor
      · rintro ⟨rfl, rfl, -, h⟩
        exact h.imp (fun h => ⟨h.1, rfl, rfl, h.2⟩) fun h => ⟨h.1, rfl, rfl, h.2⟩
      · rintro (⟨hlength, rfl, rfl, h⟩ | ⟨hlength, rfl, rfl, h⟩)
        · exact ⟨rfl, rfl, hfeed, .inl ⟨hlength, h⟩⟩
        · exact ⟨rfl, rfl, hfeed, .inr ⟨hlength, h⟩⟩

/-- No form feed is read. -/
theorem isWidePrintable_of_readUnits {limit : Nat} {bytes units : List Nat} (h : readUnits limit bytes = some units)
    (hall : ∀ u ∈ units, isPrintable u = true) : ∀ u ∈ units, isWidePrintable u = true := by
  induction limit generalizing bytes units with
  | zero =>
    rw [readUnits.eq_def] at h
    obtain rfl := Option.some.inj h
    exact fun u hu => absurd hu List.not_mem_nil
  | succ limit ih =>
    cases units with
    | nil => exact fun u hu => absurd hu List.not_mem_nil
    | cons u units =>
      have hu := hall u List.mem_cons_self
      have hunits : ∀ u ∈ units, isPrintable u = true := fun v hv => hall v (List.mem_cons_of_mem u hv)
      rcases bytes with _ | ⟨lo, _ | ⟨hi, rest⟩⟩
      · rw [readUnits.eq_def] at h
        cases h
      · rw [readUnits.eq_def] at h
        cases h
      · obtain ⟨-, -, hfeed, hrest⟩ := (readUnits_cons hu).mp h
        intro v hv
        rcases List.mem_cons.mp hv with rfl | hv
        · rw [isWidePrintable, hu, decide_eq_true hfeed]
          rfl
        · exact ih hrest hunits v hv

/-! ## Texts and the end of the section -/

theorem length_toList_textOf (units : List Nat) : (textOf units).toList.length = units.length := by
  rw [textOf, String.toList_ofList, List.length_map]

theorem prefix_sectionBytes_iff {bytes : List Nat} (h : bytes <+: bytesFrom p va) :
    bytes <+: sectionBytes p va ↔ bytes.length ≤ remaining p va := by
  rw [sectionBytes, List.prefix_take_iff]
  exact and_iff_right h

theorem inside_ascii_iff {text : List Nat} (h : text <+: bytesFrom p va) :
    StringRef.Inside ⟨va, textOf text, "ascii"⟩ p va ↔ text.length ≤ remaining p va := by
  constructor
  · rintro ⟨bytes, hbytes, ⟨-, hvalue⟩ | ⟨hwide, -⟩⟩
    · have hlength := congrArg (fun s => s.toList.length) hvalue
      simp only [length_toList_textOf] at hlength
      rw [hlength, ← prefix_sectionBytes_iff (hbytes.trans (List.take_prefix _ _))]
      exact hbytes
    · exact absurd (show "ascii" = "utf16" from hwide) (by decide)
  · exact fun hle => ⟨text, (prefix_sectionBytes_iff h).mpr hle, .inl ⟨rfl, rfl⟩⟩

theorem inside_wide_iff {text : List Nat} (h : wideBytes text <+: bytesFrom p va) :
    StringRef.Inside ⟨va, textOf text, "utf16"⟩ p va ↔ 2 * text.length ≤ remaining p va := by
  constructor
  · rintro ⟨bytes, hbytes, ⟨hascii, -⟩ | ⟨-, units, rfl, hvalue⟩⟩
    · exact absurd (show "utf16" = "ascii" from hascii) (by decide)
    · have hlength := congrArg (fun s => s.toList.length) hvalue
      simp only [length_toList_textOf] at hlength
      rw [hlength, ← length_wideBytes, ← prefix_sectionBytes_iff (hbytes.trans (List.take_prefix _ _))]
      exact hbytes
  · intro hle
    rw [← length_wideBytes] at hle
    exact ⟨wideBytes text, (prefix_sectionBytes_iff h).mpr hle, .inr ⟨rfl, text, rfl, rfl⟩⟩

/-- What is read as a text of two bytes each. -/
theorem readPrintableUtf16le_eq_some {s : String} : readPrintableUtf16le p va 256 minLen = some s ↔
    InFile p va 514 ∧ ∃ text, (∀ u ∈ text, isWidePrintable u = true) ∧ minLen ≤ text.length ∧
      (text.length = 256 ∧ wideBytes text <+: bytesFrom p va ∨
        text.length < 256 ∧ wideBytes text ++ [0, 0] <+: bytesFrom p va) ∧ s = textOf text := by
  by_cases hin : InFile p va 514
  · have hlong : 2 * 256 + 2 ≤ ((bytesFrom p va).take 514).length := by
      have hlength := hin.length_bytesFrom
      rw [List.length_take]
      omega
    -- What fits into the window is where it is in the file.
    have hwindow : ∀ text : List Nat, (text.length = 256 ∧ wideBytes text <+: (bytesFrom p va).take 514 ∨
        text.length < 256 ∧ wideBytes text ++ [0, 0] <+: (bytesFrom p va).take 514) ↔
        (text.length = 256 ∧ wideBytes text <+: bytesFrom p va ∨
          text.length < 256 ∧ wideBytes text ++ [0, 0] <+: bytesFrom p va) := by
      intro text
      have hlength := length_wideBytes text
      refine or_congr (and_congr_right fun h => ?_) (and_congr_right fun h => ?_)
      · rw [List.prefix_take_iff]
        exact and_iff_left (by omega)
      · rw [List.prefix_take_iff, List.length_append]
        exact and_iff_left (by simp only [List.length_cons, List.length_nil]; omega)
    rw [readPrintableUtf16le, sliceForVa_of_inFile hin, Option.bind_some, Option.bind_eq_some_iff]
    constructor
    · rintro ⟨units, hunits, hread⟩
      split at hread
      · cases hread
      · rename_i hgood
        simp only [Bool.or_eq_true, decide_eq_true_eq, not_or, Bool.not_eq_true', Bool.not_eq_false,
          List.all_eq_true, Nat.not_lt] at hgood
        have hwide := isWidePrintable_of_readUnits hunits hgood.2
        exact ⟨hin, units, hwide, hgood.1, (hwindow units).mp ((readUnits_eq_some_iff hlong hwide).mp hunits),
          (Option.some.inj hread).symm⟩
    · rintro ⟨-, text, hwide, hmin, hread, rfl⟩
      refine ⟨text, (readUnits_eq_some_iff hlong hwide).mpr ((hwindow text).mpr hread), if_neg ?_⟩
      simp only [Bool.or_eq_true, decide_eq_true_eq, not_or, Bool.not_eq_true', Bool.not_eq_false, List.all_eq_true,
        Nat.not_lt]
      exact ⟨hmin, fun u hu => isPrintable_of_wide (hwide u hu)⟩
  · refine iff_of_false (fun hread => ?_) fun h => hin h.1
    rw [readPrintableUtf16le, sliceForVa_of_not_inFile hin] at hread
    cases hread

/-- A text of two bytes each begins with one printable byte. -/
theorem length_takeWhile_wide {u : Nat} {text : List Nat} (hu : isWidePrintable u = true)
    (h : wideBytes (u :: text) <+: bytesFrom p va) :
    (((bytesFrom p va).take 256).takeWhile isPrintable).length = 1 := by
  obtain ⟨rest, hrest⟩ := h
  rw [wideBytes_cons (isPrintable_of_wide hu)] at hrest
  rw [← hrest, List.cons_append, List.cons_append, List.take_succ_cons, List.take_succ_cons,
    List.takeWhile_cons_of_pos (isPrintable_of_wide hu), List.takeWhile_cons_of_neg (by decide)]
  rfl

theorem wide_begins {text bytes : List Nat} (h : text.length = 256 ∧ wideBytes text <+: bytes ∨
    text.length < 256 ∧ wideBytes text ++ [0, 0] <+: bytes) : wideBytes text <+: bytes := by
  rcases h with ⟨-, h⟩ | ⟨-, h⟩
  · exact h
  · exact (List.prefix_append _ _).trans h

/-- The texts of an image end in their section unless one crosses its end. -/
theorem inside_iff : (∀ r, tryReadStringAtVa p va minLen = some r → r.Inside p va) ↔ ¬ CrossesEnd p va minLen := by
  have hstart : ((bytesFrom p va).take 256).takeWhile isPrintable <+: bytesFrom p va :=
    (List.takeWhile_prefix _).trans (List.take_prefix _ _)
  constructor
  · rintro hinside (⟨hin, text, htext, hprintable, hlong, hmin, hmax⟩ | ⟨hin, htwo, text, hwide, hlong, hmin, hread⟩)
    · have hrun := length_takeWhile_le (List.prefix_take_iff.mpr ⟨htext, hmax⟩) hprintable
      have hle := (inside_ascii_iff hstart).mp (hinside _ (by
        rw [tryReadStringAtVa, readPrintableAsciiz_eq hin, if_neg (by omega)]))
      omega
    · have htext := wide_begins hread
      obtain ⟨u, rest, rfl⟩ := List.exists_cons_of_length_pos (show 0 < text.length by omega)
      have hnone : readPrintableAsciiz p va 256 minLen = none := by
        rw [readPrintableAsciiz_eq (hin.le (by decide)), length_takeWhile_wide (hwide u List.mem_cons_self) htext,
          if_pos (by omega)]
      have hsome := readPrintableUtf16le_eq_some.mpr ⟨hin, u :: rest, hwide, hmin, hread, rfl⟩
      have hle := (inside_wide_iff htext).mp (hinside _ (by rw [tryReadStringAtVa, hnone, hsome]; rfl))
      omega
  · intro hcross r hr
    by_cases hin : InFile p va 256
    · rw [tryReadStringAtVa, readPrintableAsciiz_eq hin] at hr
      split at hr
      · rename_i s hs
        split at hs
        · cases hs
        · rename_i hmin
          obtain rfl := Option.some.inj hs
          obtain rfl := Option.some.inj hr
          refine (inside_ascii_iff hstart).mpr (Nat.le_of_not_lt fun hlong => hcross (.inl ⟨hin, _, hstart, ?_, hlong, ?_, ?_⟩))
          · exact fun b hb => List.mem_takeWhile_imp hb
          · omega
          · exact (List.takeWhile_prefix _).length_le.trans (List.length_take_le _ _)
      · rename_i hs
        split at hs
        · rename_i hmin
          obtain ⟨s, hread, rfl⟩ := Option.map_eq_some_iff.mp hr
          obtain ⟨hwindow, text, hwide, hlength, htext, rfl⟩ := readPrintableUtf16le_eq_some.mp hread
          refine (inside_wide_iff (wide_begins htext)).mpr (Nat.le_of_not_lt fun hlong => hcross (.inr ⟨hwindow, ?_, text, hwide,
            hlong, hlength, htext⟩))
          obtain ⟨u, rest, rfl⟩ := List.exists_cons_of_length_pos (show 0 < text.length by omega)
          rw [length_takeWhile_wide (hwide u List.mem_cons_self) (wide_begins htext)] at hmin
          omega
        · cases hs
    · rw [tryReadStringAtVa_of_not_inFile hin] at hr
      cases hr

end Windows

/-- Texts are read exactly when the window of a text both images have is in both files, and
no printable bytes go on behind the section of either. -/
theorem texts_exact_iff (p q : Program) (va minLen : Nat) : TextsExact p q va minLen ↔
    (∀ text, HoldsText p va text → HoldsText q va text → minLen ≤ text.length → text.length ≤ 255 →
      InFile p va 256 ∧ InFile q va 256) ∧ ¬ CrossesEnd p va minLen ∧ ¬ CrossesEnd q va minLen := by
  constructor
  · intro h
    refine ⟨fun text hp hq hmin hmax => ?_, inside_iff.mp fun r => (h.inside r).1, inside_iff.mp fun r => (h.inside r).2⟩
    obtain ⟨hreadp, hreadq⟩ := h.same text hp hq hmin hmax
    exact ⟨(tryReadStringAtVa_of_holdsText hp hmin hmax).mp hreadp, (tryReadStringAtVa_of_holdsText hq hmin hmax).mp hreadq⟩
  · rintro ⟨hwindow, hp, hq⟩
    refine ⟨fun text htextp htextq hmin hmax => ?_, fun r => ⟨inside_iff.mpr hp r, inside_iff.mpr hq r⟩⟩
    obtain ⟨hinp, hinq⟩ := hwindow text htextp htextq hmin hmax
    exact ⟨(tryReadStringAtVa_of_holdsText htextp hmin hmax).mpr hinp,
      (tryReadStringAtVa_of_holdsText htextq hmin hmax).mpr hinq⟩

/-! ## A short file -/

/-- An image with one section of data, at the beginning of the file. -/
def dataImage (rawSize : Nat) (image : List Nat) : Program :=
  { project :=
      { symbols := ∅, comments := ⟨∅, ∅⟩, typedGlobals := ∅, functionSignatures := ∅, functionFrames := ∅
        functionMemory := ∅, aliasHistory := [], focus := none, opSeq := 0, functions := ∅ }
    functions := [], codeIndex := .ofList [], addressSpace := ⟨0, [⟨0x1000, 0x1000, 0, rawSize, 0x40000040⟩]⟩
    image := image, bitness := 64, xrefsTo := fun _ => [], sigDb := ⟨fun _ => none, fun _ => []⟩
    recoverSignature := fun _ => none, debugText := fun s => s }

/-- `b"name\0"` -/
def nameBytes : List Nat := [110, 97, 109, 101, 0]

/-- The same and as many bytes as the window has. -/
def paddedName : List Nat := nameBytes ++ List.replicate 251 0

theorem length_paddedName : paddedName.length = 256 := by
  rw [paddedName, List.length_append, List.length_replicate]
  rfl

theorem fileOffset_dataImage {rawSize : Nat} (h : 0 < rawSize) (image : List Nat) :
    fileOffset (dataImage rawSize image) 0x1000 = some 0 := by
  simp [fileOffset, dataImage, AddressSpace.sectionAtVa, Section.containsVa, Section.vaToOffset]
  omega

theorem bytesFrom_dataImage {rawSize : Nat} (h : 0 < rawSize) (image : List Nat) :
    bytesFrom (dataImage rawSize image) 0x1000 = image := by
  rw [bytesFrom, fileOffset_dataImage h]
  rfl

theorem holdsText_name {image : List Nat} (h : nameBytes <+: image) : HoldsText (dataImage 5 image) 0x1000 [110, 97, 109, 101] where
  bytes := by
    have hbytes : initializedBytes (dataImage 5 image) 0x1000 = image.take 5 := by
      rw [initializedBytes, bytesFrom_dataImage (by decide)]
      simp [offsetIn, dataImage, AddressSpace.sectionAtVa, Section.containsVa]
    rw [hbytes, List.prefix_take_iff]
    exact ⟨h, by decide⟩
  printable := by decide

/-- The text is not read where the file ends with it, and a text is read on into the bytes
that follow the section. -/
theorem texts_not_exact_name : ¬ TextsExact (dataImage 5 nameBytes) (dataImage 5 paddedName) 0x1000 4 ∧
    ¬ TextsExact (dataImage 5 paddedName) (dataImage 2 paddedName) 0x1000 4 := by
  have hpadded : nameBytes <+: paddedName := List.prefix_append _ _
  constructor
  · intro h
    have hin := (tryReadStringAtVa_of_holdsText (holdsText_name List.prefix_rfl) (by decide) (by decide)).mp
      (h.same _ (holdsText_name List.prefix_rfl) (holdsText_name hpadded) (by decide) (by decide)).1
    obtain ⟨offset, -, hlen⟩ := hin
    exact absurd (show offset + 256 ≤ 5 from hlen) (by omega)
  · intro h
    have hin : InFile (dataImage 2 paddedName) 0x1000 256 :=
      ⟨0, fileOffset_dataImage (by decide) _, by rw [show (dataImage 2 paddedName).image = paddedName from rfl, length_paddedName]⟩
    have hbytes : [110, 97, 109, 101] <+: bytesFrom (dataImage 2 paddedName) 0x1000 := by
      rw [bytesFrom_dataImage (by decide)]
      exact (show _ <+: nameBytes by decide).trans hpadded
    have hlong : remaining (dataImage 2 paddedName) 0x1000 < 4 := by
      simp [remaining, offsetIn, dataImage, AddressSpace.sectionAtVa, Section.containsVa]
    exact inside_iff.mp (fun r => (h.inside r).2) (.inl ⟨hin, _, hbytes, by decide, hlong, by decide, by decide⟩)

end Windy.Llm
