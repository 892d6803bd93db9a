import Windy.Bel.Cursor
import Windy.Lib.Fields
import Windy.Lib.PathName
import Windy.Loader.DebugDir

/- Where symbol files are kept (`project/symsrv.rs`).

   The file of a CodeView record is at `<name>/<guid><age>/<name>` below the directory of the cache,
   and is asked for under the same names, percent-encoded. The name is the last component of the
   name in the image. Where there is none, as in `..`, it is the whole name of the image.

   What is proved: the file is three names below the directory, records with different names, GUIDs
   or ages have different files, and decoding gives an encoded name back, exactly when the names in
   the images end with a name and the encoded one has no space (`cached_iff`).

   Correspondence:
     `CodeViewRecord::pdb_basename`, `guid_age` ↔ the same
     `guid.simple()` ↔ `simple`
     `SymbolServer::pdb_path`, `percent_encode` ↔ the same
   Paths are those of Unix (`PathName`). -/
namespace Windy.Symsrv
open DebugDir (Uuid CodeViewRecord parsePdb70AtOffset)
open PathName (Component IsName components join fileName)

/-! ## Paths and names -/

def simple (guid : Uuid) : List Char :=
  Bel.padHex 8 guid.d1 ++ Bel.padHex 4 guid.d2 ++ Bel.padHex 4 guid.d3 ++ guid.d4.flatMap fun b => Bel.padHex 2 b.toNat

def guidAge (rec : CodeViewRecord) : List Char := simple rec.guid ++ Nat.toDigits 10 rec.age

def pdbBasename (rec : CodeViewRecord) : List Char := (fileName rec.pdbName).getD rec.pdbName

def pdbPath (rec : CodeViewRecord) (base : List Char) : List Char :=
  join (join (join base (pdbBasename rec)) (guidAge rec)) (pdbBasename rec)

/-- `str::replace` of a character. -/
def replace (c : Char) (replacement text : List Char) : List Char := text.flatMap fun d => if d = c then replacement else [d]

def percentEncode (s : List Char) : List Char :=
  replace '\\' ['%', '5', 'C'] (replace '/' ['%', '2', 'F'] (replace '%' ['%', '2', '5'] (replace ' ' ['%', '2', '0'] s)))

/-! ## What they should do -/

/-- The value of a hexadecimal digit in a byte. -/
def fromHex (b : Nat) : Option Nat :=
  if 0x30 ≤ b ∧ b ≤ 0x39 then some (b - 0x30)
  else if 0x41 ≤ b ∧ b ≤ 0x46 then some (b - 0x37)
  else if 0x61 ≤ b ∧ b ≤ 0x66 then some (b - 0x57)
  else none

/-- Bytes with `%` and two digits for one of them. -/
def percentDecode : List Nat → List Nat
  | b :: high :: low :: rest =>
    if b = 0x25 then
      match fromHex high, fromHex low with
      | some h, some l => (16 * h + l) :: percentDecode rest
      | _, _ => b :: percentDecode (high :: low :: rest)
    else b :: percentDecode (high :: low :: rest)
  | rest => rest

/-- The path is three names below the directory. -/
def Below (base path : List Char) : Prop :=
  ∃ a b c, components path = components base ++ [.normal a, .normal b, .normal c]

/-- The record is read from some image. -/
def Parsed (rec : CodeViewRecord) : Prop := ∃ image offset size, parsePdb70AtOffset image offset size = some rec

/-- The files of two records in a directory, and a name that is asked for. -/
structure Cached (base : List Char) (rec rec' : CodeViewRecord) (s : List Char) : Prop where
  below : Below base (pdbPath rec base) ∧ Below base (pdbPath rec' base)
  distinct : (pdbBasename rec, rec.guid, rec.age) ≠ (pdbBasename rec', rec'.guid, rec'.age) →
    components (pdbPath rec base) ≠ components (pdbPath rec' base)
  decodes : percentDecode (Bel.asBytes (percentEncode s)) = Bel.asBytes s

/-! ## GUIDs and ages -/

section Keys

theorem padHex_inj {width m n : Nat} (h : Bel.padHex width m = Bel.padHex width n) : m = n := by
  have hm := Bel.foldlM_padHex width m
  rw [h, Bel.foldlM_padHex] at hm
  exact (Option.some.inj hm).symm

theorem length_padHex {width n : Nat} (hpos : 0 < width) (h : n < 16 ^ width) : (Bel.padHex width n).length = width := by
  have hle := Nat.toDigits_length 16 n width hpos h
  rw [Bel.padHex, List.length_append, List.length_replicate]
  omega

/-- The fields have the width of their types. -/
structure Sized (guid : Uuid) : Prop where
  d1 : guid.d1 < 16 ^ 8
  d2 : guid.d2 < 16 ^ 4
  d3 : guid.d3 < 16 ^ 4
  d4 : guid.d4.length = 8

theorem length_hexBytes (bytes : List UInt8) : (bytes.flatMap fun b => Bel.padHex 2 b.toNat).length = 2 * bytes.length := by
  induction bytes with
  | nil => rfl
  | cons b bytes ih =>
    rw [List.flatMap_cons, List.length_append, ih, length_padHex (by decide) b.toNat_lt, List.length_cons]
    omega

theorem hexBytes_inj {bytes bytes' : List UInt8} (hlength : bytes.length = bytes'.length)
    (h : (bytes.flatMap fun b => Bel.padHex 2 b.toNat) = bytes'.flatMap fun b => Bel.padHex 2 b.toNat) : bytes = bytes' := by
  induction bytes generalizing bytes' with
  | nil => exact (List.eq_nil_of_length_eq_zero hlength.symm).symm
  | cons b bytes ih =>
    cases bytes' with
    | nil => cases hlength
    | cons b' bytes' =>
      rw [List.flatMap_cons, List.flatMap_cons] at h
      obtain ⟨hb, hrest⟩ := List.append_inj h (by
        rw [length_padHex (by decide) b.toNat_lt, length_padHex (by decide) b'.toNat_lt])
      rw [UInt8.toNat_inj.mp (padHex_inj hb), ih (Nat.succ.inj hlength) hrest]

theorem length_simple {guid : Uuid} (h : Sized guid) : (simple guid).length = 32 := by
  simp only [simple, List.length_append, length_hexBytes, length_padHex (show 0 < 8 by decide) h.d1,
    length_padHex (show 0 < 4 by decide) h.d2, length_padHex (show 0 < 4 by decide) h.d3, h.d4]

theorem simple_inj {guid guid' : Uuid} (h : Sized guid) (h' : Sized guid') (heq : simple guid = simple guid') : guid = guid' := by
  obtain ⟨d1, d2, d3, d4⟩ := guid
  obtain ⟨e1, e2, e3, e4⟩ := guid'
  have hlength : ∀ {width m n : Nat}, 0 < width → m < 16 ^ width → n < 16 ^ width →
      (Bel.padHex width m).length = (Bel.padHex width n).length := by
    intro width m n hpos hm hn
    rw [length_padHex hpos hm, length_padHex hpos hn]
  simp only [simple, List.append_assoc] at heq
  obtain ⟨h1, heq⟩ := List.append_inj heq (hlength (by decide) h.d1 h'.d1)
  obtain ⟨h2, heq⟩ := List.append_inj heq (hlength (by decide) h.d2 h'.d2)
  obtain ⟨h3, h4⟩ := List.append_inj heq (hlength (by decide) h.d3 h'.d3)
  obtain rfl : d4 = e4 := hexBytes_inj (h.d4.trans h'.d4.symm) h4
  rw [padHex_inj h1, padHex_inj h2, padHex_inj h3]

theorem guidAge_inj {rec rec' : CodeViewRecord} (h : Sized rec.guid) (h' : Sized rec'.guid) (heq : guidAge rec = guidAge rec') :
    rec.guid = rec'.guid ∧ rec.age = rec'.age := by
  obtain ⟨hguid, hage⟩ := List.append_inj heq (by rw [length_simple h, length_simple h'])
  exact ⟨simple_inj h h' hguid, Fields.toDigits_inj (by decide) (by decide) hage⟩

theorem sized_of_parsed {rec : CodeViewRecord} (h : Parsed rec) : Sized rec.guid := by
  obtain ⟨image, offset, size, h⟩ := h
  unfold parsePdb70AtOffset at h
  split at h
  · cases h
  · next hsize =>
    obtain ⟨record, hrecord, h⟩ := Option.bind_eq_some_iff.mp h
    split at h
    · cases h
    · obtain ⟨d1, hd1, h⟩ := Option.bind_eq_some_iff.mp h
      obtain ⟨d2, hd2, h⟩ := Option.bind_eq_some_iff.mp h
      obtain ⟨d3, hd3, h⟩ := Option.bind_eq_some_iff.mp h
      obtain ⟨age, hage, h⟩ := Option.bind_eq_some_iff.mp h
      by_cases hname : Utf8.fromUtf8Lossy ((record.drop 24).takeWhile (· != 0)) = []
      · simp [hname] at h
      · simp only [hname, if_false] at h
        obtain rfl := Option.some.inj h
        refine ⟨Bytes.numberAt_lt hd1, Bytes.numberAt_lt hd2, Bytes.numberAt_lt hd3, ?_⟩
        have hlong : 24 ≤ record.length := by
          have hsome := Bytes.numberAt_isSome.mp (Option.isSome_of_mem hage)
          omega
        simp only [List.length_drop, List.length_take]
        omega

end Keys

/-! ## The path of a file -/

section Paths
variable {base : List Char} {rec rec' : CodeViewRecord}

theorem simple_ne_nil (guid : Uuid) : simple guid ≠ [] := by
  simp [simple, Bel.padHex_ne_nil]

/-- Neither digits in hexadecimal nor decimal ones have a separator or a dot. -/
theorem not_special_of_mem_guidAge {c : Char} (h : c ∈ guidAge rec) : c ≠ '/' ∧ c ≠ '.' := by
  have hhex : ∀ {width n : Nat}, c ∈ Bel.padHex width n → c ≠ '/' ∧ c ≠ '.' := by
    intro width n hmem
    have hdigit := Bel.toDigit_of_foldlM (Bel.foldlM_padHex width n) c hmem
    constructor <;> rintro rfl <;> exact absurd (by decide) hdigit
  simp only [guidAge, simple, List.mem_append, List.mem_flatMap] at h
  rcases h with (((h | h) | h) | ⟨b, -, h⟩) | h
  · exact hhex h
  · exact hhex h
  · exact hhex h
  · exact hhex h
  · have hdigit := Nat.isDigit_of_mem_toDigits (by decide) (by decide) h
    constructor <;> rintro rfl <;> exact absurd hdigit (by decide)

theorem isName_guidAge (rec : CodeViewRecord) : IsName (guidAge rec) := by
  refine ⟨fun h => (not_special_of_mem_guidAge h).1 rfl, ?_⟩
  obtain ⟨c, rest, heq⟩ := List.exists_cons_of_ne_nil (List.append_ne_nil_of_left_ne_nil (simple_ne_nil rec.guid)
    (Nat.toDigits 10 rec.age))
  have hc := (@not_special_of_mem_guidAge rec c (by rw [guidAge, heq]; exact List.mem_cons_self)).2
  rw [guidAge, heq, PathName.part]
  · rintro h
    cases h
  · rintro h
    exact hc (List.cons.inj h).1
  · rintro h
    exact hc (List.cons.inj h).1

/-- The record has a name to be kept under. -/
theorem components_pdbPath {name : List Char} (h : fileName rec.pdbName = some name) :
    components (pdbPath rec base) = components base ++ [.normal name, .normal (guidAge rec), .normal name] := by
  have hname := PathName.isName_of_fileName h
  rw [pdbPath, pdbBasename, h, Option.getD_some, PathName.components_join_name _ hname,
    PathName.components_join_name _ (isName_guidAge rec), PathName.components_join_name _ hname]
  simp

/-- The last component of a joined path is that of what is joined, if it has any. -/
theorem not_below_of_fileName (h : fileName rec.pdbName = none) : ¬ Below base (pdbPath rec base) := by
  rintro ⟨a, b, c, hbelow⟩
  have hlast : (components (pdbPath rec base)).getLast? = some (.normal c) := by simp [hbelow]
  have hno : ∀ c, (components rec.pdbName).getLast? ≠ some (.normal c) := by
    intro c hc
    rw [PathName.fileName_eq_some.mpr hc] at h
    cases h
  rw [pdbPath, pdbBasename, h, Option.getD_none] at hlast hbelow
  by_cases habs : PathName.isAbsolute rec.pdbName = true
  · rw [join, if_pos habs] at hlast
    exact hno c hlast
  · have hrel : PathName.isAbsolute rec.pdbName = false := by simpa using habs
    have hne : join (join base rec.pdbName) (guidAge rec) ≠ [] := PathName.join_ne_nil (isName_guidAge rec).ne_nil
    rw [PathName.components_join hne hrel] at hlast hbelow
    by_cases hparts : PathName.parts rec.pdbName = []
    · -- Nothing but dots: the directory of the GUID is all there is.
      have hlead : ∀ path, (PathName.lead path).length ≤ 1 := by
        intro path
        rw [PathName.lead]
        split
        · exact Nat.le_refl 1
        · split
          · exact Nat.le_refl 1
          · exact Nat.zero_le 1
      rw [hparts, List.append_nil, PathName.components_join_name _ (isName_guidAge rec)] at hbelow
      have hlength := congrArg List.length hbelow
      simp only [List.length_append, List.length_cons, List.length_nil] at hlength
      by_cases hbase : base = []
      · subst hbase
        rw [join, hrel, if_neg Bool.false_ne_true, List.getLast?_nil, Option.any_none, if_neg Bool.false_ne_true,
          List.nil_append, components, hparts, List.append_nil] at hlength
        have hle := hlead rec.pdbName
        omega
      · rw [PathName.components_join hbase hrel, hparts, List.append_nil] at hlength
        omega
    · rw [List.getLast?_append_of_ne_nil _ hparts] at hlast
      exact hno c (by rw [components, List.getLast?_append_of_ne_nil _ hparts, hlast])

theorem below_iff : Below base (pdbPath rec base) ↔ fileName rec.pdbName ≠ none := by
  constructor
  · intro h hnone
    exact not_below_of_fileName hnone h
  · intro h
    obtain ⟨name, hname⟩ := Option.ne_none_iff_exists'.mp h
    exact ⟨_, _, _, components_pdbPath hname⟩

theorem distinct_of_fileName (hrec : Parsed rec) (hrec' : Parsed rec') (h : fileName rec.pdbName ≠ none)
    (h' : fileName rec'.pdbName ≠ none)
    (hne : (pdbBasename rec, rec.guid, rec.age) ≠ (pdbBasename rec', rec'.guid, rec'.age)) :
    components (pdbPath rec base) ≠ components (pdbPath rec' base) := by
  obtain ⟨name, hname⟩ := Option.ne_none_iff_exists'.mp h
  obtain ⟨name', hname'⟩ := Option.ne_none_iff_exists'.mp h'
  intro heq
  rw [components_pdbPath hname, components_pdbPath hname', List.append_cancel_left_eq] at heq
  simp only [List.cons.injEq, Component.normal.injEq, and_true] at heq
  obtain ⟨hguid, hage⟩ := guidAge_inj (sized_of_parsed hrec) (sized_of_parsed hrec') heq.2.1
  exact hne (by rw [pdbBasename, pdbBasename, hname, hname', Option.getD_some, Option.getD_some, heq.1, hguid, hage])

end Paths

/-! ## Encoded names -/

section Encoding

/-- What a character is encoded as: a space twice. -/
def encoded (c : Char) : List Char :=
  if c = ' ' then ['%', '2', '5', '2', '0']
  else if c = '%' then ['%', '2', '5']
  else if c = '/' then ['%', '2', 'F']
  else if c = '\\' then ['%', '5', 'C']
  else [c]

/-- What is decoded from it. -/
def readBack (c : Char) : List Nat := if c = ' ' then [0x25, 0x32, 0x30] else Bel.encodeChar c

theorem percentEncode_eq (s : List Char) : percentEncode s = s.flatMap encoded := by
  simp only [percentEncode, replace, List.flatMap_assoc]
  refine List.flatMap_congr fun c _ => ?_
  by_cases hspace : c = ' '
  · subst hspace
    rfl
  · by_cases hpercent : c = '%'
    · subst hpercent
      rfl
    · by_cases hslash : c = '/'
      · subst hslash
        rfl
      · by_cases hback : c = '\\'
        · subst hback
          rfl
        · simp [encoded, hspace, hpercent, hslash, hback]

theorem percentDecode_cons {b : Nat} (h : b ≠ 0x25) (rest : List Nat) : percentDecode (b :: rest) = b :: percentDecode rest := by
  cases rest with
  | nil => rfl
  | cons high rest =>
    cases rest with
    | nil => rfl
    | cons low rest => rw [percentDecode, if_neg h]

theorem percentDecode_append {bytes : List Nat} (h : 0x25 ∉ bytes) (rest : List Nat) :
    percentDecode (bytes ++ rest) = bytes ++ percentDecode rest := by
  induction bytes with
  | nil => rfl
  | cons b bytes ih =>
    rw [List.cons_append, percentDecode_cons (fun hb => h (hb ▸ List.mem_cons_self)),
      ih fun hmem => h (List.mem_cons_of_mem _ hmem), List.cons_append]

theorem notMem_encodeChar {c : Char} (h : c ≠ '%') : 0x25 ∉ Bel.encodeChar c := by
  intro hmem
  simp only [Bel.encodeChar] at hmem
  split at hmem
  · rw [List.mem_singleton] at hmem
    exact h (Char.toNat_inj.mp hmem.symm)
  · split at hmem
    · simp only [List.mem_cons, List.not_mem_nil, or_false] at hmem
      omega
    · split at hmem <;>
      · simp only [List.mem_cons, List.not_mem_nil, or_false] at hmem
        omega

theorem percentDecode_encoded (c : Char) (rest : List Nat) :
    percentDecode (Bel.asBytes (encoded c) ++ rest) = readBack c ++ percentDecode rest := by
  by_cases hspace : c = ' '
  · subst hspace
    change percentDecode (0x25 :: 0x32 :: 0x35 :: 0x32 :: 0x30 :: rest) = _
    rw [percentDecode, if_pos rfl]
    change 0x25 :: percentDecode (0x32 :: 0x30 :: rest) = _
    rw [percentDecode_cons (by decide), percentDecode_cons (by decide)]
    rfl
  · by_cases hpercent : c = '%'
    · subst hpercent
      rfl
    · by_cases hslash : c = '/'
      · subst hslash
        rfl
      · by_cases hback : c = '\\'
        · subst hback
          rfl
        · rw [encoded, if_neg hspace, if_neg hpercent, if_neg hslash, if_neg hback, Bel.asBytes, List.flatMap_singleton,
            percentDecode_append (notMem_encodeChar hpercent), readBack, if_neg hspace]

theorem percentDecode_percentEncode (s : List Char) : percentDecode (Bel.asBytes (percentEncode s)) = s.flatMap readBack := by
  rw [percentEncode_eq]
  induction s with
  | nil => rfl
  | cons c s ih =>
    rw [List.flatMap_cons, Bel.asBytes, List.flatMap_append, ← Bel.asBytes, ← Bel.asBytes, percentDecode_encoded, ih,
      List.flatMap_cons]

theorem length_le_readBack (s : List Char) : (Bel.asBytes s).length ≤ (s.flatMap readBack).length := by
  induction s with
  | nil => exact Nat.le_refl 0
  | cons c s ih =>
    have hc : (Bel.encodeChar c).length ≤ (readBack c).length := by
      rw [readBack]
      split
      · next h => subst h; decide
      · exact Nat.le_refl _
    rw [Bel.asBytes, List.flatMap_cons, ← Bel.asBytes, List.flatMap_cons, List.length_append, List.length_append]
    omega

theorem decodes_iff (s : List Char) : percentDecode (Bel.asBytes (percentEncode s)) = Bel.asBytes s ↔ ' ' ∉ s := by
  rw [percentDecode_percentEncode]
  constructor
  · intro h hmem
    obtain ⟨before, after, rfl⟩ := List.append_of_mem hmem
    have hbefore := length_le_readBack before
    have hafter := length_le_readBack after
    have hlength := congrArg List.length h
    simp only [Bel.asBytes, List.flatMap_append, List.flatMap_cons, List.length_append,
      show (readBack ' ').length = 3 from rfl, show (Bel.encodeChar ' ').length = 1 from rfl] at hlength hbefore hafter
    omega
  · intro h
    refine List.flatMap_congr fun c hc => ?_
    rw [readBack, if_neg]
    rintro rfl
    exact h hc

end Encoding

theorem cached_iff (base : List Char) {rec rec' : CodeViewRecord} (hrec : Parsed rec) (hrec' : Parsed rec') (s : List Char) :
    Cached base rec rec' s ↔ fileName rec.pdbName ≠ none ∧ fileName rec'.pdbName ≠ none ∧ ' ' ∉ s := by
  constructor
  · intro h
    exact ⟨below_iff.mp h.below.1, below_iff.mp h.below.2, (decodes_iff s).mp h.decodes⟩
  · rintro ⟨hname, hname', hspace⟩
    exact ⟨⟨below_iff.mpr hname, below_iff.mpr hname'⟩, distinct_of_fileName hrec hrec' hname hname', (decodes_iff s).mpr hspace⟩

/-! ## A name that is not one -/

/-- A record with the name. -/
def namedRecord (name : List Char) : CodeViewRecord := ⟨⟨0, 0, 0, List.replicate 8 0⟩, 1, name⟩

theorem parsed_namedRecord : Parsed (namedRecord ['.', '.']) ∧ Parsed (namedRecord ['a', '.', 'p', 'd', 'b']) :=
  ⟨⟨DebugDir.rsds ++ List.replicate 16 0 ++ [1, 0, 0, 0] ++ [0x2E, 0x2E, 0], 0, 27, by decide⟩,
    ⟨DebugDir.rsds ++ List.replicate 16 0 ++ [1, 0, 0, 0] ++ [0x61, 0x2E, 0x70, 0x64, 0x62, 0], 0, 30, by decide⟩⟩

theorem cached_iff_named :
    Cached ['c'] (namedRecord ['a', '.', 'p', 'd', 'b']) (namedRecord ['a', '.', 'p', 'd', 'b']) ['/', '%'] :=
  (cached_iff ['c'] parsed_namedRecord.2 parsed_namedRecord.2 ['/', '%']).mpr (by decide)

/-- The file of a record without a name is outside of its directories, and a space is
encoded twice. -/
theorem not_cached_dots : (Parsed (namedRecord ['.', '.']) ∧ ¬ Below ['c'] (pdbPath (namedRecord ['.', '.']) ['c'])) ∧
    percentDecode (Bel.asBytes (percentEncode [' '])) ≠ Bel.asBytes [' '] :=
  ⟨⟨parsed_namedRecord.1, not_below_of_fileName (by decide)⟩, by decide⟩

end Windy.Symsrv
