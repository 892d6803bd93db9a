import Windy.Lib.Lines
import Windy.Project.Persistence

/- The operation journal as bytes on disk (`Journal::append`, `Journal::read_all` in
   `project/op_log.rs`) and what a crash leaves of it.

   A record is appended as one line of JSON. An append interrupted by a crash leaves a prefix of its
   line; the next append goes right after those bytes. `read_all` stops at the first line it cannot
   decode or parse. So a torn line is harmless as a tail, but an append that completes behind one is
   glued to it and lost, with everything after it. `readAll_acknowledged` says that nothing
   acknowledged is lost as long as every append that reached its newline started on an empty file or
   right after a newline.

   `serde_json` is a parameter: `render` and `parse` with what the code relies on (`Serde.Renders`).
   Decoding a line is Lean's UTF-8 decoder.

   Correspondence:
     `Journal::append`, whole or torn ↔ `Append.write`
     `BufReader::lines` (one line) ↔ `chomp`, `decode`
     `Journal::read_all` ↔ the same -/
namespace Windy.Journal

/-- `serde_json::to_vec` and `serde_json::from_str` for journal records. -/
structure Serde where
  render : JournalRecord → String
  parse : String → Option JournalRecord

/-- A record written as JSON and read back. -/
def viaJson (r : JournalRecord) : JournalRecord := { r with op := r.op.viaJson }

def utf8 (text : String) : List UInt8 := text.toUTF8.data.toList

/-- `String::from_utf8`. -/
def decode (bytes : List UInt8) : Option String := String.fromUTF8? ⟨bytes.toArray⟩

theorem decode_utf8 (text : String) : decode (utf8 text) = some text := by
  simp only [decode, utf8, String.fromUTF8?]
  exact dif_pos text.isValidUTF8

/-- `char::is_whitespace`: the Unicode `White_Space` property. -/
def isWhitespace (c : Char) : Bool :=
  (9 ≤ c.toNat && c.toNat ≤ 13) || c.toNat == 32 || c.toNat == 0x85 || c.toNat == 0xA0 ||
    c.toNat == 0x1680 || (0x2000 ≤ c.toNat && c.toNat ≤ 0x200A) || c.toNat == 0x2028 ||
    c.toNat == 0x2029 || c.toNat == 0x202F || c.toNat == 0x205F || c.toNat == 0x3000

/-- `line.trim().is_empty()`. -/
def isBlank (line : String) : Bool := line.toList.all isWhitespace

def newline : UInt8 := 10

def carriageReturn : UInt8 := 13

/-- The line `BufRead::lines` makes of what it read up to a newline: without
the newline, and without a carriage return before it. -/
def chomp (raw : List UInt8) : List UInt8 :=
  if raw.getLast? = some newline then
    if raw.dropLast.getLast? = some carriageReturn then raw.dropLast.dropLast else raw.dropLast
  else raw

/-- The loop of `read_all` over the lines of the file. -/
def readLoop (c : Serde) : List (List UInt8) → List JournalRecord
  | [] => []
  | raw :: rest =>
    match decode (chomp raw) with
    | none => []
    | some line =>
      if isBlank line then readLoop c rest
      else
        match c.parse line with
        | none => []
        | some record => record :: readLoop c rest

/-- `Journal::read_all`. -/
def readAll (c : Serde) (file : List UInt8) : List JournalRecord :=
  readLoop c (Lines.rawLines newline file)

/-- The bytes `append` writes for a record. -/
def recordLine (c : Serde) (r : JournalRecord) : List UInt8 := utf8 (c.render r) ++ [newline]

/-- One call of `append`: it returned `Ok`, or a crash let only the first
`written` bytes of the line reach the disk. -/
inductive Append where
  | completed (r : JournalRecord)
  | torn (r : JournalRecord) (written : Nat)

namespace Append

def record : Append → JournalRecord
  | completed r => r
  | torn r _ => r

/-- The file after the call. -/
def write (c : Serde) (file : List UInt8) : Append → List UInt8
  | completed r => file ++ recordLine c r
  | torn r written => file ++ (recordLine c r).take written

/-- Whether the whole line, newline included, reached the disk. -/
def whole (c : Serde) : Append → Bool
  | completed _ => true
  | torn r written => (recordLine c r).length ≤ written

end Append

/-- The file after a history of appends. -/
def fileAfter (c : Serde) (history : List Append) : List UInt8 := history.foldl (Append.write c) []

/-- The records whose append returned `Ok`. -/
def acknowledged (history : List Append) : List JournalRecord :=
  history.filterMap fun
    | .completed r => some r
    | .torn _ _ => none

/-- What the code relies on for one record: its JSON is one nonblank line that
parses back. -/
structure Serde.Renders (c : Serde) (r : JournalRecord) : Prop where
  oneLine : newline ∉ utf8 (c.render r)
  noReturn : (utf8 (c.render r)).getLast? ≠ some carriageReturn
  nonblank : isBlank (c.render r) = false
  parses : c.parse (c.render r) = some (viaJson r)

/-- Every append whose newline reached the disk started on an empty file or
right after a newline. -/
def LinesStartClean (c : Serde) (history : List Append) : Prop :=
  ∀ pre e post, history = pre ++ e :: post → e.whole c = true →
    fileAfter c pre = [] ∨ (fileAfter c pre).getLast? = some newline

/-! ## Reading whole lines -/

section Reading
variable {c : Serde}

theorem chomp_recordLine {r : JournalRecord} (h : c.Renders r) :
    chomp (recordLine c r) = utf8 (c.render r) := by
  simp [chomp, recordLine, h.noReturn]

/-- A whole line is read as its record. -/
theorem readLoop_recordLine {r : JournalRecord} (h : c.Renders r) (rest : List (List UInt8)) :
    readLoop c (recordLine c r :: rest) = viaJson r :: readLoop c rest := by
  simp [readLoop, chomp_recordLine h, decode_utf8, h.nonblank, h.parses]

theorem readLoop_recordLines {rs : List JournalRecord} (h : ∀ r ∈ rs, c.Renders r)
    (rest : List (List UInt8)) :
    readLoop c (rs.map (recordLine c) ++ rest) = rs.map viaJson ++ readLoop c rest := by
  induction rs with
  | nil => rfl
  | cons r rs ih =>
    have hr := h r List.mem_cons_self
    have hrs : ∀ x ∈ rs, c.Renders x := fun x hx => h x (List.mem_cons_of_mem r hx)
    rw [List.map_cons, List.cons_append, readLoop_recordLine hr, ih hrs]
    rfl

/-- A file of whole lines and a tail: the lines are read back first. -/
theorem readAll_lines {rs : List JournalRecord} (h : ∀ r ∈ rs, c.Renders r) (tail : List UInt8) :
    readAll c (rs.flatMap (recordLine c) ++ tail) =
      rs.map viaJson ++ readLoop c (Lines.rawLines newline tail) := by
  have hsep : ∀ l ∈ rs.map (fun r => utf8 (c.render r)), newline ∉ l := by
    intro l hl
    obtain ⟨r, hr, rfl⟩ := List.mem_map.mp hl
    exact (h r hr).oneLine
  have hsplit := Lines.rawLines_terminated hsep tail
  rw [List.flatMap_map, List.map_map] at hsplit
  calc readAll c (rs.flatMap (recordLine c) ++ tail)
      = readLoop c (rs.map (recordLine c) ++ Lines.rawLines newline tail) := congrArg (readLoop c) hsplit
    _ = rs.map viaJson ++ readLoop c (Lines.rawLines newline tail) := readLoop_recordLines h _

end Reading

/-! ## Histories -/

section Histories
variable {c : Serde}

theorem fileAfter_snoc (history : List Append) (e : Append) :
    fileAfter c (history ++ [e]) = e.write c (fileAfter c history) := by
  simp [fileAfter]

/-- The file is whole lines and a tail without a newline; the acknowledged
records are among the lines, in order. -/
theorem fileAfter_lines {history : List Append} (hserde : ∀ e ∈ history, c.Renders e.record)
    (hclean : LinesStartClean c history) :
    ∃ rs tail, fileAfter c history = rs.flatMap (recordLine c) ++ tail ∧ newline ∉ tail ∧
      (∀ r ∈ rs, c.Renders r) ∧ (acknowledged history).Sublist rs := by
  induction history using List.reverseRecOn with
  | nil => exact ⟨[], [], rfl, by simp, by simp, List.Sublist.refl _⟩
  | append_singleton history e ih =>
    obtain ⟨rs, tail, hfile, htail, hrs, hack⟩ := ih
      (fun x hx => hserde x (List.mem_append_left _ hx))
      (fun pre x post heq => hclean pre x (post ++ [e]) (by rw [heq]; simp))
    have he : c.Renders e.record := hserde e (by simp)
    rw [fileAfter_snoc, hfile]
    by_cases hwhole : e.whole c = true
    · -- A whole line starts where a line starts, so there was no tail.
      have hnil : tail = [] := by
        by_contra hne
        rcases hclean history e [] rfl hwhole with h | h
        · rw [hfile] at h
          exact hne (List.append_eq_nil_iff.mp h).2
        · rw [hfile, List.getLast?_append_of_ne_nil _ hne] at h
          exact htail (List.mem_of_getLast? h)
      subst hnil
      have hwrite : e.write c (rs.flatMap (recordLine c) ++ []) =
          (rs ++ [e.record]).flatMap (recordLine c) ++ [] := by
        cases e with
        | completed r => simp [Append.write, Append.record]
        | torn r written =>
          have hlen : (recordLine c r).length ≤ written := by simpa [Append.whole] using hwhole
          simp [Append.write, Append.record, List.take_of_length_le hlen]
      refine ⟨rs ++ [e.record], [], hwrite, by simp, ?_, ?_⟩
      · intro r hr
        rcases List.mem_append.mp hr with hr | hr
        · exact hrs r hr
        · rw [List.mem_singleton.mp hr]; exact he
      · cases e with
        | completed r =>
          have hsnoc : acknowledged (history ++ [.completed r]) = acknowledged history ++ [r] := by
            simp [acknowledged]
          rw [hsnoc]
          exact hack.append (List.Sublist.refl _)
        | torn r written =>
          have hsame : acknowledged (history ++ [.torn r written]) = acknowledged history := by
            simp [acknowledged]
          rw [hsame]
          exact hack.trans (List.sublist_append_left rs _)
    · -- A torn line adds to the tail and acknowledges nothing.
      cases e with
      | completed r => exact absurd rfl hwhole
      | torn r written =>
        have hlt : written < (recordLine c r).length := by
          simpa [Append.whole] using hwhole
        have htake : (recordLine c r).take written = (utf8 (c.render r)).take written := by
          have hle : written ≤ (utf8 (c.render r)).length := by
            simp [recordLine] at hlt
            omega
          rw [recordLine, List.take_append_of_le_length hle]
        refine ⟨rs, tail ++ (utf8 (c.render r)).take written, ?_, ?_, hrs, ?_⟩
        · simp [Append.write, htake]
        · intro hmem
          rcases List.mem_append.mp hmem with h | h
          · exact htail h
          · exact he.oneLine (List.mem_of_mem_take h)
        · have hsame : acknowledged (history ++ [.torn r written]) = acknowledged history := by
            simp [acknowledged]
          rw [hsame]
          exact hack

/-- Every acknowledged record is read back, in order, as long as every line
starts clean. -/
theorem readAll_acknowledged (c : Serde) (history : List Append)
    (hserde : ∀ e ∈ history, c.Renders e.record) (hclean : LinesStartClean c history) :
    ((acknowledged history).map viaJson).Sublist (readAll c (fileAfter c history)) := by
  obtain ⟨rs, tail, hfile, -, hrs, hack⟩ := fileAfter_lines hserde hclean
  rw [hfile, readAll_lines hrs]
  exact (hack.map viaJson).trans (List.sublist_append_left _ _)

end Histories

/-- The record of a focus change, and its JSON. -/
def focusRecord (seq : Nat) : JournalRecord := { seq := seq, op := .setFocus 4096 none }

def focusText (seq : Nat) : String :=
  "\x7b\"seq\":" ++ toString seq ++ ",\"op\":\x7b\"op\":\"set_focus\",\"va\":4096\x7d\x7d"

/-- `serde_json` on the lines that two focus records can leave behind. -/
def focusSerde : Serde where
  render r := focusText r.seq
  parse line :=
    if line = focusText 1 then some (focusRecord 1)
    else if line = focusText 2 then some (focusRecord 2)
    else none

/-- A torn append, and nothing after it: the record before it is read back. -/
theorem readAll_torn_tail :
    [viaJson (focusRecord 1)].Sublist
      (readAll focusSerde (fileAfter focusSerde [.completed (focusRecord 1), .torn (focusRecord 2) 9])) := by
  refine readAll_acknowledged focusSerde [.completed (focusRecord 1), .torn (focusRecord 2) 9] ?_ ?_
  · intro e he
    rcases List.mem_pair.mp he with rfl | rfl
    · exact ⟨by decide +kernel, by decide +kernel, by decide +kernel, by rfl⟩
    · exact ⟨by decide +kernel, by decide +kernel, by decide +kernel, by rfl⟩
  · intro pre e post heq hwhole
    match pre, heq with
    | [], _ => exact Or.inl rfl
    | [x], heq =>
      obtain ⟨rfl, hrest⟩ := List.cons.inj heq
      exact Or.inr (by decide +kernel)
    | _ :: _ :: [], heq => simp at heq

/-- A crash that loses only the newline: the record appended after it was
acknowledged and is not read back. -/
theorem readAll_glued_line :
    acknowledged [.torn (focusRecord 1) (utf8 (focusText 1)).length, .completed (focusRecord 2)] =
      [focusRecord 2] ∧
    readAll focusSerde (fileAfter focusSerde
      [.torn (focusRecord 1) (utf8 (focusText 1)).length, .completed (focusRecord 2)]) = [] := by
  refine ⟨rfl, ?_⟩
  have hempty : (readAll focusSerde (fileAfter focusSerde
      [.torn (focusRecord 1) (utf8 (focusText 1)).length, .completed (focusRecord 2)])).isEmpty = true := by
    decide +kernel
  exact List.isEmpty_iff.mp hempty

end Windy.Journal
