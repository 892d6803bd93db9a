import Windy.Bel.Fingerprint
import Windy.Bel.Lookup
import Windy.Bel.Reflect

/- The token postings of an index that was built (`insert_instruction_tokens` and
   `add_instructions` in `analysis/bel/mod.rs`).

   The builder lists each instruction under the tokens of its text, and with it the
   function it lies in. The function is found by its range; a search and the oracle find
   it by the address the instruction carries. Both are the same function, as a range
   names an entity that is entered under its own address.

   What is proved:
     `tokensOf_normalize`: the tokens of a text in lower case are its tokens in lower case;
     `tokened_build`: under a token the index lists the instructions that have it and the
       functions that contain one, and nothing else. -/
namespace Windy.Bel

/-! ## Tokens -/

/-- What ends a token. -/
def endsToken (c : Char) : Bool := !c.isAlphanum && c ≠ '_'

theorem isAlphanum_iff (c : Char) : c.isAlphanum = true ↔
    (65 ≤ c.toNat ∧ c.toNat ≤ 90) ∨ (97 ≤ c.toNat ∧ c.toNat ≤ 122) ∨ (48 ≤ c.toNat ∧ c.toNat ≤ 57) := by
  simp [Char.isAlphanum, Char.isAlpha, Char.isUpper, Char.isLower, Char.isDigit, UInt32.le_iff_toNat_le, or_assoc]

theorem endsToken_toLower (c : Char) : endsToken c.toLower = endsToken c := by
  have hunderscore : c.toLower = '_' ↔ c = '_' := toLower_eq_iff (by decide)
  have halphanum : c.toLower.isAlphanum = c.isAlphanum := by
    rw [Bool.eq_iff_iff, isAlphanum_iff, isAlphanum_iff, toNat_toLower]
    split <;> omega
  unfold endsToken
  rw [halphanum, decide_eq_decide.mpr (not_congr hunderscore)]

theorem splitOnP_map {α : Type} (sep : α → Bool) (f : α → α) (hf : ∀ x, sep (f x) = sep x) (xs : List α) :
    (xs.map f).splitOnP sep = (xs.splitOnP sep).map (List.map f) := by
  induction xs with
  | nil => rfl
  | cons x xs ih =>
    rw [List.map_cons, List.splitOnP_cons_eq_if_modifyHead, List.splitOnP_cons_eq_if_modifyHead, hf, ih]
    split
    · rfl
    · cases xs.splitOnP sep with
      | nil => rfl
      | cons token tokens => rfl

theorem tokensOf_normalize (text : Text) : tokensOf (normalizeAscii text) = (tokensOf text).map normalizeAscii :=
  splitOnP_map endsToken Char.toLower endsToken_toLower text

/-- The tokens a text is listed under. -/
theorem mem_listedTokens {token text : Text} : token ∈ ((tokensOf text).filter (· ≠ [])).map normalizeAscii ↔
    token ≠ [] ∧ token ∈ tokensOf (normalizeAscii text) := by
  rw [tokensOf_normalize, List.mem_map, List.mem_map]
  constructor
  · rintro ⟨raw, hraw, rfl⟩
    obtain ⟨hmem, hne⟩ := List.mem_filter.mp hraw
    refine ⟨?_, raw, hmem, rfl⟩
    simpa [normalizeAscii] using hne
  · rintro ⟨hne, raw, hmem, rfl⟩
    refine ⟨raw, List.mem_filter.mpr ⟨hmem, ?_⟩, rfl⟩
    simpa [normalizeAscii] using hne

/-- An instruction and its function are listed under the tokens of the text. -/
theorem listed_insertInstructionTokens {postings : Std.ExtTreeMap Text Ids} {text : Text} {id : Nat}
    {function : Option Nat} {token : Text} {other : Nat} :
    Listed (IndexBuilder.insertInstructionTokens postings text id function) token other ↔
      (token ≠ [] ∧ token ∈ tokensOf (normalizeAscii text) ∧ (other = id ∨ function = some other)) ∨
        Listed postings token other := by
  rw [← and_assoc, ← mem_listedTokens]
  unfold IndexBuilder.insertInstructionTokens
  induction ((tokensOf text).filter (· ≠ [])).map normalizeAscii generalizing postings with
  | nil => simp
  | cons first rest ih =>
    have hids : other ∈ id :: function.toList ↔ other = id ∨ function = some other := by
      rw [List.mem_cons, Option.mem_toList]
    rw [List.foldl_cons, ih, listed_foldl (fun _ => first) (fun id => id), List.mem_cons, or_and_right, ← hids,
      or_assoc, or_left_comm]
    refine or_congr_left ?_
    constructor
    · rintro ⟨entry, hentry, rfl, rfl⟩
      exact ⟨rfl, hentry⟩
    · rintro ⟨rfl, hentry⟩
      exact ⟨other, hentry, rfl, rfl⟩

/-! ## What the stages of a build list -/

theorem kindFits_ne_instruction (slotKind : SlotKind) : kindFits slotKind .instruction = false := by
  cases slotKind <;> rfl

namespace IndexBuilder

/-- The token postings of a builder. The range of a function names its entity, which is
entered under its own address. -/
structure Tokened (b : IndexBuilder) : Prop where
  texts : b.normalized = b.entities.map fun e => normalizeAscii e.display
  ranges : ∀ r ∈ b.functionRanges, ((b.entities[r.2.2]?).bind Entity.va).bind (fun va => b.functionByVa[va]?) = some r.2.2
  listed : ∀ token id, Listed b.tokenPostings token id ↔ token ≠ [] ∧ ∃ e ∈ b.entities, e.kind = .instruction ∧
    token ∈ tokensOf (normalizeAscii e.display) ∧ (id = e.id ∨ e.funcEntry.bind (fun va => b.functionByVa[va]?) = some id)

/-- No instruction is added, and no function. -/
structure Silent (b b' : IndexBuilder) : Prop where
  entities : ∃ more, b'.entities = b.entities ++ more ∧ (∀ e ∈ more, e.kind ≠ .instruction) ∧
    b'.normalized = b.normalized ++ more.map fun e => normalizeAscii e.display
  functionByVa : b'.functionByVa = b.functionByVa
  functionRanges : b'.functionRanges = b.functionRanges
  tokenPostings : b'.tokenPostings = b.tokenPostings

namespace Silent

theorem refl (b : IndexBuilder) : Silent b b := ⟨⟨[], by simp⟩, rfl, rfl, rfl⟩

theorem trans {b b' b'' : IndexBuilder} (h : Silent b b') (h' : Silent b' b'') : Silent b b'' := by
  obtain ⟨more, hmore, hkinds, htexts⟩ := h.entities
  obtain ⟨more', hmore', hkinds', htexts'⟩ := h'.entities
  refine ⟨⟨more ++ more', ?_, ?_, ?_⟩, h'.functionByVa.trans h.functionByVa, h'.functionRanges.trans h.functionRanges,
    h'.tokenPostings.trans h.tokenPostings⟩
  · rw [hmore', hmore, List.append_assoc]
  · intro e he
    exact (List.mem_append.mp he).elim (hkinds e) (hkinds' e)
  · rw [htexts', htexts, List.map_append, List.append_assoc]

theorem foldl {α : Type} {f : IndexBuilder → α → IndexBuilder} {xs : List α} (hf : ∀ x ∈ xs, ∀ b, Silent b (f b x))
    (b : IndexBuilder) : Silent b (xs.foldl f b) := by
  induction xs generalizing b with
  | nil => exact refl b
  | cons x xs ih =>
    exact (hf x List.mem_cons_self b).trans (ih (fun y hy => hf y (List.mem_cons_of_mem x hy)) (f b x))

/-- A builder that differs from a silent one in other tables only. -/
theorem pushEntity {b b' : IndexBuilder} {kind : EntityKind} (hkind : kind ≠ .instruction) {display : Text}
    {va fileOffset funcEntry : Option Nat}
    (hentities : b'.entities = (b.pushEntity kind display va fileOffset funcEntry).entities)
    (hnormalized : b'.normalized = (b.pushEntity kind display va fileOffset funcEntry).normalized)
    (hfunctions : b'.functionByVa = b.functionByVa) (hranges : b'.functionRanges = b.functionRanges)
    (hpostings : b'.tokenPostings = b.tokenPostings) : Silent b b' := by
  refine ⟨⟨[b.newEntity kind display va fileOffset funcEntry], hentities, ?_, hnormalized⟩, hfunctions, hranges, hpostings⟩
  intro e he
  obtain rfl := List.mem_singleton.mp he
  exact hkind

theorem pushSlot (b : IndexBuilder) (slot : SlotKey) {kind : EntityKind} (hkind : kind ≠ .instruction) (display : Text)
    (va funcEntry : Option Nat) : Silent b (b.pushSlot slot kind display va funcEntry) :=
  pushEntity hkind rfl rfl rfl rfl rfl

theorem addSymbols (p : Project) (b : IndexBuilder) : Silent b (b.addSymbols p) := by
  refine foldl (fun entry _ b => pushSlot b _ ?_ _ _ _) b
  cases entry.2.kind <;> exact EntityKind.noConfusion

theorem addStrings (image : Image) (b : IndexBuilder) : Silent b (b.addStrings image) :=
  foldl (fun _ _ _ => pushEntity EntityKind.noConfusion rfl rfl rfl rfl rfl) b

theorem addAnnotations (image : Image) (p : Project) (b : IndexBuilder) : Silent b (b.addAnnotations image p) := by
  refine foldl (fun slot hslot b => pushSlot b _ ?_ _ _ _) b
  have hmem := (sortedSlots_perm image.analysis p).mem_iff.mp (List.mem_of_mem_filter hslot)
  have hfits := (slotShape_of_mem hmem).2
  intro hkind
  rw [hkind, kindFits_ne_instruction] at hfits
  cases hfits

theorem addMotifs (image : Image) (b : IndexBuilder) : Silent b (b.addMotifs image) := by
  refine foldl (fun rule _ b => ?_) b
  unfold addMotif
  split
  · exact refl b
  · exact pushEntity EntityKind.noConfusion rfl rfl rfl rfl rfl

theorem pushClass (b : IndexBuilder) (name : Text) (functions : Ids) : Silent b (b.pushClass name functions) :=
  pushEntity EntityKind.noConfusion rfl rfl rfl rfl rfl

theorem addOntology (b : IndexBuilder) : Silent b b.addOntology := by
  have hroot : Silent b b.pushRoot := pushEntity EntityKind.noConfusion rfl rfl rfl rfl rfl
  have hset : ∀ (b : IndexBuilder) id functions, Silent b (b.setFunctions id functions) :=
    fun b id functions => ⟨⟨[], by simp [setFunctions]⟩, rfl, rfl, rfl⟩
  refine (hroot.trans ((foldl ?_ _).trans (hset _ _ _))).trans (foldl ?_ _)
  · exact fun entry _ b => pushClass b entry.1.toList entry.2
  · exact fun entry _ b => pushClass b entry.1 entry.2

theorem finish (image : Image) (config : BelConfig) (b : IndexBuilder) :
    Silent b (((b.buildRelationships image).addOntology.buildSyncmers config)) := by
  have hrelated : Silent b (b.buildRelationships image) :=
    ⟨⟨[], by simp [IndexBuilder.buildRelationships]⟩, rfl, rfl, rfl⟩
  refine (hrelated.trans (addOntology _)).trans ?_
  unfold IndexBuilder.buildSyncmers
  split <;> exact ⟨⟨[], by simp⟩, rfl, rfl, rfl⟩

end Silent

namespace Tokened

theorem silent {b b' : IndexBuilder} (h : Tokened b) (hsilent : Silent b b') : Tokened b' := by
  obtain ⟨more, hmore, hkinds, htexts⟩ := hsilent.entities
  refine ⟨?_, ?_, ?_⟩
  · rw [htexts, hmore, h.texts, List.map_append]
  · intro r hr
    rw [hsilent.functionRanges] at hr
    have hrange := h.ranges r hr
    cases hget : b.entities[r.2.2]? with
    | none =>
      rw [hget] at hrange
      cases hrange
    | some e =>
      rw [hmore, List.getElem?_append_left (List.getElem?_eq_some_iff.mp hget).1, hsilent.functionByVa]
      exact hrange
  · intro token id
    rw [hsilent.tokenPostings, h.listed, hsilent.functionByVa, hmore]
    refine and_congr_right fun _ => ⟨?_, ?_⟩
    · rintro ⟨e, he, hrest⟩
      exact ⟨e, List.mem_append_left _ he, hrest⟩
    · rintro ⟨e, he, hkind, hrest⟩
      rcases List.mem_append.mp he with he | he
      · exact ⟨e, he, hkind, hrest⟩
      · exact absurd hkind (hkinds e he)

/-- Before the first instruction nothing is listed. -/
theorem pushFunction {b : IndexBuilder} (h : Tokened b) (hnone : ∀ e ∈ b.entities, e.kind ≠ .instruction) {va : Nat}
    (hnew : b.functionByVa[va]? = none) (display : Text) (last : Nat) :
    Tokened (b.pushFunction display va last) ∧
      ∀ e ∈ (b.pushFunction display va last).entities, e.kind ≠ .instruction := by
  have hlookup : ∀ key : Nat, (b.pushFunction display va last).functionByVa[key]? =
      if va = key then some b.entities.length else b.functionByVa[key]? := by
    intro key
    show (b.functionByVa.insert _ _)[key]? = _
    rw [Std.ExtTreeMap.getElem?_insert]
    simp only [Std.LawfulEqOrd.compare_eq_iff_eq]
  have hkinds : ∀ e ∈ (b.pushFunction display va last).entities, e.kind ≠ .instruction := by
    intro e he
    rcases List.mem_append.mp he with he | he
    · exact hnone e he
    · obtain rfl := List.mem_singleton.mp he
      exact EntityKind.noConfusion
  refine ⟨⟨?_, ?_, ?_⟩, hkinds⟩
  · show b.normalized ++ [normalizeAscii display] = (b.entities ++ [_]).map _
    rw [h.texts, List.map_append]
    rfl
  · intro r hr
    rcases List.mem_append.mp hr with hr | hr
    · have hrange := h.ranges r hr
      obtain ⟨key, hkey, hfound⟩ := Option.bind_eq_some_iff.mp hrange
      obtain ⟨e, he, hva⟩ := Option.bind_eq_some_iff.mp hkey
      have hne : va ≠ key := by
        rintro rfl
        rw [hnew] at hfound
        cases hfound
      show ((b.entities ++ [_])[r.2.2]?.bind Entity.va).bind _ = _
      rw [List.getElem?_append_left (List.getElem?_eq_some_iff.mp he).1, hkey, Option.bind_some, hlookup, if_neg hne]
      exact hfound
    · obtain rfl := List.mem_singleton.mp hr
      show ((b.entities ++ [_])[b.entities.length]?.bind Entity.va).bind _ = _
      rw [List.getElem?_concat_length]
      show (b.pushFunction display va last).functionByVa[va]? = _
      rw [hlookup, if_pos rfl]
  · intro token id
    show Listed b.tokenPostings token id ↔ _
    rw [h.listed]
    constructor
    · rintro ⟨-, e, he, hkind, -⟩
      exact absurd hkind (hnone e he)
    · rintro ⟨-, e, he, hkind, -⟩
      exact absurd hkind (hkinds e he)

theorem foldl_pushFunction (display : SsaCache.Function → Text) (fs : List SsaCache.Function) {b : IndexBuilder}
    (h : Tokened b) (hnone : ∀ e ∈ b.entities, e.kind ≠ .instruction)
    (hnew : ∀ f ∈ fs, b.functionByVa[f.entryVa]? = none) (hentries : (fs.map SsaCache.Function.entryVa).Nodup) :
    Tokened (fs.foldl (fun b f => b.pushFunction (display f) f.entryVa (functionEnd f)) b) := by
  induction fs generalizing b with
  | nil => exact h
  | cons f fs ih =>
    obtain ⟨hf, hrest⟩ := List.nodup_cons.mp hentries
    obtain ⟨htokened, hkinds⟩ := h.pushFunction hnone (hnew f List.mem_cons_self) (display f) (functionEnd f)
    refine ih htokened hkinds (fun g hg => ?_) hrest
    have hne : f.entryVa ≠ g.entryVa := fun heq => hf (heq ▸ List.mem_map_of_mem hg)
    show (b.functionByVa.insert _ _)[g.entryVa]? = none
    rw [Std.ExtTreeMap.getElem?_insert, if_neg (by simpa using hne)]
    exact hnew g (List.mem_cons_of_mem f hg)

theorem addFunctions (image : Image) (p : Project) : Tokened (IndexBuilder.new.addFunctions image p) := by
  have hempty : Tokened IndexBuilder.new := by
    refine ⟨rfl, by simp [IndexBuilder.new], fun token id => ?_⟩
    simp [IndexBuilder.new, Listed]
  have h := foldl_pushFunction (fun f => (f.name p).toList) image.analysis.functions hempty (by simp [IndexBuilder.new])
    (by simp [IndexBuilder.new]) image.analysis.entry_inj
  -- sorting changes the order of the ranges only
  exact ⟨h.texts, fun r hr => h.ranges r ((List.perm_insertionSort _ _).mem_iff.mp hr), h.listed⟩

/-- An instruction carries the address of the function it is listed with. -/
theorem addInstruction {image : Image} {p : Project} {cursor : Nat} {b : IndexBuilder} (h : Tokened b) (decoded : Decoded) :
    Tokened (IndexBuilder.addInstruction image p (cursor, b) decoded).2 := by
  unfold IndexBuilder.addInstruction
  dsimp only
  set function := ((b.functionRanges[advanceRange b.functionRanges cursor decoded.ip]?).filter fun range =>
    range.1 ≤ decoded.ip && decoded.ip ≤ range.2.1).map fun range => range.2.2 with hfunction
  have hcarried : ((function.bind fun id => b.entities[id]?).bind Entity.va).bind (fun va => b.functionByVa[va]?) =
      function := by
    cases hcase : function with
    | none => rfl
    | some id =>
      rw [hcase] at hfunction
      obtain ⟨r, hr, rfl⟩ := Option.map_eq_some_iff.mp hfunction.symm
      exact h.ranges r (List.mem_of_getElem? (Option.filter_eq_some_iff.mp hr).1)
  refine ⟨?_, ?_, ?_⟩
  · show b.normalized ++ [_] = (b.entities ++ [_]).map _
    rw [h.texts, List.map_append]
    rfl
  · intro r hr
    have hrange := h.ranges r hr
    obtain ⟨key, hkey, hfound⟩ := Option.bind_eq_some_iff.mp hrange
    obtain ⟨e, he, hva⟩ := Option.bind_eq_some_iff.mp hkey
    show ((b.entities ++ [_])[r.2.2]?.bind Entity.va).bind _ = _
    rw [List.getElem?_append_left (List.getElem?_eq_some_iff.mp he).1]
    exact hrange
  · intro token id
    show Listed (insertInstructionTokens b.tokenPostings _ b.entities.length function) token id ↔
      token ≠ [] ∧ ∃ e ∈ b.entities ++ [_], _
    rw [listed_insertInstructionTokens, h.listed]
    constructor
    · rintro (⟨hne, hmem, hid⟩ | ⟨hne, e, he, hrest⟩)
      · refine ⟨hne, _, List.mem_append_right _ (List.mem_singleton.mpr rfl), rfl, hmem, ?_⟩
        show id = b.entities.length ∨ _
        rw [← hcarried] at hid
        exact hid
      · exact ⟨hne, e, List.mem_append_left _ he, hrest⟩
    · rintro ⟨hne, e, he, hkind, hmem, hid⟩
      rcases List.mem_append.mp he with he | he
      · exact .inr ⟨hne, e, he, hkind, hmem, hid⟩
      · obtain rfl := List.mem_singleton.mp he
        refine .inl ⟨hne, hmem, ?_⟩
        rw [← hcarried]
        exact hid

theorem addInstructions {image : Image} {p : Project} {b : IndexBuilder} (h : Tokened b) :
    Tokened (b.addInstructions image p) := by
  unfold IndexBuilder.addInstructions
  generalize 0 = cursor
  induction image.codeIndex generalizing cursor b with
  | nil => exact h
  | cons decoded rest ih => exact ih (h.addInstruction decoded) _

end Tokened

end IndexBuilder

/-- The instructions of an index that have a token, and the functions that contain one. -/
def HasToken (index : BelIndex) (token : Text) (id : Nat) : Prop :=
  ∃ e ∈ index.entities, e.kind = .instruction ∧ token ∈ tokensOf (normalizeAscii e.display) ∧
    (id = e.id ∨ e.funcEntry.bind (fun va => index.functionByVa[va]?) = some id)

/-- An index lists its instructions and their functions under the tokens. -/
structure TokenTables (index : BelIndex) : Prop where
  texts : index.normalized = index.entities.map fun e => normalizeAscii e.display
  listed : ∀ token id, Listed index.tokenPostings token id ↔ token ≠ [] ∧ HasToken index token id

theorem IndexBuilder.Tokened.finish {b : IndexBuilder} (h : IndexBuilder.Tokened b) (image : Image)
    (config : BelConfig) : TokenTables (b.finish image config) := by
  have hafter := h.silent (IndexBuilder.Silent.finish image config b)
  exact ⟨hafter.texts, hafter.listed⟩

theorem tokened_build {image : Image} {p : Project} {config : BelConfig} {index : BelIndex}
    (h : BelIndex.build image p config = .ok index) : TokenTables index := by
  have hfunctions := IndexBuilder.Tokened.addFunctions image p
  have hbefore := hfunctions.silent ((IndexBuilder.Silent.addSymbols p _).trans (IndexBuilder.Silent.addStrings image _))
  have hafter := (@IndexBuilder.Tokened.addInstructions image p _ hbefore).silent
    ((IndexBuilder.Silent.addAnnotations image p _).trans (IndexBuilder.Silent.addMotifs image _))
  rw [build_eq h]
  exact hafter.finish image config

end Windy.Bel
