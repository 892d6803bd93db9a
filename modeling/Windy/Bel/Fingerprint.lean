import Windy.Bel.Cursor

/- What a query's fingerprint fixes (`query_fingerprint` in `analysis/bel/query.rs`).

   A cursor holds a hash of a text that is put together from the query: the mode, the normalized
   text, the quorum, the depth, the kinds and the normalized evidence, with bars between them. A
   search accepts a cursor whose hash is that of its own query. Two queries can share the text and
   still mean different things: a missing quorum is written like the quorum 0 but stands for the
   configured one, a bar can be part of the text or of a clause, and a pattern is written in lower
   case although its escapes are not.

   What is proved:
     1. `fingerprint_parts`: once the normalized texts agree, the text fixes the mode, the
        depth and the kinds.
     2. `requiredRegexLiteral_lower`: lower case does not change the literal a pattern is
        looked up by.
     3. `ranking_congr`: the ranking does not depend on the texts evidence carries.
     4. `same_ranking`: two queries with one fingerprint have one ranking, if their texts
        agree, their patterns match alike, and their clauses and quorums agree. -/
namespace Windy.Bel

open Budget
open scoped Utf8

/-! ## Lower case -/

theorem toNat_toLower (c : Char) :
    c.toLower.toNat = if 65 ≤ c.toNat ∧ c.toNat ≤ 90 then c.toNat + 32 else c.toNat := by
  unfold Char.toLower
  split
  · next h =>
    have hle : 65 ≤ c.toNat ∧ c.toNat ≤ 90 := by
      simpa [UInt32.le_iff_toNat_le] using h
    have hdiff : ('a'.val - 'A'.val).toNat = 32 := by decide
    rw [if_pos hle]
    show (c.val + ('a'.val - 'A'.val)).toNat = c.toNat + 32
    rw [UInt32.toNat_add, hdiff]
    show (c.toNat + 32) % 2 ^ 32 = c.toNat + 32
    omega
  · next h =>
    have hnot : ¬(65 ≤ c.toNat ∧ c.toNat ≤ 90) := by
      simpa [UInt32.le_iff_toNat_le] using h
    rw [if_neg hnot]

/-- Only a letter can become a letter. -/
theorem toLower_eq_iff {c x : Char} (hx : x.toNat < 65 ∨ (90 < x.toNat ∧ x.toNat < 97) ∨ 122 < x.toNat) :
    c.toLower = x ↔ c = x := by
  rw [← Char.toNat_inj, ← Char.toNat_inj, toNat_toLower]
  split <;> omega

theorem mem_toLower_iff {c : Char} {marks : List Char}
    (h : ∀ x ∈ marks, x.toNat < 65 ∨ (90 < x.toNat ∧ x.toNat < 97) ∨ 122 < x.toNat) :
    c.toLower ∈ marks ↔ c ∈ marks := by
  constructor
  · intro hmem
    have heq := (toLower_eq_iff (h _ hmem)).mp (rfl : c.toLower = c.toLower)
    rwa [heq]
  · intro hmem
    rwa [(toLower_eq_iff (h _ hmem)).mpr rfl]

theorem isWhitespace_toLower (c : Char) : Sketch.isWhitespace c.toLower = Sketch.isWhitespace c := by
  unfold Sketch.isWhitespace
  rw [toNat_toLower]
  split
  · next h =>
    rw [Bool.eq_iff_iff]
    simp only [Bool.or_eq_true, Bool.and_eq_true, decide_eq_true_eq]
    omega
  · rfl

theorem normalizeAscii_trim (text : Text) : normalizeAscii (trim text) = trim (normalizeAscii text) := by
  have hdrop : ∀ t : Text, (normalizeAscii t).dropWhile Sketch.isWhitespace =
      normalizeAscii (t.dropWhile Sketch.isWhitespace) := by
    intro t
    have hfun : Sketch.isWhitespace ∘ Char.toLower = Sketch.isWhitespace := by
      funext c
      exact isWhitespace_toLower c
    rw [normalizeAscii, List.dropWhile_map, hfun]
    rfl
  have hreverse : ∀ t : Text, (normalizeAscii t).reverse = normalizeAscii t.reverse := by
    intro t
    exact List.map_reverse.symm
  simp only [trim, hdrop, hreverse]

theorem flush_lower (current : Text) (runs : List Text) :
    flush (normalizeAscii current) (runs.map normalizeAscii) = (flush current runs).map normalizeAscii := by
  cases current <;> simp [flush, normalizeAscii]

/-- The runs of a pattern in lower case. -/
theorem literalRuns_lower (pattern : Text) (inClass : Bool) (current : Text) (runs : List Text) :
    literalRuns (normalizeAscii pattern) inClass (normalizeAscii current) (runs.map normalizeAscii) =
      (literalRuns pattern inClass current runs).map (List.map normalizeAscii) := by
  have happ : ∀ (t : Text) (c : Char), normalizeAscii t ++ [c.toLower] = normalizeAscii (t ++ [c]) := by
    intro t c
    simp [normalizeAscii]
  have hcons : ∀ (c : Char) (t : Text), normalizeAscii (c :: t) = c.toLower :: normalizeAscii t := fun _ _ => rfl
  have hbackslash : ∀ c : Char, c.toLower = '\\' ↔ c = '\\' := fun c => toLower_eq_iff (by decide)
  have hopen : ∀ c : Char, c.toLower = '[' ↔ c = '[' := fun c => toLower_eq_iff (by decide)
  have hclose : ∀ c : Char, c.toLower = ']' ↔ c = ']' := fun c => toLower_eq_iff (by decide)
  have hmarks : ∀ c : Char, c.toLower ∈ ".+()^$".toList ↔ c ∈ ".+()^$".toList :=
    fun c => mem_toLower_iff (by decide)
  have hescapes : ∀ c : Char, c.toLower ∈ ".+()[]\x7b\x7d^$|*?\\".toList ↔
      c ∈ ".+()[]\x7b\x7d^$|*?\\".toList :=
    fun c => mem_toLower_iff (by decide)
  have hnil : normalizeAscii [] = [] := rfl
  fun_induction literalRuns pattern inClass current runs with
  | case1 inClass current runs =>
    simp only [hnil, literalRuns, flush_lower, Option.map_some]
  | case2 c rest current runs ih =>
    rw [hcons, literalRuns, flush_lower]
    simpa only [ne_eq, hclose, hnil] using ih
  | case3 current runs escaped rest hmem ih =>
    simp only [hcons, literalRuns, hbackslash, if_true, hescapes, hmem, happ]
    exact ih
  | case4 current runs escaped rest hmem =>
    simp only [hcons, literalRuns, hbackslash, if_true, hescapes, hmem, if_false, Option.map_none]
  | case5 current runs =>
    simp only [hcons, hnil, literalRuns, hbackslash, if_true, Option.map_none]
  | case6 rest current runs hne ih =>
    rw [hcons, literalRuns.eq_def]
    dsimp only
    rw [if_neg (by rw [hbackslash]; exact hne), if_pos (by rw [hopen]), flush_lower]
    exact ih
  | case7 c rest current runs hne hopenne hmem ih =>
    rw [hcons, literalRuns.eq_def]
    dsimp only
    rw [if_neg (by rw [hbackslash]; exact hne), if_neg (by rw [hopen]; exact hopenne),
      if_pos ((hmarks c).mpr hmem), flush_lower]
    exact ih
  | case8 c rest current runs hne hopenne hmem ih =>
    rw [hcons, literalRuns.eq_def]
    dsimp only
    rw [if_neg (by rw [hbackslash]; exact hne), if_neg (by rw [hopen]; exact hopenne),
      if_neg (fun h => hmem ((hmarks c).mp h)), happ]
    exact ih

/-- The step of `longest`. -/
def longer (best : Option Text) (run : Text) : Option Text :=
  match best with
  | some other => if other.length ≤ run.length then some run else some other
  | none => some run

theorem longest_lower (runs : List Text) :
    longest (runs.map normalizeAscii) = (longest runs).map normalizeAscii := by
  have hfold : ∀ (runs : List Text) (best : Option Text),
      (runs.map normalizeAscii).foldl longer (best.map normalizeAscii) = (runs.foldl longer best).map normalizeAscii := by
    intro runs
    induction runs with
    | nil => exact fun _ => rfl
    | cons run runs ih =>
      intro best
      rw [List.map_cons, List.foldl_cons, List.foldl_cons, ← ih]
      congr 1
      cases best with
      | none => rfl
      | some other =>
        simp only [Option.map_some, longer, normalizeAscii, List.length_map]
        split <;> rfl
  exact hfold runs none

/-- Lower case does not change the literal a pattern is looked up by. -/
theorem requiredRegexLiteral_lower (pattern : Text) :
    requiredRegexLiteral (normalizeAscii pattern) = (requiredRegexLiteral pattern).map normalizeAscii := by
  have hascii : (normalizeAscii pattern).any (fun c => decide (128 ≤ c.toNat)) =
      pattern.any (fun c => decide (128 ≤ c.toNat)) := by
    rw [normalizeAscii, List.any_map]
    congr 1
    funext c
    simp only [Function.comp_apply, decide_eq_decide, toNat_toLower]
    split <;> omega
  have hmarks : (normalizeAscii pattern).any (fun c => decide (c ∈ "|*?\x7b".toList)) =
      pattern.any (fun c => decide (c ∈ "|*?\x7b".toList)) := by
    rw [normalizeAscii, List.any_map]
    congr 1
    funext c
    rw [Function.comp_apply, decide_eq_decide]
    exact mem_toLower_iff (by decide)
  have hruns : literalRuns (normalizeAscii pattern) false [] [] =
      (literalRuns pattern false [] []).map (List.map normalizeAscii) :=
    literalRuns_lower pattern false [] []
  unfold requiredRegexLiteral
  rw [hascii, hmarks, hruns]
  split
  · rfl
  · split
    · rfl
    · cases literalRuns pattern false [] [] with
      | none => rfl
      | some runs =>
        simp only [Option.map_some, Option.bind_some, longest_lower]
        cases longest runs with
        | none => rfl
        | some run =>
          simp only [Option.map_some, Option.filter_some, normalizeAscii, List.length_map]
          split <;> rfl

/-- Patterns that differ in case only are looked up by one literal. -/
theorem requiredRegexLiteral_congr {left right : Text} (h : normalizeAscii left = normalizeAscii right) :
    (requiredRegexLiteral left).map normalizeAscii = (requiredRegexLiteral right).map normalizeAscii := by
  rw [← requiredRegexLiteral_lower, h, requiredRegexLiteral_lower]

/-! ## The parts of a fingerprint -/

/-- The text a query's cursors are bound to. -/
def Query.fingerprint (query : Query) : Text :=
  fingerprintText query (classifyQuery query).1 (normalizeAscii (classifyQuery query).2)

/-- Texts up to the first bar. -/
theorem split_at_mark {mark : Char} {a b x y : Text} (ha : mark ∉ a) (hb : mark ∉ b)
    (h : a ++ mark :: x = b ++ mark :: y) : a = b ∧ x = y := by
  induction a generalizing b with
  | nil =>
    cases b with
    | nil => exact ⟨rfl, (List.cons.inj h).2⟩
    | cons d b => exact absurd ((List.cons.inj h).1 ▸ List.mem_cons_self) hb
  | cons c a ih =>
    cases b with
    | nil => exact absurd ((List.cons.inj h).1 ▸ List.mem_cons_self) ha
    | cons d b =>
      obtain ⟨rfl, hrest⟩ := List.cons.inj h
      obtain ⟨rfl, hxy⟩ := ih (fun hmem => ha (List.mem_cons_of_mem c hmem))
        (fun hmem => hb (List.mem_cons_of_mem c hmem)) hrest
      exact ⟨rfl, hxy⟩

theorem SearchMode.debug_inj {a b : SearchMode} (h : a.debug.toList = b.debug.toList) : a = b := by
  revert h
  cases a <;> cases b <;> decide

theorem SearchMode.bar_notMem_debug (mode : SearchMode) : '|' ∉ mode.debug.toList := by
  cases mode <;> decide

theorem EntityKind.debug_inj {a b : EntityKind} (h : a.debug.toList = b.debug.toList) : a = b := by
  revert h
  cases a <;> cases b <;> decide

/-- A kind is written with letters. -/
theorem EntityKind.mark_notMem_debug (kind : EntityKind) {mark : Char} (h : mark ∈ ",]".toList) :
    mark ∉ kind.debug.toList := by
  have hall : ∀ m ∈ ",]".toList, m ∉ kind.debug.toList := by cases kind <;> decide
  exact hall mark h

theorem toString_inj {m n : Nat} (h : (toString m).toList = (toString n).toList) : m = n := by
  have hdigits : Nat.toDigits 10 m = Nat.toDigits 10 n := by simpa using h
  have hm := foldlM_toDigits (b := 10) (by decide) (by decide) m
  rw [hdigits, foldlM_toDigits (by decide) (by decide) n] at hm
  exact (Option.some.inj hm).symm

theorem bar_notMem_toString (n : Nat) : '|' ∉ (toString n).toList := by
  intro hmem
  have hmem : '|' ∈ Nat.toDigits 10 n := by simpa using hmem
  exact absurd (Nat.isDigit_of_mem_toDigits (by decide) (by decide) hmem) (by decide)

/-- The kinds as a fingerprint lists them. -/
def kindsText (kinds : List EntityKind) : Text :=
  ", ".toList.intercalate (kinds.map fun kind => kind.debug.toList)

theorem kindsText_cons (a b : EntityKind) (kinds : List EntityKind) :
    kindsText (a :: b :: kinds) = a.debug.toList ++ ',' :: ' ' :: kindsText (b :: kinds) := by
  simp [kindsText, List.intercalate]

theorem kindsText_single (a : EntityKind) : kindsText [a] = a.debug.toList := by
  simp [kindsText, List.intercalate]

theorem bracket_notMem_kindsText (kinds : List EntityKind) : ']' ∉ kindsText kinds := by
  induction kinds with
  | nil => decide
  | cons a kinds ih =>
    cases kinds with
    | nil =>
      rw [kindsText_single]
      exact a.mark_notMem_debug (by decide)
    | cons b kinds =>
      rw [kindsText_cons]
      intro hmem
      rcases List.mem_append.mp hmem with hmem | hmem
      · exact a.mark_notMem_debug (by decide) hmem
      · simp only [List.mem_cons, Char.reduceEq, false_or] at hmem
        exact ih hmem

theorem kindsText_inj {left right : List EntityKind} (h : kindsText left = kindsText right) : left = right := by
  have hcomma : ∀ kind : EntityKind, ',' ∉ kind.debug.toList := fun kind => kind.mark_notMem_debug (by decide)
  have hne : ∀ kind : EntityKind, kind.debug.toList ≠ [] := by
    intro kind
    cases kind <;> decide
  induction left generalizing right with
  | nil =>
    match right with
    | [] => rfl
    | [a] => exact absurd ((kindsText_single a).symm.trans h.symm) (hne a)
    | a :: b :: right =>
      rw [kindsText_cons] at h
      exact absurd h.symm (by simp [kindsText, List.intercalate])
  | cons a left ih =>
    match left, right with
    | [], [] => exact absurd ((kindsText_single a).symm.trans h) (hne a)
    | [], [b] =>
      rw [kindsText_single, kindsText_single] at h
      rw [EntityKind.debug_inj h]
    | [], b :: c :: right =>
      rw [kindsText_single, kindsText_cons] at h
      exact absurd (h ▸ by simp) (hcomma a)
    | c :: left, [] =>
      rw [kindsText_cons] at h
      exact absurd h (by simp [kindsText, List.intercalate])
    | c :: left, [b] =>
      rw [kindsText_single, kindsText_cons] at h
      exact absurd (h.symm ▸ by simp) (hcomma b)
    | c :: left, b :: d :: right =>
      rw [kindsText_cons, kindsText_cons] at h
      obtain ⟨hab, hrest⟩ := split_at_mark (hcomma a) (hcomma b) h
      rw [EntityKind.debug_inj hab, ih (List.cons.inj hrest).2]

/-- What a fingerprint fixes once the normalized texts agree. -/
theorem fingerprint_parts {left right : Query} (h : left.fingerprint = right.fingerprint)
    (htext : normalizeAscii (classifyQuery left).2 = normalizeAscii (classifyQuery right).2) :
    (classifyQuery left).1 = (classifyQuery right).1 ∧
      left.relationshipDepth = right.relationshipDepth ∧ left.kinds = right.kinds := by
  have hshape : ∀ q : Query, q.fingerprint = (classifyQuery q).1.debug.toList ++ '|' ::
      (normalizeAscii (classifyQuery q).2 ++ '|' :: ((toString (q.quorum.getD 0)).toList ++ '|' ::
        ((toString q.relationshipDepth).toList ++ '|' :: '[' :: (kindsText q.kinds ++ ']' ::
          q.evidence.flatMap fun clause => '|' :: normalizeAscii clause)))) := by
    intro q
    simp [Query.fingerprint, fingerprintText, kindsText]
  rw [hshape left, hshape right] at h
  obtain ⟨hmode, h⟩ := split_at_mark (SearchMode.bar_notMem_debug _) (SearchMode.bar_notMem_debug _) h
  rw [htext, List.append_cancel_left_eq] at h
  obtain ⟨-, h⟩ := split_at_mark (bar_notMem_toString _) (bar_notMem_toString _) (List.cons.inj h).2
  obtain ⟨hdepth, h⟩ := split_at_mark (bar_notMem_toString _) (bar_notMem_toString _) h
  obtain ⟨hkinds, -⟩ := split_at_mark (bracket_notMem_kindsText _) (bracket_notMem_kindsText _) (List.cons.inj h).2
  exact ⟨SearchMode.debug_inj hmode, toString_inj hdepth, kindsText_inj hkinds⟩

/-! ## The ranking does not read the texts of its evidence -/

/-- Evidence without the account of where it came from. -/
def CandidateEvidence.core (candidate : CandidateEvidence) : CandidateEvidence :=
  { candidate with provenance := [] }

def coreMap (evidence : EvidenceMap) : EvidenceMap := evidence.map fun _ candidate => candidate.core

theorem core_addProvenance {left right : CandidateEvidence} (h : left.core = right.core) {p q : Provenance}
    (hlayer : p.layer = q.layer) (hsource : p.sourceEntity = q.sourceEntity) :
    (left.addProvenance p).core = (right.addProvenance q).core := by
  simp only [CandidateEvidence.core, CandidateEvidence.mk.injEq] at h
  obtain ⟨h1, -, h3, h4, h5, h6, h7, h8⟩ := h
  simp [CandidateEvidence.core, CandidateEvidence.addProvenance, h1, h3, h4, h5, h6, h7, h8, hlayer, hsource]

theorem coreMap_insert (evidence : EvidenceMap) (id : Nat) (candidate : CandidateEvidence) :
    coreMap (evidence.insert id candidate) = (coreMap evidence).insert id candidate.core := by
  apply Std.ExtTreeMap.ext_getElem?
  intro k
  simp only [coreMap, Std.ExtTreeMap.getElem?_map, Std.ExtTreeMap.getElem?_insert]
  split <;> rfl

theorem toList_coreMap (evidence : EvidenceMap) :
    (coreMap evidence).toList = evidence.toList.map fun entry => (entry.1, entry.2.core) :=
  Std.ExtTreeMap.toList_map

/-- What a hit is ranked by. -/
def ScoredHit.rank (hit : ScoredHit) : Nat × Nat × Int := (hit.entityId, hit.va, hit.scoreMicros)

section Ranking
variable {index : BelIndex} {overlay : Overlay index} {engine : Engine} {left right : CandidateEvidence}

theorem enrich_core {signature : Signature} {functionId : Nat}
    (h : left.core = right.core) :
    (enrich index overlay signature functionId left).core = (enrich index overlay signature functionId right).core := by
  have hfields := h
  simp only [CandidateEvidence.core, CandidateEvidence.mk.injEq] at hfields
  obtain ⟨h1, -, h3, h4, h5, h6, h7, h8⟩ := hfields
  unfold enrich
  cases index.signatures.signatures[functionId]? with
  | none => simp [CandidateEvidence.core, h1, h3, h4, h5, h6, h8]
  | some own =>
    dsimp only
    split
    · simp [CandidateEvidence.core, h1, h3, h4, h5, h6, h8]
    · split <;> simp [CandidateEvidence.core, CandidateEvidence.addProvenance, h1, h3, h4, h5, h8]

theorem scoreOf_core (h : left.core = right.core) (display : Text) :
    scoreOf engine left display = scoreOf engine right display := by
  simp only [CandidateEvidence.core, CandidateEvidence.mk.injEq] at h
  obtain ⟨h1, -, -, h4, h5, h6, h7, -⟩ := h
  simp only [scoreOf, h1, h4, h5, h6, h7]

theorem scoreHit_core (signature : Signature) (id : Nat)
    (h : left.core = right.core) :
    (scoreHit index overlay engine signature id left).map ScoredHit.rank =
      (scoreHit index overlay engine signature id right).map ScoredHit.rank := by
  unfold scoreHit
  cases index.entity overlay id with
  | none => rfl
  | some entity =>
    simp only [Option.map_some, ScoredHit.rank]
    congr 3
    cases (entity.funcEntry.bind fun va => index.functionByVa[va]?).or
      (if entity.kind = .function then some id else none) with
    | none => exact scoreOf_core h _
    | some functionId => exact scoreOf_core (enrich_core h) _

/-- The signature of a query is made from the seeds of its evidence. -/
theorem querySignature_core {left right : EvidenceMap} (h : coreMap left = coreMap right) :
    (querySignature index left).value = (querySignature index right).value := by
  have hcore : ∀ m : EvidenceMap, (querySignature index m).value = (querySignature index (coreMap m)).value := by
    intro m
    simp only [querySignature, Timed.value_bind, Timed.value_each, toList_coreMap, Timed.scan_map]
    rfl
  rw [hcore, h, ← hcore]

theorem scoredHits_core {left right : EvidenceMap} (h : coreMap left = coreMap right) (signature : Signature) :
    (scoredHits index overlay engine signature left).map ScoredHit.rank =
      (scoredHits index overlay engine signature right).map ScoredHit.rank := by
  have hmap : ∀ m : EvidenceMap, (scoredHits index overlay engine signature m).map ScoredHit.rank =
      (coreMap m).toList.filterMap fun entry =>
        (scoreHit index overlay engine signature entry.1 entry.2).map ScoredHit.rank := by
    intro m
    rw [scoredHits, List.map_filterMap, toList_coreMap, List.filterMap_map]
    congr 1
    funext entry
    exact scoreHit_core signature entry.1 rfl
  rw [hmap, hmap, h]

/-- Evidence that differs in its texts only is ranked alike. -/
theorem ranking_congr {left right : EvidenceMap} (h : coreMap left = coreMap right) :
    (TopK.sort hitKey (scoredHits index overlay engine (querySignature index left).value.1 left)).map ScoredHit.rank =
      (TopK.sort hitKey (scoredHits index overlay engine (querySignature index right).value.1 right)).map
        ScoredHit.rank := by
  have hsort : ∀ hits : List ScoredHit, (TopK.sort hitKey hits).map ScoredHit.rank =
      (hits.map ScoredHit.rank).insertionSort fun a b =>
        (toLex (OrderDual.toDual a.2.2, toLex (a.1, a.2.1)) : Intᵒᵈ ×ₗ (Nat ×ₗ Nat)) ≤
          toLex (OrderDual.toDual b.2.2, toLex (b.1, b.2.1)) := by
    intro hits
    exact List.map_insertionSort _ _ ScoredHit.rank hits fun a _ b _ => Iff.rfl
  rw [hsort, hsort, querySignature_core h, scoredHits_core h]

end Ranking

/-! ## Collecting the same evidence -/

section Gather
variable {index : BelIndex} {overlay : Overlay index} {engine : Engine} {left right : Query}

/-- Patterns that match alike collect alike. -/
theorem collectSurface_regex_congr {left right : Text} {leftMatch rightMatch : Text → Bool}
    (hleft : engine.compile left = .ok leftMatch) (hright : engine.compile right = .ok rightMatch)
    (hmatch : ∀ text, leftMatch text = rightMatch text) (hlower : normalizeAscii left = normalizeAscii right)
    (kinds : List EntityKind) :
    collectSurface index overlay engine .regex left kinds = collectSurface index overlay engine .regex right kinds := by
  obtain rfl : leftMatch = rightMatch := funext hmatch
  have hregex : collectRegex index overlay engine left kinds = collectRegex index overlay engine right kinds := by
    unfold collectRegex
    simp only [hleft, hright, requiredRegexLiteral_congr hlower]
  unfold collectSurface
  simp only [hregex]

theorem surfaceEvidence_core (mode : SearchMode) (left right : Text) (candidates : CandidateSet)
    (sources : Std.ExtTreeMap Nat Nat) (id : Nat) :
    (surfaceEvidence index overlay mode left candidates sources id).core =
      (surfaceEvidence index overlay mode right candidates sources id).core :=
  core_addProvenance rfl rfl rfl

/-- The evidence of surface candidates, up to its texts. -/
theorem collectSurfaceEvidence_core (hkinds : left.kinds = right.kinds) {mode : SearchMode}
    {leftText rightText normalized : Text}
    (hsurface : (collectSurface index overlay engine mode (if mode = .regex then leftText else normalized)
        left.kinds).value =
      (collectSurface index overlay engine mode (if mode = .regex then rightText else normalized) right.kinds).value)
    {g g' : Gathered}
    (hg : (collectSurfaceEvidence index overlay engine left mode leftText normalized).value = .ok g)
    (hg' : (collectSurfaceEvidence index overlay engine right mode rightText normalized).value = .ok g') :
    coreMap g.evidence = coreMap g'.evidence := by
  simp only [collectSurfaceEvidence, Timed.value_bind] at hg hg'
  rw [hsurface] at hg
  cases hcandidates : (collectSurface index overlay engine mode (if mode = .regex then rightText else normalized)
      right.kinds).value with
  | error e =>
    rw [hcandidates] at hg
    cases hg
  | ok candidates =>
    rw [hcandidates] at hg hg'
    obtain rfl := Except.ok.inj hg
    obtain rfl := Except.ok.inj hg'
    refine Timed.value_each_same (R := fun m m' => coreMap m = coreMap m') ?_ _ rfl
    intro id m m' h
    refine .yield ?_
    rw [hkinds]
    split
    · rw [coreMap_insert, coreMap_insert, h, surfaceEvidence_core mode leftText rightText]
    · exact h

/-- The sources without the clauses. -/
def eraseClauses (sources : Sources) : Std.ExtTreeMap Nat (List (Nat × Nat)) :=
  sources.map fun _ entries => entries.map Prod.snd

theorem eraseClauses_insert (sources : Sources) (function : Nat) (entries : List (Text × Nat × Nat)) :
    eraseClauses (sources.insert function entries) =
      (eraseClauses sources).insert function (entries.map Prod.snd) := by
  apply Std.ExtTreeMap.ext_getElem?
  intro k
  simp only [eraseClauses, Std.ExtTreeMap.getElem?_map, Std.ExtTreeMap.getElem?_insert]
  split <;> rfl

theorem eraseClauses_getD (sources : Sources) (function : Nat) :
    (eraseClauses sources)[function]?.getD [] = (sources[function]?.getD []).map Prod.snd := by
  rw [eraseClauses, Std.ExtTreeMap.getElem?_map]
  cases sources[function]? <;> rfl

/-- What clauses have reached, up to their texts. -/
def SameReach (left right : Ids × Sources) : Prop :=
  left.1 = right.1 ∧ eraseClauses left.2 = eraseClauses right.2

theorem reachFunctions_same (clause clause' : Text) (seed : Nat) (functions : Ids) {left right : Ids × Sources}
    (h : SameReach left right) :
    SameReach (reachFunctions clause seed functions left).value.1
      (reachFunctions clause' seed functions right).value.1 := by
  refine Timed.value_each_same (R := SameReach) ?_ _ h
  rintro function s t ⟨hfound, hsources⟩
  refine .yield ⟨by rw [hfound], ?_⟩
  rw [eraseClauses_insert, eraseClauses_insert, List.map_append, List.map_append, ← eraseClauses_getD,
    ← eraseClauses_getD, hsources]
  rfl

/-- One clause reaches the same functions from the same seeds, whatever its text. -/
theorem clauseFunctions_same (clause clause' : Text) (seeds : Ids) {sources sources' : Sources}
    (h : eraseClauses sources = eraseClauses sources') :
    SameReach (clauseFunctions index overlay clause seeds sources).value.1
        (clauseFunctions index overlay clause' seeds sources').value.1 ∧
      (clauseFunctions index overlay clause seeds sources).value.2 =
        (clauseFunctions index overlay clause' seeds sources').value.2 := by
  have hloop := Timed.value_each_same (R := fun (s t : (Ids × Sources) × Bool) => SameReach s.1 t.1 ∧ s.2 = t.2)
    (f := clauseSeed index overlay clause) (g := clauseSeed index overlay clause')
    (by
      intro seed s t hst
      unfold clauseSeed
      split
      · exact .yield hst
      · exact .yield ⟨reachFunctions_same clause clause' seed _ hst.1, by simp [reachFunctions, hst.2]⟩)
    seeds.toList (s := ((∅, sources), true)) (t := ((∅, sources'), true)) ⟨⟨rfl, h⟩, rfl⟩
  simp only [clauseFunctions, Timed.value_bind, Timed.value_pure]
  refine ⟨hloop.1, ?_⟩
  rw [hloop.2, Timed.value_each, Timed.value_each]

/-- The counts and sources of a quorum, up to the texts of the clauses. -/
structure SameQuorum (left right : Quorum) : Prop where
  counts : left.counts = right.counts
  sources : eraseClauses left.sources = eraseClauses right.sources

theorem countClauses_same {left right : List Text}
    (h : List.Forall₂ (fun a b => normalizeAscii (trim a) = normalizeAscii (trim b)) left right) :
    SameQuorum (countClauses index overlay left).value (countClauses index overlay right).value := by
  have hloop := Timed.value_each_rel (R := SameQuorum) (f := countClause index overlay)
    (g := countClause index overlay)
    (by
      intro clause clause' s t hclause hst
      simp only [countClause, Timed.value_bind, Timed.value_pure, hclause]
      have hreach := @clauseFunctions_same index overlay clause clause'
        (collectSubstring index overlay (normalizeAscii (trim clause')) []).value.ids _ _ hst.sources
      exact .yield ⟨by rw [hreach.1.1, hst.counts], hreach.1.2⟩)
    h (s := { counts := ∅, sources := ∅, complete := true, estimated := 0 })
    (t := { counts := ∅, sources := ∅, complete := true, estimated := 0 }) ⟨rfl, rfl⟩
  exact ⟨hloop.counts, hloop.sources⟩

theorem quorumEvidence_core {left right : List (Text × Nat × Nat)} (h : left.map Prod.snd = right.map Prod.snd) :
    (quorumEvidence left).value.1.core = (quorumEvidence right).value.1.core := by
  have hforall : List.Forall₂ (fun a b : Text × Nat × Nat => a.2 = b.2) left right :=
    List.forall₂_map_left_iff.mp (List.forall₂_map_right_iff.mp (by
      rw [List.forall₂_eq_eq_eq]
      exact h))
  refine Timed.value_each_rel (R := fun s t : CandidateEvidence => s.core = t.core) ?_ hforall rfl
  rintro ⟨clause, seed, df⟩ ⟨clause', seed', df'⟩ s t hpair hst
  obtain ⟨rfl, rfl⟩ := Prod.mk.inj hpair
  refine .yield (core_addProvenance ?_ rfl rfl)
  have hfields := hst
  simp only [CandidateEvidence.core, CandidateEvidence.mk.injEq] at hfields ⊢
  obtain ⟨h1, -, h3, h4, h5, h6, h7, h8⟩ := hfields
  exact ⟨h1, trivial, h3, h4, by rw [h5], h6, h7, h8⟩

/-- The evidence of a quorum search, up to the texts of the clauses. -/
theorem collectMultiEvidence_core
    (hclauses : List.Forall₂ (fun a b => normalizeAscii (trim a) = normalizeAscii (trim b))
      (clausesOf left) (clausesOf right))
    (hquorum : quorumOf index left = quorumOf index right) {g g' : Gathered}
    (hg : (collectMultiEvidence index overlay left).value = .ok g)
    (hg' : (collectMultiEvidence index overlay right).value = .ok g') :
    coreMap g.evidence = coreMap g'.evidence := by
  unfold collectMultiEvidence at hg hg'
  split at hg
  · cases hg
  · split at hg'
    · cases hg'
    · obtain rfl := Except.ok.inj hg
      obtain rfl := Except.ok.inj hg'
      have hsame := @countClauses_same index overlay _ _ hclauses
      have hloop := Timed.value_each_same (R := fun s t : EvidenceMap × Bool => coreMap s.1 = coreMap t.1)
        (f := quorumStep index left (countClauses index overlay (clausesOf left)).value.sources)
        (g := quorumStep index right (countClauses index overlay (clausesOf right)).value.sources)
        (by
          intro counted s t hst
          unfold quorumStep
          rw [hquorum]
          split
          · exact .yield hst
          · refine .yield ?_
            rw [coreMap_insert, coreMap_insert, hst, quorumEvidence_core]
            rw [← eraseClauses_getD, ← eraseClauses_getD, hsame.sources])
        (countClauses index overlay (clausesOf left)).value.counts.toList
        (s := (∅, (countClauses index overlay (clausesOf left)).value.complete))
        (t := (∅, (countClauses index overlay (clausesOf right)).value.complete)) rfl
      refine hloop.trans ?_
      rw [hsame.counts]

/-- In a quorum search the classified text is the query's own. -/
theorem classifyQuery_multiEvidence {query : Query} (h : (classifyQuery query).1 = .multiEvidence) :
    (classifyQuery query).2 = trim query.text := by
  unfold classifyQuery at h ⊢
  dsimp only at h ⊢
  split
  · rfl
  · next hauto =>
    rw [if_neg hauto] at h
    split
    · next classified htags =>
      -- No tag stands for a quorum search.
      rw [htags] at h
      obtain ⟨entry, hmem, hentry⟩ := List.exists_of_findSome?_eq_some htags
      obtain ⟨rest, -, rfl⟩ := Option.map_eq_some_iff.mp hentry
      have hnone : ∀ entry ∈ modeTags, entry.2 ≠ .multiEvidence := by decide
      exact absurd h (hnone entry hmem)
    · next htags =>
      rw [htags] at h
      split
      · rfl
      · next hevidence =>
        simp only [if_neg hevidence] at h
        split at h
        · cases h
        · split at h <;> cases h

theorem clausesOf_forall₂ (htext : normalizeAscii (trim left.text) = normalizeAscii (trim right.text))
    (hevidence : left.evidence.map (fun clause => normalizeAscii (trim clause)) =
      right.evidence.map fun clause => normalizeAscii (trim clause)) :
    List.Forall₂ (fun a b => normalizeAscii (trim a) = normalizeAscii (trim b)) (clausesOf left) (clausesOf right) := by
  have hrest : List.Forall₂ (fun a b => normalizeAscii (trim a) = normalizeAscii (trim b))
      left.evidence right.evidence :=
    List.forall₂_map_left_iff.mp (List.forall₂_map_right_iff.mp (by
      rw [List.forall₂_eq_eq_eq]
      exact hevidence))
  have hempty : trim left.text = [] ↔ trim right.text = [] := by
    have hnil : ∀ t : Text, t = [] ↔ normalizeAscii t = [] := fun t => (List.map_eq_nil_iff).symm
    rw [hnil, htext, ← hnil]
  unfold clausesOf
  by_cases hnil : trim left.text = []
  · rw [if_pos hnil, if_pos (hempty.mp hnil)]
    exact hrest
  · rw [if_neg hnil, if_neg fun h => hnil (hempty.mpr h)]
    refine .cons ?_ hrest
    rw [normalizeAscii_trim, htext, ← normalizeAscii_trim]

theorem planQuery_eq {query : Query} {plan : Plan} (h : planQuery query = .ok plan) :
    plan.mode = (classifyQuery query).1 ∧ plan.queryText = (classifyQuery query).2 ∧
      plan.normalized = normalizeAscii (classifyQuery query).2 := by
  unfold planQuery at h
  split at h
  · cases h
  · split at h
    · cases h
    · dsimp only at h
      split at h
      · cases h
      · obtain rfl := Except.ok.inj h
        exact ⟨rfl, rfl, rfl⟩

variable (index engine)

/-- Two queries mean the same: their texts agree, a pattern matches what the other
does, and the clauses and the quorum of a quorum search agree. -/
structure Compatible (left right : Query) : Prop where
  text : normalizeAscii (classifyQuery left).2 = normalizeAscii (classifyQuery right).2
  pattern : (classifyQuery left).1 = .regex → ∀ leftMatch rightMatch,
    engine.compile (classifyQuery left).2 = .ok leftMatch →
    engine.compile (classifyQuery right).2 = .ok rightMatch → ∀ text, leftMatch text = rightMatch text
  clauses : (classifyQuery left).1 = .multiEvidence →
    left.evidence.map (fun clause => normalizeAscii (trim clause)) =
      right.evidence.map fun clause => normalizeAscii (trim clause)
  quorum : (classifyQuery left).1 = .multiEvidence → quorumOf index left = quorumOf index right

variable {index engine}

/-- The evidence of queries that mean the same, up to its texts. -/
theorem gather_core (h : Compatible index engine left right)
    (hmode : (classifyQuery left).1 = (classifyQuery right).1)
    (hdepth : left.relationshipDepth = right.relationshipDepth) (hkinds : left.kinds = right.kinds)
    {g g' : Gathered}
    (hg : (gather index overlay engine left (classifyQuery left).1 (classifyQuery left).2
      (normalizeAscii (classifyQuery left).2)).value = .ok g)
    (hg' : (gather index overlay engine right (classifyQuery right).1 (classifyQuery right).2
      (normalizeAscii (classifyQuery right).2)).value = .ok g') :
    coreMap g.evidence = coreMap g'.evidence := by
  rw [← hmode, ← h.text] at hg'
  have hsurface : ∀ mode, mode ≠ .regex →
      (collectSurface index overlay engine mode
        (if mode = .regex then (classifyQuery left).2 else normalizeAscii (classifyQuery left).2) left.kinds).value =
      (collectSurface index overlay engine mode
        (if mode = .regex then (classifyQuery right).2 else normalizeAscii (classifyQuery left).2)
        right.kinds).value := by
    intro mode hne
    rw [if_neg hne, if_neg hne, hkinds]
  cases hcase : (classifyQuery left).1 with
  | relationship =>
    rw [hcase] at hg hg'
    simp only [gather] at hg hg'
    rw [hdepth] at hg
    rw [Except.ok.inj (hg.symm.trans hg')]
  | multiEvidence =>
    rw [hcase] at hg hg'
    have htext := h.text
    rw [classifyQuery_multiEvidence hcase, classifyQuery_multiEvidence (hmode.symm.trans hcase)] at htext
    exact collectMultiEvidence_core (clausesOf_forall₂ htext (h.clauses hcase)) (h.quorum hcase) hg hg'
  | motif | ontology =>
    rw [hcase] at hg hg'
    rw [Except.ok.inj (hg.symm.trans hg')]
  | regex =>
    rw [hcase] at hg hg'
    cases hleft : engine.compile (classifyQuery left).2 with
    | error e => simp [gather, collectSurfaceEvidence, collectSurface, collectRegex, hleft] at hg
    | ok leftMatch =>
      cases hright : engine.compile (classifyQuery right).2 with
      | error e => simp [gather, collectSurfaceEvidence, collectSurface, collectRegex, hright] at hg'
      | ok rightMatch =>
        refine collectSurfaceEvidence_core hkinds ?_ hg hg'
        rw [if_pos rfl, if_pos rfl, hkinds, collectSurface_regex_congr hleft hright
          (h.pattern hcase leftMatch rightMatch hleft hright) h.text]
  | auto | exact | namePrefix | substring | numeric | token =>
    rw [hcase] at hg hg'
    exact collectSurfaceEvidence_core hkinds (hsurface _ (by decide)) hg hg'

/-- Queries with one fingerprint that mean the same have one ranking. -/
theorem same_ranking {left right : Query} (hfingerprint : left.fingerprint = right.fingerprint)
    (h : Compatible index engine left right) {ranked ranked' : List ScoredHit}
    (hranked : rankedList index overlay engine left = .ok ranked)
    (hranked' : rankedList index overlay engine right = .ok ranked') :
    ranked.map ScoredHit.rank = ranked'.map ScoredHit.rank := by
  obtain ⟨hmode, hdepth, hkinds⟩ := fingerprint_parts hfingerprint h.text
  unfold rankedList at hranked hranked'
  split at hranked
  · cases hranked
  · next plan hplan =>
    split at hranked'
    · cases hranked'
    · next plan' hplan' =>
      obtain ⟨hm, ht, hn⟩ := planQuery_eq hplan
      obtain ⟨hm', ht', hn'⟩ := planQuery_eq hplan'
      rw [hm, ht, hn] at hranked
      rw [hm', ht', hn'] at hranked'
      split at hranked
      · cases hranked
      · next g hg =>
        split at hranked'
        · cases hranked'
        · next g' hg' =>
          rw [← Except.ok.inj hranked, ← Except.ok.inj hranked']
          exact ranking_congr (gather_core h hmode hdepth hkinds hg hg')

end Gather

/-- The same words in another case, with a blank at the end. -/
def lowerQuery : Query := { mainQuery with text := "main ".toList }

theorem same_ranking_lower :
    mainQuery.fingerprint = lowerQuery.fingerprint ∧ Compatible sampleIndex plainEngine mainQuery lowerQuery ∧
      ∃ ranked ranked', rankedList sampleIndex (Overlay.empty sampleIndex 3) plainEngine mainQuery = .ok ranked ∧
        rankedList sampleIndex (Overlay.empty sampleIndex 3) plainEngine lowerQuery = .ok ranked' ∧
        ranked.map ScoredHit.rank = ranked'.map ScoredHit.rank ∧ ranked.length = 2 := by
  have hfingerprint : mainQuery.fingerprint = lowerQuery.fingerprint := by decide
  have hcompatible : Compatible sampleIndex plainEngine mainQuery lowerQuery :=
    ⟨by decide, fun h => absurd h (by decide), fun h => absurd h (by decide), fun h => absurd h (by decide)⟩
  obtain ⟨ranked, hranked, hlength⟩ : ∃ ranked,
      rankedList sampleIndex (Overlay.empty sampleIndex 3) plainEngine mainQuery = .ok ranked ∧
        ranked.length = 2 := ⟨_, rfl, by decide +kernel⟩
  obtain ⟨ranked', hranked'⟩ : ∃ ranked',
      rankedList sampleIndex (Overlay.empty sampleIndex 3) plainEngine lowerQuery = .ok ranked' := ⟨_, rfl⟩
  exact ⟨hfingerprint, hcompatible, ranked, ranked', hranked, hranked',
    same_ranking hfingerprint hcompatible hranked hranked', hlength⟩

/-- A quorum search whose second clause nothing matches. -/
def quorumQuery (quorum : Option Nat) : Query :=
  { text := "main".toList, mode := .multiEvidence, evidence := ["zzz".toList], quorum := quorum,
    relationshipDepth := 1, kinds := [] }

/-- Without a quorum the configured two clauses are asked for, with the quorum 0 one;
the fingerprint is the same. -/
theorem missing_quorum_reads_as_zero :
    (quorumQuery none).fingerprint = (quorumQuery (some 0)).fingerprint ∧
      ∃ ranked ranked',
        rankedList sampleIndex (Overlay.empty sampleIndex 3) plainEngine (quorumQuery none) = .ok ranked ∧
        rankedList sampleIndex (Overlay.empty sampleIndex 3) plainEngine (quorumQuery (some 0)) = .ok ranked' ∧
        ranked.map ScoredHit.entityId = [] ∧ ranked'.map ScoredHit.entityId = [0] :=
  ⟨by decide, _, _, rfl, rfl, by decide +kernel, by decide +kernel⟩

end Windy.Bel
