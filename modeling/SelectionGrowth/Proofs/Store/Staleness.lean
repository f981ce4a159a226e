import SelectionGrowth.Proofs.Store.Runs

/-!
# Stale parses

A parse that finishes late is of a text that may be gone by then. Three
comparisons of revisions keep it from being used: when its result arrives, when
a tree is asked for, and when the next parse is to start from it. This file shows
that they suffice, provided that a revision under one key stands for one text.

A request reads the text and then the tree, and other operations may come
between the two.

## Main definitions

- `Store.sourceAcross` — the text of one store and the trees of a later one
- `Store.OneTextPerRevision` — a revision stands for one text during a run

## Main statements

- `Store.setParsed_fst_iff` — when the result of a parse is taken in
- `Store.isOf_of_revision` — a stored parse with the revision of a stored text is of that text
- `Store.served_parses_are_current` — no stale parse is served, redone or taken in
-/

namespace SelectionGrowth

namespace Store

variable {s : Store} {registry : Registry} {parser : Parser} {steps : List StoreStep}
  {key : String} {entry : Entry} {parse : Parse} {document : Document}

/-- What a request sees that reads the text from one store and the tree from a later one. -/
def sourceAcross (earlier later : Store) : Source where
  document? := earlier.source.document?
  tree := later.source.tree

@[simp]
theorem sourceAcross_self (s : Store) : s.sourceAcross s = s.source :=
  rfl

/-- Texts that a run stores under a key at the same revision are equal. -/
def OneTextPerRevision (s : Store) (steps : List StoreStep) (key : String) : Prop :=
  ∀ first second, s.StoredDuring steps key first → s.StoredDuring steps key second →
    first.revision = second.revision → first.text = second.text

theorem OneTextPerRevision.eq {other : Document} (h : s.OneTextPerRevision steps key)
    (hfirst : s.StoredDuring steps key document) (hsecond : s.StoredDuring steps key other)
    (hrevision : document.revision = other.revision) : document = other := by
  have htext := h document other hfirst hsecond hrevision
  cases document
  cases other
  simp_all

-- ════════════════════════════════════════════════════════════════════════
-- What the comparisons of revisions say
-- ════════════════════════════════════════════════════════════════════════

/-- A result is taken in exactly if its document is open at its revision. -/
theorem setParsed_fst_iff : (s.setParsed key parse).1 = true ↔
    ∃ entry, s.get? key = some entry ∧ entry.document.revision = parse.tree.revision := by
  unfold setParsed
  cases hget : s.get? key with
  | none => simp
  | some entry =>
    by_cases hrevision : entry.document.revision = parse.tree.revision
    · simp [hrevision]
    · simp [hrevision]

theorem setParsed_of_fst_eq_false (h : (s.setParsed key parse).1 = false) :
    (s.setParsed key parse).2 = s := by
  rw [setParsed_snd]
  apply modify_eq_self
  intro entry hget
  apply if_neg
  intro hrevision
  have htaken := setParsed_fst_iff.2 ⟨entry, hget, hrevision⟩
  simp [h] at htaken

theorem clearParse_of_ne {revision : Int}
    (h : ∀ entry, s.get? key = some entry → entry.document.revision ≠ revision) :
    s.clearParse key revision = s := by
  rw [clearParse_eq]
  apply modify_eq_self
  intro entry hget
  exact if_neg (h entry hget)

/-- The next parse starts from the stored one only at the revision of the text. -/
theorem editedParse?_eq_some_iff {edits : List Edit} {edited : EditedParse} :
    s.editedParse? key edits = some edited ↔ ∃ entry parse, s.get? key = some entry ∧
      entry.parse = some parse ∧ parse.tree.revision = entry.document.revision ∧
      ⟨parse.listing, edits⟩ = edited := by
  unfold editedParse?
  cases hget : s.get? key with
  | none => simp
  | some entry =>
    cases hparse : entry.parse with
    | none => simp [hparse]
    | some parse => simp [hparse]

-- ════════════════════════════════════════════════════════════════════════
-- Whole runs
-- ════════════════════════════════════════════════════════════════════════

/-- A parse that a run leaves in an entry is of every text that the run has stored at the revision
of the parse. -/
theorem isOf_of_revision (htakes : Store.empty.TakesOwnParses registry parser steps key)
    (htexts : Store.empty.OneTextPerRevision steps key)
    (hget : (Store.empty.run steps).get? key = some entry) (hparse : entry.parse = some parse)
    (hstored : Store.empty.StoredDuring steps key document)
    (hrevision : parse.tree.revision = document.revision) :
    parse.IsOf registry parser document := by
  have hstart : ∀ entry, Store.empty.get? key = some entry → entry.parse = none := by simp
  obtain ⟨parsed, hparsed, hof⟩ := exists_document_of_parse hstart htakes hget hparse
  have hsame : parsed = document :=
    htexts.eq hparsed hstored (hof.revision_eq.symm.trans hrevision)
  exact hsame ▸ hof

/-- A request that reads a text and later a tree gets a tree of that text. -/
theorem isOf_of_snapshot (htakes : Store.empty.TakesOwnParses registry parser steps key)
    (htexts : Store.empty.OneTextPerRevision steps key) {moment : List StoreStep}
    (hmoment : moment <+: steps) {tree : SyntaxTree}
    (hsnap : ((Store.empty.run moment).sourceAcross (Store.empty.run steps)).snapshot key =
      .ok (document, tree)) :
    (∃ parse : Parse, parse.tree = tree ∧ parse.IsOf registry parser document) ∧
      (tree.hasError = true → (Store.empty.run steps).allowErrors = true) := by
  obtain ⟨hdocument, htree, -, -⟩ := Source.snapshot_eq_ok_iff.1 hsnap
  obtain ⟨old, hold, rfl⟩ := Option.map_eq_some_iff.1 hdocument
  obtain ⟨entry, parse, hget, hparse, rfl, hrevision, herrors⟩ := tree_eq_ok_iff.1 htree
  have hstored := (storedDuring_of_get? hold).mono hmoment
  exact ⟨⟨parse, rfl, isOf_of_revision htakes htexts hget hparse hstored hrevision⟩, herrors⟩

/--
After any operations in which every result that is taken in for a document is
the parse of a text stored for it by then, and a revision stands for one text:

* a request that reads the text at one moment and the tree at the end is answered
  over a parse of that very text, which has no errors unless those are allowed;
* a parse that is to be redone with edits is of the current text;
* the result of a parse is taken in exactly if the parsed text is stored, at the
  parsed revision, and otherwise the store stays as it is;
* a failed parse of another revision leaves the store as it is.
-/
theorem served_parses_are_current
    (htakes : Store.empty.TakesOwnParses registry parser steps key)
    (htexts : Store.empty.OneTextPerRevision steps key) (hs : s = Store.empty.run steps) :
    (∀ moment document tree, moment <+: steps →
      ((Store.empty.run moment).sourceAcross s).snapshot key = .ok (document, tree) →
      (∃ parse : Parse, parse.tree = tree ∧ parse.IsOf registry parser document) ∧
        (tree.hasError = true → s.allowErrors = true)) ∧
    (∀ edits edited, s.editedParse? key edits = some edited →
      ∃ entry, ∃ parse : Parse, s.get? key = some entry ∧
        parse.IsOf registry parser entry.document ∧ edited = ⟨parse.listing, edits⟩) ∧
    (∀ document, ∀ parse : Parse, Store.empty.StoredDuring steps key document →
      parse.IsOf registry parser document →
      ((s.setParsed key parse).1 = true ↔
        ∃ entry, s.get? key = some entry ∧ entry.document = document)) ∧
    (∀ parse, (s.setParsed key parse).1 = false → (s.setParsed key parse).2 = s) ∧
    ∀ revision, (∀ entry, s.get? key = some entry → entry.document.revision ≠ revision) →
      s.clearParse key revision = s := by
  subst hs
  refine ⟨?_, ?_, ?_, fun parse => setParsed_of_fst_eq_false, fun revision => clearParse_of_ne⟩
  · intro moment document tree hmoment hsnap
    exact isOf_of_snapshot htakes htexts hmoment hsnap
  · intro edits edited hedited
    obtain ⟨entry, parse, hget, hparse, hrevision, rfl⟩ := editedParse?_eq_some_iff.1 hedited
    have hof := isOf_of_revision htakes htexts hget hparse (storedDuring_of_get? hget) hrevision
    exact ⟨entry, parse, hget, hof, rfl⟩
  · intro document parse hstored hof
    rw [setParsed_fst_iff, hof.revision_eq]
    constructor
    · rintro ⟨entry, hget, hrevision⟩
      exact ⟨entry, hget, htexts.eq (storedDuring_of_get? hget) hstored hrevision⟩
    · rintro ⟨entry, hget, rfl⟩
      exact ⟨entry, hget, rfl⟩

/-- A comment gives way to blanks before its parse is done. -/
def lateResult (comment blanks : Parse) : List StoreStep :=
  [.insert "a" ⟨"// c\n", 1⟩ (some "java"), .updateText "a" ⟨"   \n\t", 2⟩,
    .setParsed "a" comment, .setParsed "a" blanks]

/-- The parse of the comment is not taken in, neither before that of the blanks nor after it, and
the blanks are served with their own tree. -/
theorem served_parses_after_lateResult : ∃ comment blanks : Parse,
    blankParse ⟨"// c\n", 1⟩ = .ok comment ∧ blankParse ⟨"   \n\t", 2⟩ = .ok blanks ∧
    Store.empty.TakesOwnParses Registry.bundled blankParser (lateResult comment blanks) "a" ∧
    Store.empty.OneTextPerRevision (lateResult comment blanks) "a" ∧
    (Store.empty.run (lateResult comment blanks)).source.snapshot "a" =
      .ok (⟨"   \n\t", 2⟩, blanks.tree) ∧
    (∃ parse : Parse, parse.tree = blanks.tree ∧
      parse.IsOf Registry.bundled blankParser ⟨"   \n\t", 2⟩) ∧
    ((Store.empty.run (lateResult comment blanks)).setParsed "a" comment).1 = false ∧
    ((Store.empty.run (lateResult comment blanks)).setParsed "a" comment).2 =
      Store.empty.run (lateResult comment blanks) := by
  have hcomment : (blankParse ⟨"// c\n", 1⟩).map (fun _ => ()) = .ok () := by decide +kernel
  have hblanks : (blankParse ⟨"   \n\t", 2⟩).map (fun parse : Parse =>
      (parse.tree.length, parse.tree.hasError)) =
        .ok ((⟨"   \n\t", 2⟩ : Document).length, false) := by
    decide +kernel
  obtain ⟨comment, hcomment, -⟩ := exists_of_map_eq_ok hcomment
  obtain ⟨blanks, hblanks, hchecked⟩ := exists_of_map_eq_ok hblanks
  obtain ⟨hlength, herrors⟩ := Prod.mk.inj hchecked
  have hofComment : comment.IsOf Registry.bundled blankParser ⟨"// c\n", 1⟩ := ⟨_, _, _, hcomment⟩
  have hofBlanks : blanks.IsOf Registry.bundled blankParser ⟨"   \n\t", 2⟩ := ⟨_, _, _, hblanks⟩
  have hstored : ∀ document, Store.empty.StoredDuring (lateResult comment blanks) "a" document ↔
      ⟨"// c\n", 1⟩ = document ∨ ⟨"   \n\t", 2⟩ = document := by
    intro document
    simp [lateResult, storedDuring_cons_iff, storedDuring_nil_iff, get?_apply,
      StoreStep.entryAfter, hofComment.revision_eq, hofBlanks.revision_eq]
  have hget : (Store.empty.run (lateResult comment blanks)).get? "a" =
      some ⟨⟨"   \n\t", 2⟩, some "java", some blanks⟩ := by
    simp [lateResult, get?_apply, StoreStep.entryAfter, hofComment.revision_eq,
      hofBlanks.revision_eq]
  have htakes : Store.empty.TakesOwnParses Registry.bundled blankParser
      (lateResult comment blanks) "a" := by
    refine (((takesOwnParses_nil.concat ?_).concat ?_).concat ?_).concat ?_
    · simp
    · simp
    · rintro _ ⟨⟩
      refine ⟨⟨"// c\n", 1⟩, ?_, hofComment⟩
      simp [storedDuring_cons_iff, storedDuring_nil_iff, get?_apply, StoreStep.entryAfter]
    · rintro _ ⟨⟩
      refine ⟨⟨"   \n\t", 2⟩, ?_, hofBlanks⟩
      simp [storedDuring_cons_iff, storedDuring_nil_iff, get?_apply, StoreStep.entryAfter]
  have htexts : Store.empty.OneTextPerRevision (lateResult comment blanks) "a" := by
    intro first second hfirst hsecond hrevision
    obtain rfl | rfl := (hstored first).1 hfirst <;> obtain rfl | rfl := (hstored second).1 hsecond
    all_goals simp_all
  have hsnap : (Store.empty.run (lateResult comment blanks)).source.snapshot "a" =
      .ok (⟨"   \n\t", 2⟩, blanks.tree) :=
    snapshot_of_get? hget rfl hofBlanks.revision_eq hlength herrors
  obtain ⟨hserved, -, htaken, hleft, -⟩ := served_parses_are_current htakes htexts rfl
  have hlate : ((Store.empty.run (lateResult comment blanks)).setParsed "a" comment).1 = false := by
    refine Bool.eq_false_iff.2 fun htrue => ?_
    obtain ⟨entry, hentry, hdocument⟩ :=
      (htaken _ comment ((hstored _).2 (Or.inl rfl)) hofComment).1 htrue
    rw [hget, Option.some.injEq] at hentry
    simp [← hentry] at hdocument
  have hcurrent := (hserved _ _ _ List.prefix_rfl (by rwa [sourceAcross_self])).1
  exact ⟨comment, blanks, hcomment, hblanks, htakes, htexts, hsnap, hcurrent, hlate,
    hleft comment hlate⟩

end Store

end SelectionGrowth
