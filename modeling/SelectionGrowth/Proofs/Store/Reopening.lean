import SelectionGrowth.Proofs.Store.Staleness

/-!
# Reopened documents

A parse that was started before its document was closed may report after the
document has been opened again. Its report names the key of the document and a
revision, and clients count revisions from the start each time they open a
document. This file says when such a report does no harm: exactly as long as the
reopened document is at another revision, or as neither text has a parse. The
comment and the blanks at the end show a report that does harm.

## Main definitions

- `StoreStep.Reports` — the report of a parse of a text: its result, or that it failed
- `MixedIn` — a list with further elements mixed in
- `Store.Unaffected` — late operations change nothing at any moment of a run

## Main statements

- `Store.forall_reports_iff` — when the reports of a text leave a store as it is
- `Store.run_of_mixedIn` — late operations that change nothing can be left out of a run
- `Store.reports_of_closed_session` — what becomes of the reports of a closed session
-/

namespace SelectionGrowth

/-- The report of a parse of a document: its result, or that it failed. -/
def StoreStep.Reports (registry : Registry) (parser : Parser) (key : String) (document : Document) :
    StoreStep → Prop
  | setParsed other parse => other = key ∧ parse.IsOf registry parser document
  | clearParse other revision => other = key ∧ revision = document.revision
  | _ => False

/-- A list with further elements mixed in anywhere. -/
inductive MixedIn {α : Type} (further : α → Prop) : List α → List α → Prop
  | nil : MixedIn further [] []
  | keep (x : α) {xs ys : List α} : MixedIn further xs ys → MixedIn further (x :: xs) (x :: ys)
  | mix {x : α} {xs ys : List α} : further x → MixedIn further xs ys → MixedIn further xs (x :: ys)

namespace Store

variable {s : Store} {registry : Registry} {parser : Parser} {key : String}

-- ════════════════════════════════════════════════════════════════════════
-- One report
-- ════════════════════════════════════════════════════════════════════════

/-- The reports of a text leave a store as it is exactly if the document is not open at the revision
of the text, or is open at it without a parse while the text has none either. -/
theorem forall_reports_iff {document : Document} :
    (∀ report : StoreStep, report.Reports registry parser key document → s.apply report = s) ↔
      ∀ entry, s.get? key = some entry → entry.document.revision = document.revision →
        entry.parse = none ∧ ∀ parse : Parse, ¬ parse.IsOf registry parser document := by
  constructor
  · intro h entry hget hrevision
    have hcleared : entry.parse = none := by
      have hsame := congrArg (fun s : Store => s.get? key)
        (h (.clearParse key document.revision) ⟨rfl, rfl⟩)
      simp only [get?_apply, StoreStep.entryAfter, hget, hrevision, if_true, Option.map_some,
        Option.some.injEq] at hsame
      exact (congrArg Entry.parse hsame).symm
    refine ⟨hcleared, fun parse hof => ?_⟩
    have hsame := congrArg (fun s : Store => s.get? key) (h (.setParsed key parse) ⟨rfl, hof⟩)
    simp only [get?_apply, StoreStep.entryAfter, hget, hrevision, hof.revision_eq, if_true,
      Option.map_some, Option.some.injEq] at hsame
    have htaken : some parse = entry.parse := congrArg Entry.parse hsame
    simp [hcleared] at htaken
  · intro h report hreport
    cases report with
    | setParsed other parse =>
      obtain ⟨rfl, hof⟩ := hreport
      rw [apply, setParsed_snd]
      apply modify_eq_self
      intro entry hget
      apply if_neg
      intro hrevision
      exact (h entry hget (hrevision.trans hof.revision_eq)).2 parse hof
    | clearParse other revision =>
      obtain ⟨rfl, rfl⟩ := hreport
      rw [apply, clearParse_eq]
      apply modify_eq_self
      intro entry hget
      split
      · next hrevision => rw [← (h entry hget hrevision).1]
      · rfl
    | _ => exact hreport.elim

-- ════════════════════════════════════════════════════════════════════════
-- Runs with reports mixed in
-- ════════════════════════════════════════════════════════════════════════

/-- Late operations change nothing, whenever during a run they arrive. -/
def Unaffected (s : Store) (steps : List StoreStep) (late : StoreStep → Prop) : Prop :=
  ∀ moment, moment <+: steps → ∀ step, late step → (s.run moment).apply step = s.run moment

theorem Unaffected.tail {step : StoreStep} {steps : List StoreStep} {late : StoreStep → Prop}
    (h : s.Unaffected (step :: steps) late) : (s.apply step).Unaffected steps late := by
  intro moment hmoment
  exact h (step :: moment) (List.cons_prefix_cons.2 ⟨rfl, hmoment⟩)

/-- Late operations that change nothing can be left out of a run. -/
theorem run_of_mixedIn {late : StoreStep → Prop} {steps mixed : List StoreStep}
    (hmixed : MixedIn late steps mixed) (h : s.Unaffected steps late) :
    s.run mixed = s.run steps := by
  induction hmixed generalizing s with
  | nil => rfl
  | keep step _ ih =>
    rw [run_cons, run_cons]
    exact ih h.tail
  | @mix step steps mixed hlate _ ih =>
    have hnow : s.apply step = s := h [] List.nil_prefix step hlate
    rw [run_cons, hnow]
    exact ih h

/-- The reports of any of some texts. -/
def ReportsOneOf (registry : Registry) (parser : Parser) (key : String) (texts : Document → Prop)
    (report : StoreStep) : Prop :=
  ∃ document, texts document ∧ report.Reports registry parser key document

theorem unaffected_iff {texts : Document → Prop} {steps : List StoreStep} :
    s.Unaffected steps (ReportsOneOf registry parser key texts) ↔
      ∀ moment entry old, moment <+: steps → (s.run moment).get? key = some entry → texts old →
        entry.document.revision = old.revision →
        entry.parse = none ∧ ∀ parse : Parse, ¬ parse.IsOf registry parser old := by
  constructor
  · intro h moment entry old hmoment hget hold
    refine forall_reports_iff.1 (fun report hreport => ?_) entry hget
    exact h moment hmoment report ⟨old, hold, hreport⟩
  · rintro h moment hmoment report ⟨old, hold, hreport⟩
    refine forall_reports_iff.2 (fun entry hget => ?_) report hreport
    exact h moment entry old hmoment hget hold

/--
A document is closed, and opened again later. The reports of parses that were
started before the closing change nothing at any moment since, exactly if whenever
the reopened document is at the revision of a text of the closed session, it has
no parse and that text has none either; in particular if it uses no revision of
the closed session. Then such reports may be mixed into all that happens since
and make no difference; and if all other results are of texts of the reopened
document, so is the parse that it has in the end.
-/
theorem reports_of_closed_session (registry : Registry) (parser : Parser)
    {earlier between : List StoreStep} {document : Document} {language : Option String}
    (since : List StoreStep) {start : Store} {late : StoreStep → Prop}
    (hstart : start = Store.empty.run
      (earlier ++ .remove key :: between ++ [.insert key document language]))
    (hlate : late = ReportsOneOf registry parser key (Store.empty.StoredDuring earlier key)) :
    (start.Unaffected since late ↔
      ∀ moment entry old, moment <+: since → (start.run moment).get? key = some entry →
        Store.empty.StoredDuring earlier key old → entry.document.revision = old.revision →
        entry.parse = none ∧ ∀ parse : Parse, ¬ parse.IsOf registry parser old) ∧
    ((∀ old text, Store.empty.StoredDuring earlier key old → start.StoredDuring since key text →
        text.revision ≠ old.revision) →
      start.Unaffected since late) ∧
    (start.Unaffected since late → ∀ mixed, MixedIn late since mixed →
      start.run mixed = start.run since ∧
      (start.TakesOwnParses registry parser since key →
        ∀ entry parse, (start.run mixed).get? key = some entry → entry.parse = some parse →
          ∃ text, start.StoredDuring since key text ∧ parse.IsOf registry parser text)) := by
  subst hlate
  refine ⟨unaffected_iff, fun hapart => ?_, fun hunaffected mixed hmixed => ?_⟩
  · refine unaffected_iff.2 fun moment entry old hmoment hget hold hrevision => ?_
    exact absurd hrevision (hapart old entry.document hold ⟨moment, hmoment, entry, hget, rfl⟩)
  · have hsame := run_of_mixedIn hmixed hunaffected
    refine ⟨hsame, fun htakes entry parse hget hparse => ?_⟩
    have hcleared : ∀ entry, start.get? key = some entry → entry.parse = none := by
      intro entry hentry
      rw [hstart, run_append, run_cons, run_nil, get?_apply] at hentry
      simp only [StoreStep.entryAfter, if_true, Option.some.injEq] at hentry
      rw [← hentry]
    rw [hsame] at hget
    exact exists_document_of_parse hcleared htakes hget hparse

/-- The session of a comment, before it is closed. -/
def commentOpened : List StoreStep :=
  [.insert "a" ⟨"// c\n", 1⟩ (some "java")]

/-- The comment is closed, and the document opened again with blanks at some revision. -/
def reopened (revision : Int) : Store :=
  Store.empty.run (commentOpened ++ .remove "a" :: [] ++
    [.insert "a" ⟨"   \n\t", revision⟩ (some "java")])

theorem get?_reopened (revision : Int) : (reopened revision).get? "a" =
    some ⟨⟨"   \n\t", revision⟩, some "java", none⟩ := by
  simp [reopened, get?_apply, StoreStep.entryAfter]

theorem storedDuring_commentOpened_iff {old : Document} :
    Store.empty.StoredDuring commentOpened "a" old ↔ ⟨"// c\n", 1⟩ = old := by
  simp [commentOpened, storedDuring_cons_iff, storedDuring_nil_iff, get?_apply,
    StoreStep.entryAfter]

/-- Opened again at its second revision, the document is not touched by the reports of the
comment. -/
theorem reports_of_closed_comment : ∃ comment blanks : Parse,
    blankParse ⟨"// c\n", 1⟩ = .ok comment ∧ blankParse ⟨"   \n\t", 2⟩ = .ok blanks ∧
    (reopened 2).run [.setParsed "a" comment, .setParsed "a" blanks, .clearParse "a" 1] =
      (reopened 2).run [.setParsed "a" blanks] ∧
    ((reopened 2).run [.setParsed "a" comment, .setParsed "a" blanks, .clearParse "a" 1]).get? "a" =
      some ⟨⟨"   \n\t", 2⟩, some "java", some blanks⟩ ∧
    ∃ text, (reopened 2).StoredDuring [.setParsed "a" blanks] "a" text ∧
      blanks.IsOf Registry.bundled blankParser text := by
  have hcomment : (blankParse ⟨"// c\n", 1⟩).map (fun _ => ()) = .ok () := by decide +kernel
  have hblanks : (blankParse ⟨"   \n\t", 2⟩).map (fun _ => ()) = .ok () := by decide +kernel
  obtain ⟨comment, hcomment, -⟩ := exists_of_map_eq_ok hcomment
  obtain ⟨blanks, hblanks, -⟩ := exists_of_map_eq_ok hblanks
  have hofComment : comment.IsOf Registry.bundled blankParser ⟨"// c\n", 1⟩ := ⟨_, _, _, hcomment⟩
  have hofBlanks : blanks.IsOf Registry.bundled blankParser ⟨"   \n\t", 2⟩ := ⟨_, _, _, hblanks⟩
  have hstored : ∀ text, (reopened 2).StoredDuring [.setParsed "a" blanks] "a" text ↔
      ⟨"   \n\t", 2⟩ = text := by
    intro text
    simp [storedDuring_cons_iff, storedDuring_nil_iff, get?_apply, StoreStep.entryAfter,
      get?_reopened, hofBlanks.revision_eq]
  have hstart : reopened 2 = Store.empty.run (commentOpened ++ .remove "a" :: [] ++
      [.insert "a" ⟨"   \n\t", 2⟩ (some "java")]) := rfl
  obtain ⟨-, hapart, hmixes⟩ := reports_of_closed_session Registry.bundled blankParser
    [.setParsed "a" blanks] hstart rfl
  have hunaffected : (reopened 2).Unaffected [.setParsed "a" blanks]
      (ReportsOneOf Registry.bundled blankParser "a"
        (Store.empty.StoredDuring commentOpened "a")) := by
    refine hapart fun old text hold htext => ?_
    obtain rfl := storedDuring_commentOpened_iff.1 hold
    obtain rfl := (hstored text).1 htext
    decide
  have hlate := storedDuring_commentOpened_iff.2 rfl
  obtain ⟨hsame, hparses⟩ := hmixes hunaffected
    [.setParsed "a" comment, .setParsed "a" blanks, .clearParse "a" 1]
    (.mix ⟨_, hlate, rfl, hofComment⟩ (.keep _ (.mix ⟨_, hlate, rfl, rfl⟩ .nil)))
  have htakes : (reopened 2).TakesOwnParses Registry.bundled blankParser
      [.setParsed "a" blanks] "a" := by
    refine takesOwnParses_nil.concat ?_
    rintro _ ⟨⟩
    refine ⟨⟨"   \n\t", 2⟩, ?_, hofBlanks⟩
    simp [storedDuring_nil_iff, get?_reopened]
  have hget : ((reopened 2).run [.setParsed "a" comment, .setParsed "a" blanks,
      .clearParse "a" 1]).get? "a" = some ⟨⟨"   \n\t", 2⟩, some "java", some blanks⟩ := by
    simp [hsame, get?_apply, StoreStep.entryAfter, get?_reopened, hofBlanks.revision_eq]
  exact ⟨comment, blanks, hcomment, hblanks, hsame, hget, hparses htakes _ _ hget rfl⟩

/-- Opened again at its first revision, the document takes in the parse of the comment as its own
and serves the tree of the comment with the blanks. A failed parse of the comment makes it lose its
own tree. -/
theorem reports_reach_reopened_document : ∃ comment blanks : Parse,
    blankParse ⟨"// c\n", 1⟩ = .ok comment ∧ blankParse ⟨"   \n\t", 1⟩ = .ok blanks ∧
    ¬ (reopened 1).Unaffected [] (ReportsOneOf Registry.bundled blankParser "a"
      (Store.empty.StoredDuring commentOpened "a")) ∧
    ((reopened 1).setParsed "a" comment).1 = true ∧
    ((reopened 1).setParsed "a" comment).2.source.snapshot "a" =
      .ok (⟨"   \n\t", 1⟩, comment.tree) ∧
    ¬ comment.IsOf Registry.bundled blankParser ⟨"   \n\t", 1⟩ ∧
    ((reopened 1).setParsed "a" blanks).2.source.snapshot "a" =
      .ok (⟨"   \n\t", 1⟩, blanks.tree) ∧
    (((reopened 1).setParsed "a" blanks).2.clearParse "a" 1).source.snapshot "a" =
      .error (.unparseable (.noTree "a" (some "java"))) := by
  have hcomment : (blankParse ⟨"// c\n", 1⟩).map (fun parse : Parse =>
      (parse.listing.nodes.length, parse.tree.length, parse.tree.hasError)) =
        .ok (2, (⟨"   \n\t", 1⟩ : Document).length, false) := by
    decide +kernel
  have hblanks : (blankParse ⟨"   \n\t", 1⟩).map (fun parse : Parse =>
      (parse.tree.length, parse.tree.hasError)) =
        .ok ((⟨"   \n\t", 1⟩ : Document).length, false) := by
    decide +kernel
  obtain ⟨comment, hcomment, hchecked⟩ := exists_of_map_eq_ok hcomment
  obtain ⟨blanks, hblanks, hchecked'⟩ := exists_of_map_eq_ok hblanks
  simp only [Prod.mk.injEq] at hchecked hchecked'
  obtain ⟨hnodes, hlength, herrors⟩ := hchecked
  obtain ⟨hlength', herrors'⟩ := hchecked'
  have hof : comment.IsOf Registry.bundled blankParser ⟨"// c\n", 1⟩ := ⟨_, _, _, hcomment⟩
  have hof' : blanks.IsOf Registry.bundled blankParser ⟨"   \n\t", 1⟩ := ⟨_, _, _, hblanks⟩
  have hget := get?_setParsed (get?_reopened 1) hof.revision_eq "a"
  have hget' := get?_setParsed (get?_reopened 1) hof'.revision_eq "a"
  rw [if_pos rfl] at hget hget'
  refine ⟨comment, blanks, hcomment, hblanks, fun hunaffected => ?_, ?_, ?_, ?_, ?_, ?_⟩
  · obtain ⟨-, hnone⟩ := unaffected_iff.1 hunaffected [] _ _ List.nil_prefix (get?_reopened 1)
      (storedDuring_commentOpened_iff.2 rfl) rfl
    exact hnone comment hof
  · exact setParsed_fst_iff.2 ⟨_, get?_reopened 1, hof.revision_eq.symm⟩
  · exact snapshot_of_get? hget rfl hof.revision_eq hlength herrors
  · rintro ⟨language, kinds, base, hofBlanks⟩
    have hlisting := (Parse.of_eq_ok_iff.1 hofBlanks).1
    simp only [Registry.listing?] at hlisting
    split at hlisting
    · simp at hlisting
    · have hblank : ⟨false, [⟨0, "program", 5, 5⟩]⟩ = comment.listing := by
        simpa [blankParser, Table.find?] using hlisting
      simp [← hblank] at hnodes
  · exact snapshot_of_get? hget' rfl hof'.revision_eq hlength' herrors'
  · have hcleared := get?_clearParse hget' "a"
    rw [if_pos rfl] at hcleared
    simp [Source.snapshot, source, Store.tree, hcleared, bind, Except.bind]

end Store

end SelectionGrowth
