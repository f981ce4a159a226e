import Mathlib.Data.List.Induction
import SelectionGrowth.Proofs.Syntax.Conversion
import SelectionGrowth.Store

/-!
# Runs of a store

Parsing takes a while, so its results reach a store at any later moment: after
further edits, after another result, after the document was closed. A run is a
sequence of the operations of a store in any order. This file says what one
operation does to one document, and where the parse of a stored document comes
from.

## Main definitions

- `StoreStep`, `Store.run` — an operation of a store, and a sequence of them
- `Parse.IsOf` — a parse of a document
- `Store.StoredDuring` — the documents that a run stores under a key
- `Store.TakesOwnParses` — each result that a run takes in is of a text that it has stored

## Main statements

- `Store.get?_apply` — what an operation does to one document
- `Store.exists_document_of_parse` — a stored parse is of a text that the run has stored
-/

namespace SelectionGrowth

/-- An operation that changes a store. -/
inductive StoreStep where
  | insert (key : String) (document : Document) (language : Option String)
  | updateText (key : String) (document : Document)
  | setParsed (key : String) (parse : Parse)
  | clearParse (key : String) (revision : Int)
  | remove (key : String)
  | allowErrors (allow : Bool)

namespace StoreStep

/-- The effect of an operation on the entry of one document. -/
def entryAfter (key : String) (entry : Option Entry) : StoreStep → Option Entry
  | insert other document language =>
    if other = key then some ⟨document, language, none⟩ else entry
  | updateText other document =>
    if other = key then entry.map fun old => { old with document } else entry
  | setParsed other parse =>
    if other = key then
      entry.map fun old =>
        if old.document.revision = parse.tree.revision then { old with parse := some parse }
        else old
    else entry
  | clearParse other revision =>
    if other = key then
      entry.map fun old =>
        if old.document.revision = revision then { old with parse := none } else old
    else entry
  | remove other => if other = key then none else entry
  | allowErrors _ => entry

end StoreStep

/-- What parsing a document gives, in some language and with some kinds, from scratch or redone from
an older listing. -/
def Parse.IsOf (registry : Registry) (parser : Parser) (document : Document) (parse : Parse) :
    Prop :=
  ∃ language kinds base, Parse.of registry parser language kinds base document = .ok parse

theorem Parse.IsOf.revision_eq {registry : Registry} {parser : Parser} {document : Document}
    {parse : Parse} (h : parse.IsOf registry parser document) :
    parse.tree.revision = document.revision := by
  obtain ⟨language, kinds, base, hparse⟩ := h
  exact SyntaxTree.revision_of_build (Parse.of_eq_ok_iff.1 hparse).2

namespace Store

variable {s : Store} {step : StoreStep} {steps : List StoreStep} {key : String} {entry : Entry}
  {parse : Parse} {document : Document}

/-- The store after an operation. -/
def apply (s : Store) : StoreStep → Store
  | .insert key document language => s.insert key document language
  | .updateText key document => (s.updateText key document).2
  | .setParsed key parse => (s.setParsed key parse).2
  | .clearParse key revision => s.clearParse key revision
  | .remove key => (s.remove key).2
  | .allowErrors allow => s.setAllowErrors allow

/-- The store after a sequence of operations. -/
def run (s : Store) (steps : List StoreStep) : Store :=
  steps.foldl apply s

@[simp]
theorem run_nil (s : Store) : s.run [] = s :=
  rfl

@[simp]
theorem run_cons (s : Store) (step : StoreStep) (steps : List StoreStep) :
    s.run (step :: steps) = (s.apply step).run steps :=
  rfl

@[simp]
theorem run_append (s : Store) (first second : List StoreStep) :
    s.run (first ++ second) = (s.run first).run second :=
  List.foldl_append

@[simp]
theorem get?_empty (key : String) : Store.empty.get? key = none :=
  rfl

-- ════════════════════════════════════════════════════════════════════════
-- One operation
-- ════════════════════════════════════════════════════════════════════════

/-- Replaces the entry of an open document by another one made from it. -/
def modify (s : Store) (key : String) (f : Entry → Entry) : Store :=
  match s.get? key with
  | none => s
  | some entry => s.put key (f entry)

theorem put_eq_self (h : s.get? key = some entry) : s.put key entry = s := by
  simp [put, Table.insert_eq_self h]

theorem modify_eq_self {f : Entry → Entry}
    (h : ∀ entry, s.get? key = some entry → f entry = entry) : s.modify key f = s := by
  unfold modify
  split
  · rfl
  · next entry hget => rw [h entry hget, put_eq_self hget]

theorem get?_modify (s : Store) (key : String) (f : Entry → Entry) (other : String) :
    (s.modify key f).get? other = if key = other then (s.get? other).map f else s.get? other := by
  unfold modify
  cases hget : s.get? key with
  | none =>
    by_cases heq : key = other
    · simp [← heq, hget]
    · simp [heq]
  | some entry =>
    by_cases heq : key = other
    · simp [get?_put, ← heq, hget]
    · simp [get?_put, heq]

theorem updateText_snd (s : Store) (key : String) (document : Document) :
    (s.updateText key document).2 = s.modify key fun old => { old with document } := by
  unfold updateText modify
  cases s.get? key <;> rfl

theorem setParsed_snd (s : Store) (key : String) (parse : Parse) :
    (s.setParsed key parse).2 = s.modify key fun old =>
      if old.document.revision = parse.tree.revision then { old with parse := some parse }
      else old := by
  unfold setParsed modify
  cases hget : s.get? key with
  | none => rfl
  | some entry =>
    simp only
    split
    · rfl
    · exact (put_eq_self hget).symm

theorem clearParse_eq (s : Store) (key : String) (revision : Int) :
    s.clearParse key revision = s.modify key fun old =>
      if old.document.revision = revision then { old with parse := none } else old := by
  unfold clearParse modify
  cases hget : s.get? key with
  | none => rfl
  | some entry =>
    simp only
    split
    · rfl
    · exact (put_eq_self hget).symm

/-- A document is served with a parse that agrees with it and has no errors. -/
theorem snapshot_of_get? (hget : s.get? key = some entry) (hparse : entry.parse = some parse)
    (hrevision : parse.tree.revision = entry.document.revision)
    (hlength : parse.tree.length = entry.document.length) (herrors : parse.tree.hasError = false) :
    s.source.snapshot key = .ok (entry.document, parse.tree) := by
  refine Source.snapshot_eq_ok_iff.2 ⟨?_, ?_, hrevision, hlength⟩
  · simp [source, hget]
  · exact tree_eq_ok_iff.2 ⟨entry, parse, hget, hparse, rfl, hrevision, by simp [herrors]⟩

/-- What an operation does to one document. -/
theorem get?_apply (s : Store) (step : StoreStep) (key : String) :
    (s.apply step).get? key = step.entryAfter key (s.get? key) := by
  cases step with
  | insert other document language => exact s.get?_put other _ key
  | updateText other document => rw [apply, updateText_snd, get?_modify]; rfl
  | setParsed other parse => rw [apply, setParsed_snd, get?_modify]; rfl
  | clearParse other revision => rw [apply, clearParse_eq, get?_modify]; rfl
  | remove other => exact s.get?_remove other key
  | allowErrors allow => rfl

/-- A parse that stands in an entry after an operation stood there before, or was taken in by it. -/
theorem parse_cases_of_apply (hget : (s.apply step).get? key = some entry)
    (hparse : entry.parse = some parse) :
    (∃ old, s.get? key = some old ∧ old.parse = some parse) ∨ step = .setParsed key parse := by
  rw [get?_apply] at hget
  cases step with
  | insert other document language =>
    simp only [StoreStep.entryAfter] at hget
    split at hget
    · simp only [Option.some.injEq] at hget
      subst hget
      simp at hparse
    · exact Or.inl ⟨entry, hget, hparse⟩
  | updateText other document =>
    simp only [StoreStep.entryAfter] at hget
    split at hget
    · obtain ⟨old, hold, rfl⟩ := Option.map_eq_some_iff.1 hget
      exact Or.inl ⟨old, hold, hparse⟩
    · exact Or.inl ⟨entry, hget, hparse⟩
  | setParsed other result =>
    simp only [StoreStep.entryAfter] at hget
    split at hget
    · next heq =>
      obtain ⟨old, hold, hentry⟩ := Option.map_eq_some_iff.1 hget
      split at hentry
      · subst hentry
        simp only [Option.some.injEq] at hparse
        exact Or.inr (by rw [heq, hparse])
      · exact Or.inl ⟨old, hold, hentry ▸ hparse⟩
    · exact Or.inl ⟨entry, hget, hparse⟩
  | clearParse other revision =>
    simp only [StoreStep.entryAfter] at hget
    split at hget
    · obtain ⟨old, hold, hentry⟩ := Option.map_eq_some_iff.1 hget
      split at hentry
      · subst hentry
        simp at hparse
      · exact Or.inl ⟨old, hold, hentry ▸ hparse⟩
    · exact Or.inl ⟨entry, hget, hparse⟩
  | remove other =>
    simp only [StoreStep.entryAfter] at hget
    split at hget
    · simp at hget
    · exact Or.inl ⟨entry, hget, hparse⟩
  | allowErrors allow => exact Or.inl ⟨entry, hget, hparse⟩

-- ════════════════════════════════════════════════════════════════════════
-- Runs
-- ════════════════════════════════════════════════════════════════════════

/-- A document that a run stores under a key: before the first operation, or after some of them. -/
def StoredDuring (s : Store) (steps : List StoreStep) (key : String) (document : Document) :
    Prop :=
  ∃ moment, moment <+: steps ∧ ∃ entry, (s.run moment).get? key = some entry ∧
    entry.document = document

theorem StoredDuring.mono {longer : List StoreStep} (h : s.StoredDuring steps key document)
    (hlonger : steps <+: longer) : s.StoredDuring longer key document := by
  obtain ⟨moment, hmoment, hstored⟩ := h
  exact ⟨moment, hmoment.trans hlonger, hstored⟩

theorem storedDuring_of_get? (h : (s.run steps).get? key = some entry) :
    s.StoredDuring steps key entry.document :=
  ⟨steps, List.prefix_rfl, entry, h, rfl⟩

theorem storedDuring_nil_iff : s.StoredDuring [] key document ↔
    ∃ entry, s.get? key = some entry ∧ entry.document = document := by
  simp [StoredDuring]

theorem storedDuring_cons_iff : s.StoredDuring (step :: steps) key document ↔
    (∃ entry, s.get? key = some entry ∧ entry.document = document) ∨
      (s.apply step).StoredDuring steps key document := by
  constructor
  · rintro ⟨moment, hmoment, hstored⟩
    cases moment with
    | nil => exact Or.inl hstored
    | cons first moment =>
      obtain ⟨rfl, hrest⟩ := List.cons_prefix_cons.1 hmoment
      exact Or.inr ⟨moment, hrest, hstored⟩
  · rintro (hstored | ⟨moment, hmoment, hstored⟩)
    · exact ⟨[], List.nil_prefix, hstored⟩
    · exact ⟨step :: moment, List.cons_prefix_cons.2 ⟨rfl, hmoment⟩, hstored⟩

/-- Each result that a run takes in for a document is the parse of a text that the run has stored
for it by then. -/
def TakesOwnParses (s : Store) (registry : Registry) (parser : Parser) (steps : List StoreStep)
    (key : String) : Prop :=
  ∀ moment parse, moment ++ [.setParsed key parse] <+: steps →
    ∃ document, s.StoredDuring moment key document ∧ parse.IsOf registry parser document

variable {registry : Registry} {parser : Parser}

theorem TakesOwnParses.anti {longer : List StoreStep}
    (h : s.TakesOwnParses registry parser longer key) (hlonger : steps <+: longer) :
    s.TakesOwnParses registry parser steps key :=
  fun moment parse hmoment => h moment parse (hmoment.trans hlonger)

theorem takesOwnParses_nil : s.TakesOwnParses registry parser [] key := by
  intro moment parse hmoment
  simp at hmoment

theorem TakesOwnParses.concat (h : s.TakesOwnParses registry parser steps key)
    (hstep : ∀ parse, step = .setParsed key parse →
      ∃ document, s.StoredDuring steps key document ∧ parse.IsOf registry parser document) :
    s.TakesOwnParses registry parser (steps ++ [step]) key := by
  intro moment parse hmoment
  obtain heq | hearlier := List.prefix_concat_iff.1 hmoment
  · obtain ⟨rfl, hlast⟩ := List.append_inj' heq rfl
    exact hstep parse (List.singleton_inj.1 hlast).symm
  · exact h moment parse hearlier

/-- A parse that a run leaves in an entry is of a text that the run has stored for the document. -/
theorem exists_document_of_parse (hstart : ∀ entry, s.get? key = some entry → entry.parse = none)
    (htakes : s.TakesOwnParses registry parser steps key)
    (hget : (s.run steps).get? key = some entry) (hparse : entry.parse = some parse) :
    ∃ document, s.StoredDuring steps key document ∧ parse.IsOf registry parser document := by
  induction steps using List.reverseRecOn generalizing entry with
  | nil =>
    rw [run_nil] at hget
    simp [hstart entry hget] at hparse
  | append_singleton steps step ih =>
    have hlonger : steps <+: steps ++ [step] := List.prefix_append steps [step]
    rw [run_append, run_cons, run_nil] at hget
    obtain ⟨old, hold, hparse⟩ | rfl := parse_cases_of_apply hget hparse
    · obtain ⟨document, hstored, hof⟩ := ih (htakes.anti hlonger) hold hparse
      exact ⟨document, hstored.mono hlonger, hof⟩
    · obtain ⟨document, hstored, hof⟩ := htakes steps parse List.prefix_rfl
      exact ⟨document, hstored.mono hlonger, hof⟩

-- ════════════════════════════════════════════════════════════════════════
-- Two texts of one length
-- ════════════════════════════════════════════════════════════════════════

/-- A parser that knows a comment, and blanks of the same length. -/
def blankParser : Parser := fun _ _ text =>
  Table.find? text
    [("// c\n", ⟨false, [⟨0, "program", 0, 5⟩, ⟨1, "line_comment", 0, 4⟩]⟩),
      ("   \n\t", ⟨false, [⟨0, "program", 5, 5⟩]⟩)]

/-- The parse of a document by the sample parser. -/
def blankParse (document : Document) : Except Failure Parse :=
  Parse.of Registry.bundled blankParser "java" Table.empty none document

end Store

end SelectionGrowth
