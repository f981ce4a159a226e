import Mathlib.Data.List.Chain
import Mathlib.Data.List.Induction
import SelectionGrowth.Selection.History

/-!
# Histories of growth steps

A new step is compared with the latest one only, and so is a range to shrink.
That the whole history of a document can nevertheless be retraced rests on its
steps being linked: each starts where the one before it ended. This file carries
that fact through any sequence of operations on any documents.

## Main definitions

- `HistoryCall`, `History.run` — an operation on a history, and a sequence of them
- `GrowthStep.Linked` — steps that start where the one before ended
- `History.latest?` — where the latest step of a document ended
- `History.retrace` — the answers to shrinking again and again, with other operations between

## Main statements

- `History.shrink_cases` — what shrinking can do
- `History.linked_run` — after every run the steps of every document are linked
- `History.retrace_eq` — linked steps are retraced from the latest to the first
- `History.retrace_after_run` — shrinking in every history that operations can lead to
-/

namespace SelectionGrowth

/-- An operation that changes a history. -/
inductive HistoryCall where
  | record (key : String) (source target : Range)
  | shrink (key : String) (current : Range)
  | clear (key : String)

/-- The document that an operation is about. -/
def HistoryCall.key : HistoryCall → String
  | record key _ _ => key
  | shrink key _ => key
  | clear key => key

/-- Steps, the latest first, of which each starts where the one before it ended. -/
def GrowthStep.Linked (steps : List GrowthStep) : Prop :=
  steps.IsChain fun later earlier => earlier.target = later.source

namespace GrowthStep.Linked

variable {steps : List GrowthStep}

theorem cons_continued (h : GrowthStep.Linked steps) (source target : Range) :
    GrowthStep.Linked (⟨source, target⟩ :: History.continued steps source) := by
  cases steps with
  | nil => exact List.isChain_singleton _
  | cons latest earlier =>
    rw [History.continued]
    split
    · next hcontinues => exact List.isChain_cons_cons.2 ⟨hcontinues, h⟩
    · exact List.isChain_singleton _

/-- A step that was linked to those before it continues them. -/
theorem continued_eq {step : GrowthStep} (h : GrowthStep.Linked (step :: steps)) :
    History.continued steps step.source = steps := by
  cases steps with
  | nil => rfl
  | cons latest earlier => exact if_pos (List.isChain_cons_cons.1 h).1

theorem tail {step : GrowthStep} (h : GrowthStep.Linked (step :: steps)) :
    GrowthStep.Linked steps :=
  (List.isChain_cons.1 h).2

end GrowthStep.Linked

namespace History

variable {h : History} {key : String} {current : Range}

-- ════════════════════════════════════════════════════════════════════════
-- One operation
-- ════════════════════════════════════════════════════════════════════════

theorem stepsOf_insert (h : History) (key : String) (steps : List GrowthStep) (other : String) :
    (History.mk (h.steps.insert key steps)).stepsOf other =
      if key = other then steps else h.stepsOf other := by
  unfold stepsOf
  split
  · next heq => rw [← heq, Table.get?_insert_self, Option.getD_some]
  · next hne => rw [Table.get?_insert_of_ne _ fun heq => hne heq.symm]

theorem stepsOf_clear (h : History) (key other : String) :
    (h.clear key).stepsOf other = if key = other then [] else h.stepsOf other := by
  unfold stepsOf clear
  split
  · next heq => rw [← heq, Table.get?_erase_self, Option.getD_none]
  · next hne => rw [Table.get?_erase_of_ne _ fun heq => hne heq.symm]

theorem get?_of_stepsOf {h : History} {key : String} {step : GrowthStep}
    {earlier : List GrowthStep} (hsteps : h.stepsOf key = step :: earlier) :
    h.steps.get? key = some (step :: earlier) := by
  unfold stepsOf at hsteps
  cases hget : h.steps.get? key with
  | none =>
    rw [hget] at hsteps
    exact nomatch hsteps
  | some steps =>
    rw [hget] at hsteps
    exact congrArg some hsteps

theorem mem_of_mem_continued {steps : List GrowthStep} {source : Range} {step : GrowthStep}
    (h : step ∈ continued steps source) : step ∈ steps := by
  unfold continued at h
  split at h
  · exact h
  · split at h
    · exact h
    · exact absurd h List.not_mem_nil

/-- The range at which the latest step of a document ended. -/
def latest? (h : History) (key : String) : Option Range :=
  (h.stepsOf key).head?.map GrowthStep.target

theorem latest?_of_stepsOf {step : GrowthStep} {earlier : List GrowthStep}
    (hsteps : h.stepsOf key = step :: earlier) : h.latest? key = some step.target := by
  simp [latest?, hsteps]

/-- All steps are continued if there are none or the latest ended at the range; else none are. -/
theorem continued_stepsOf (h : History) (key : String) (source : Range) :
    continued (h.stepsOf key) source =
      if h.stepsOf key = [] ∨ h.latest? key = some source then h.stepsOf key else [] := by
  cases hsteps : h.stepsOf key with
  | nil => simp [continued]
  | cons step earlier => simp [continued, latest?_of_stepsOf hsteps]

/-- Shrinking takes back the latest step if it ended at the range, and changes nothing otherwise. -/
theorem shrink_cases (h : History) (key : String) (current : Range) :
    (∃ source earlier, h.stepsOf key = ⟨source, current⟩ :: earlier ∧
      h.shrink key current = (some source, ⟨h.steps.insert key earlier⟩)) ∨
    h.latest? key ≠ some current ∧ h.shrink key current = (none, h) := by
  unfold shrink
  cases hsteps : h.stepsOf key with
  | nil =>
    right
    simp [latest?, hsteps]
  | cons step earlier =>
    by_cases htarget : step.target = current
    · left
      subst htarget
      exact ⟨step.source, earlier, rfl, if_pos rfl⟩
    · right
      rw [latest?_of_stepsOf hsteps]
      exact ⟨fun heq => htarget (Option.some.inj heq), if_neg htarget⟩

theorem shrink_of_stepsOf {step : GrowthStep} {earlier : List GrowthStep}
    (hsteps : h.stepsOf key = step :: earlier) :
    h.shrink key step.target = (some step.source, ⟨h.steps.insert key earlier⟩) := by
  simp [shrink, hsteps]

theorem shrink_of_latest?_ne (hne : h.latest? key ≠ some current) :
    h.shrink key current = (none, h) := by
  rcases h.shrink_cases key current with ⟨source, earlier, hsteps, -⟩ | ⟨-, hsame⟩
  · exact absurd (latest?_of_stepsOf hsteps) hne
  · exact hsame

/-- Shrinking right after a step was recorded takes that step back, and no more. -/
theorem shrink_record (h : History) (key : String) (source target : Range) :
    ((h.record key source target).shrink key target).1 = some source ∧
    ((h.record key source target).shrink key target).2.stepsOf key =
      continued (h.stepsOf key) source := by
  have hsteps : (h.record key source target).stepsOf key =
      ⟨source, target⟩ :: continued (h.stepsOf key) source := by
    unfold record
    rw [stepsOf_insert, if_pos rfl]
  rw [shrink_of_stepsOf hsteps, stepsOf_insert, if_pos rfl]
  exact ⟨rfl, rfl⟩

-- ════════════════════════════════════════════════════════════════════════
-- Runs
-- ════════════════════════════════════════════════════════════════════════

/-- The history after an operation. -/
def apply (h : History) : HistoryCall → History
  | .record key source target => h.record key source target
  | .shrink key current => (h.shrink key current).2
  | .clear key => h.clear key

/-- The history after a sequence of operations. -/
def run (h : History) (calls : List HistoryCall) : History :=
  calls.foldl apply h

/-- An operation leaves the steps of other documents alone. -/
theorem stepsOf_apply_of_ne {call : HistoryCall} (hne : call.key ≠ key) :
    (h.apply call).stepsOf key = h.stepsOf key := by
  cases call with
  | record other source target => exact (h.stepsOf_insert other _ key).trans (if_neg hne)
  | shrink other range =>
    show (h.shrink other range).2.stepsOf key = h.stepsOf key
    rcases h.shrink_cases other range with ⟨source, earlier, -, hshrink⟩ | ⟨-, hsame⟩
    · rw [hshrink]
      exact (h.stepsOf_insert other earlier key).trans (if_neg hne)
    · rw [hsame]
  | clear other => exact (h.stepsOf_clear other key).trans (if_neg hne)

theorem stepsOf_run_of_forall_ne {calls : List HistoryCall} (hne : ∀ call ∈ calls, call.key ≠ key) :
    (h.run calls).stepsOf key = h.stepsOf key := by
  induction calls generalizing h with
  | nil => rfl
  | cons call calls ih =>
    have hcall := stepsOf_apply_of_ne (h := h) (hne call List.mem_cons_self)
    exact (ih fun other hother => hne other (List.mem_cons_of_mem call hother)).trans hcall

/-- An operation keeps the steps of its own document linked. -/
theorem linked_apply (hlinked : ∀ key, GrowthStep.Linked (h.stepsOf key)) (call : HistoryCall)
    (key : String) : GrowthStep.Linked ((h.apply call).stepsOf key) := by
  by_cases hkey : call.key = key
  · subst hkey
    cases call with
    | record key source target =>
      show GrowthStep.Linked ((h.record key source target).stepsOf key)
      unfold record
      rw [stepsOf_insert, if_pos rfl]
      exact (hlinked key).cons_continued source target
    | shrink key range =>
      show GrowthStep.Linked ((h.shrink key range).2.stepsOf key)
      rcases h.shrink_cases key range with ⟨source, earlier, hsteps, hshrink⟩ | ⟨-, hsame⟩
      · have hall := hlinked key
        rw [hsteps] at hall
        rw [hshrink, stepsOf_insert, if_pos rfl]
        exact hall.tail
      · rw [hsame]
        exact hlinked key
    | clear key =>
      show GrowthStep.Linked ((h.clear key).stepsOf key)
      rw [stepsOf_clear, if_pos rfl]
      exact List.isChain_nil
  · rw [stepsOf_apply_of_ne hkey]
    exact hlinked key

/-- After every run the steps of every document are linked. -/
theorem linked_run (calls : List HistoryCall) (key : String) :
    GrowthStep.Linked ((empty.run calls).stepsOf key) := by
  induction calls using List.reverseRecOn generalizing key with
  | nil => exact List.isChain_nil
  | append_singleton calls call ih =>
    have hsnoc : empty.run (calls ++ [call]) = (empty.run calls).apply call := List.foldl_concat ..
    rw [hsnoc]
    exact linked_apply ih call key

-- ════════════════════════════════════════════════════════════════════════
-- Retracing
-- ════════════════════════════════════════════════════════════════════════

/--
The answers to shrinking from a range, and then from each range that was answered.
Before each request come further operations; an empty answer is the last.
-/
def retrace (h : History) (key : String) (current : Range) :
    List (List HistoryCall) → List (Option Range)
  | [] => []
  | others :: rest =>
    match (h.run others).shrink key current with
    | (none, _) => [none]
    | (some previous, shrunk) => some previous :: shrunk.retrace key previous rest

/-- Linked steps are retraced from the latest to the first, whatever is done to other documents. -/
theorem retrace_eq {steps : List GrowthStep} (hsteps : h.stepsOf key = steps)
    (hlinked : GrowthStep.Linked steps) (hlatest : ∀ step ∈ steps.head?, step.target = current)
    {between : List (List HistoryCall)} (hlength : between.length = steps.length + 1)
    (hothers : ∀ others ∈ between, ∀ call ∈ others, call.key ≠ key) :
    h.retrace key current between = steps.map (fun step => some step.source) ++ [none] := by
  induction steps generalizing h current between with
  | nil =>
    obtain ⟨others, rfl⟩ := List.length_eq_one_iff.1 hlength
    have hkept := stepsOf_run_of_forall_ne (h := h) (hothers others List.mem_cons_self)
    have hnone : (h.run others).latest? key ≠ some current := by simp [latest?, hkept, hsteps]
    simp [retrace, shrink_of_latest?_ne hnone]
  | cons step earlier ih =>
    obtain ⟨others, rest, rfl⟩ := List.exists_cons_of_length_eq_add_one hlength
    have hkept := stepsOf_run_of_forall_ne (h := h) (hothers others List.mem_cons_self)
    have hshrink := shrink_of_stepsOf (hkept.trans hsteps)
    obtain rfl : step.target = current := hlatest step rfl
    obtain ⟨hbefore, hrest⟩ := List.isChain_cons.1 hlinked
    have hretraced := ih (h := ⟨(h.run others).steps.insert key earlier⟩)
      (by rw [stepsOf_insert, if_pos rfl]) hrest hbefore (Nat.succ.inj hlength)
      fun calls hcalls => hothers calls (List.mem_cons_of_mem others hcalls)
    simp [retrace, hshrink, hretraced]

/--
After any operations on any documents the steps of a document are linked.
Shrinking from where the latest step ended, and then from each range answered,
retraces all of them and then has no answer, whatever is done to other documents
between. Shrinking from any other range has no answer and changes nothing. A step
that is recorded and taken back leaves the steps as they were if it continued
them, and none otherwise.
-/
theorem retrace_after_run (calls : List HistoryCall) (key : String) {h : History}
    (hh : h = History.empty.run calls) :
    GrowthStep.Linked (h.stepsOf key) ∧
    (∀ current between, h.latest? key = some current → between.length = h.depth key + 1 →
      (∀ others ∈ between, ∀ call ∈ others, call.key ≠ key) →
      h.retrace key current between =
        (h.stepsOf key).map (fun step => some step.source) ++ [none]) ∧
    (∀ current, h.latest? key ≠ some current → h.shrink key current = (none, h)) ∧
    ∀ source target,
      ((h.record key source target).shrink key target).1 = some source ∧
      ((h.record key source target).shrink key target).2.stepsOf key =
        if h.stepsOf key = [] ∨ h.latest? key = some source then h.stepsOf key else [] := by
  have hlinked : GrowthStep.Linked (h.stepsOf key) := by
    rw [hh]
    exact linked_run calls key
  refine ⟨hlinked, ?_, fun _ => shrink_of_latest?_ne, fun source target => ?_⟩
  · intro current between hlatest hlength hothers
    refine retrace_eq rfl hlinked (fun step hstep => ?_) hlength hothers
    simpa [latest?, Option.mem_def.1 hstep] using hlatest
  · rw [← continued_stepsOf]
    exact h.shrink_record key source target

/-- A range inside one line. -/
def lineRange (line : Nat) : Range :=
  ⟨⟨line, 0⟩, ⟨line, 1⟩⟩

/-- Two documents in turn, a step that grows nothing, and a session that starts anew. -/
def twoDocumentCalls : List HistoryCall :=
  [.record "a" (lineRange 7) (lineRange 8), .record "a" (lineRange 1) (lineRange 2),
    .record "b" (lineRange 2) (lineRange 3), .record "a" (lineRange 2) (lineRange 2),
    .shrink "b" (lineRange 9), .record "a" (lineRange 2) (lineRange 3)]

/-- What is done to the other document before each of the four requests to shrink. -/
def otherDocumentCalls : List (List HistoryCall) :=
  [[.record "b" (lineRange 3) (lineRange 4)], [.clear "b", .shrink "b" (lineRange 3)], [],
    [.record "b" (lineRange 1) (lineRange 2)]]

/-- Three steps are retraced, the one that grew nothing among them, and the fourth request has no
answer. -/
theorem retrace_of_twoDocuments :
    (History.empty.run twoDocumentCalls).latest? "a" = some (lineRange 3) ∧
    otherDocumentCalls.length = (History.empty.run twoDocumentCalls).depth "a" + 1 ∧
    (∀ others ∈ otherDocumentCalls, ∀ call ∈ others, call.key ≠ "a") ∧
    (History.empty.run twoDocumentCalls).retrace "a" (lineRange 3) otherDocumentCalls =
      [some (lineRange 2), some (lineRange 2), some (lineRange 1), none] := by
  have hlatest : (History.empty.run twoDocumentCalls).latest? "a" = some (lineRange 3) := by
    decide +kernel
  have hlength : otherDocumentCalls.length =
      (History.empty.run twoDocumentCalls).depth "a" + 1 := by
    decide +kernel
  have hothers : ∀ others ∈ otherDocumentCalls, ∀ call ∈ others, call.key ≠ "a" := by
    decide +kernel
  have hsteps : (History.empty.run twoDocumentCalls).stepsOf "a" =
      [⟨lineRange 2, lineRange 3⟩, ⟨lineRange 2, lineRange 2⟩, ⟨lineRange 1, lineRange 2⟩] := by
    decide +kernel
  have hretraced := (retrace_after_run twoDocumentCalls "a" rfl).2.1 (lineRange 3)
    otherDocumentCalls hlatest hlength hothers
  rw [hsteps] at hretraced
  exact ⟨hlatest, hlength, hothers, hretraced⟩

end History

end SelectionGrowth
