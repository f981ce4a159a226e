import SelectionGrowth.Proofs.Text.Boundary

/-!
# Replaying edits

An earlier parse is reused by telling the parser which bytes were replaced. The
edits of a list of changes describe the step from one text to another: from the
text of the last full replacement if there is one, otherwise from the old text.

## Main definitions

- `Edit.replaceIn?` — one replacement, which must name whole characters of the text
- `Edit.replay?` — a list of replacements, each in the text that the one before it left
- `Change.rebase` — the text that edits start from, and the changes they come from
- `Change.SafeEdits` — edits that may be applied to a parse of the old text

## Main statements

- `Change.replays_applyAll` — edits always lead from their base to the new text
- `Change.safeEdits_iff_and_replay` — when they also lead there from the old text
-/

namespace SelectionGrowth

namespace Edit

/-- Puts a text in place of the bytes of an edit; none if these are not whole characters. -/
def replaceIn? (e : Edit) (inserted text : String) : Option String :=
  if e.startByte ≤ e.oldEndByte ∧ Text.IsBoundary text.toList e.startByte ∧
      Text.IsBoundary text.toList e.oldEndByte then
    some (String.ofList
      (Text.replaceBytes text.toList e.startByte e.oldEndByte inserted.toList))
  else none

/-- Replays edits in order, each with the text of the change that it comes from. -/
def replay? : List (Edit × Change) → String → Option String
  | [], text => some text
  | (e, change) :: rest, text => (e.replaceIn? change.text text).bind (replay? rest)

theorem replay?_append (first second : List (Edit × Change)) (text : String) :
    replay? (first ++ second) text = (replay? first text).bind (replay? second) := by
  induction first generalizing text with
  | nil => rfl
  | cons pair rest ih =>
    obtain ⟨e, change⟩ := pair
    rw [List.cons_append, replay?, replay?, Option.bind_assoc]
    exact congrArg _ (funext ih)

end Edit

namespace Change

/-- A change without a range replaces the whole text. -/
def IsFull (change : Change) : Prop :=
  change.range = none

instance (change : Change) : Decidable change.IsFull :=
  inferInstanceAs (Decidable (change.range = none))

/-- One change as it moves the text that edits start from and the changes they come from. -/
def rebaseStep (state : String × List Change) (change : Change) : String × List Change :=
  if change.IsFull then (change.text, []) else (state.1, state.2 ++ [change])

/--
The text of the last full replacement and the changes after it. Without a full
replacement these are the old text and all changes.
-/
def rebase (text : String) (changes : List Change) : String × List Change :=
  changes.foldl rebaseStep (text, [])

/--
Edits that may be applied to a parse of the old text: there are none once the
whole text was replaced, and otherwise they lead from the old text to the new.
-/
structure SafeEdits (text : String) (changes : List Change) : Prop where
  eq_nil_of_full : (∃ change ∈ changes, change.IsFull) → (applyAll text changes).2 = []
  replays : (applyAll text changes).2 ≠ [] →
    Edit.replay? ((applyAll text changes).2.zip (rebase text changes).2) text =
      some (applyAll text changes).1

-- ════════════════════════════════════════════════════════════════════════
-- Edits and their base
-- ════════════════════════════════════════════════════════════════════════

theorem apply_of_isFull {change : Change} (h : change.IsFull) (state : String × List Edit) :
    apply state change = (change.text, []) := by
  unfold apply
  rw [show change.range = none from h]

theorem exists_edit_of_not_isFull {change : Change} (h : ¬ change.IsFull)
    (state : String × List Edit) : ∃ e : Edit, (apply state change).2 = state.2 ++ [e] ∧
      e.replaceIn? change.text state.1 = some (apply state change).1 ∧
      e.newEndByte = e.startByte + Text.bytes change.text.toList := by
  unfold apply
  cases hrange : change.range with
  | none => exact absurd hrange h
  | some r =>
    refine ⟨edit ⟨state.1, 0⟩ r change.text.toList, rfl,
      if_pos ⟨Nat.le_max_right _ _, ?_, ?_⟩, rfl⟩
    · exact isBoundary_locate ⟨state.1, 0⟩ r.start
    · -- a reversed range is empty, so its end is its start
      rcases Nat.le_total (locate ⟨state.1, 0⟩ r.start).1 (locate ⟨state.1, 0⟩ r.stop).1 with
        hle | hle
      · have hmax : (edit ⟨state.1, 0⟩ r change.text.toList).oldEndByte =
            (locate ⟨state.1, 0⟩ r.stop).1 := Nat.max_eq_left hle
        rw [hmax]
        exact isBoundary_locate ⟨state.1, 0⟩ r.stop
      · have hmax : (edit ⟨state.1, 0⟩ r change.text.toList).oldEndByte =
            (locate ⟨state.1, 0⟩ r.start).1 := Nat.max_eq_right hle
        rw [hmax]
        exact isBoundary_locate ⟨state.1, 0⟩ r.start

/-- Edits that lead from their base to a text, one for each change since the base. -/
structure Replays (base : String × List Change) (state : String × List Edit) : Prop where
  length_eq : state.2.length = base.2.length
  replay_eq : Edit.replay? (state.2.zip base.2) base.1 = some state.1

theorem Replays.step {base : String × List Change} {state : String × List Edit}
    (h : Replays base state) (change : Change) :
    Replays (rebaseStep base change) (apply state change) := by
  unfold rebaseStep
  by_cases hfull : change.IsFull
  · rw [if_pos hfull, apply_of_isFull hfull]
    exact ⟨rfl, rfl⟩
  · obtain ⟨e, hedits, hreplace, -⟩ := exists_edit_of_not_isFull hfull state
    rw [if_neg hfull]
    refine ⟨?_, ?_⟩
    · rw [hedits, List.length_append, List.length_append, h.length_eq]
      rfl
    · rw [hedits, List.zip_append h.length_eq, Edit.replay?_append, h.replay_eq]
      rw [List.zip_cons_cons, List.zip_nil_left, Option.bind_some, Edit.replay?, hreplace]
      rfl

/-- Whatever the changes, their edits lead from their base to the new text. -/
theorem replays_applyAll (text : String) (changes : List Change) :
    Replays (rebase text changes) (applyAll text changes) := by
  suffices hrun : ∀ base state, Replays base state →
      Replays (changes.foldl rebaseStep base) (changes.foldl apply state) from
    hrun (text, []) (text, []) ⟨rfl, rfl⟩
  induction changes with
  | nil => exact fun _ _ h => h
  | cons change rest ih => exact fun _ _ h => ih _ _ (h.step change)

theorem rebase_of_forall_not_isFull (text : String) {changes : List Change}
    (h : ∀ change ∈ changes, ¬ change.IsFull) : rebase text changes = (text, changes) := by
  suffices hrun : ∀ seen, changes.foldl rebaseStep (text, seen) = (text, seen ++ changes) from
    hrun []
  induction changes with
  | nil => intro seen; rw [List.append_nil]; rfl
  | cons change rest ih =>
    intro seen
    have hstep : rebaseStep (text, seen) change = (text, seen ++ [change]) :=
      if_neg (h change List.mem_cons_self)
    rw [List.foldl_cons, hstep, ih (fun c hc => h c (List.mem_cons_of_mem _ hc)),
      List.append_assoc]
    rfl

theorem rebase_snd_eq_nil_iff (text : String) (changes : List Change) :
    (rebase text changes).2 = [] ↔ ∀ last, changes.getLast? = some last → last.IsFull := by
  rcases List.eq_nil_or_concat changes with rfl | ⟨earlier, last, rfl⟩
  · exact ⟨fun _ _ h => absurd h (Option.not_mem_none _), fun _ => rfl⟩
  · have hstep : rebase text (earlier ++ [last]) = rebaseStep (rebase text earlier) last := by
      unfold rebase
      rw [List.foldl_append]
      rfl
    rw [List.concat_eq_append, List.getLast?_concat, hstep]
    unfold rebaseStep
    by_cases hfull : last.IsFull
    · rw [if_pos hfull]
      refine ⟨fun _ other hother => ?_, fun _ => rfl⟩
      cases hother
      exact hfull
    · rw [if_neg hfull]
      refine ⟨fun h => absurd h (List.append_ne_nil_of_right_ne_nil _ (List.cons_ne_nil _ _)), ?_⟩
      exact fun h => absurd (h last rfl) hfull

theorem applyAll_snd_eq_nil_iff (text : String) (changes : List Change) :
    (applyAll text changes).2 = [] ↔ ∀ last, changes.getLast? = some last → last.IsFull := by
  rw [← rebase_snd_eq_nil_iff text, ← List.length_eq_zero_iff, ← List.length_eq_zero_iff,
    (replays_applyAll text changes).length_eq]

/--
Edits may be applied to a parse of the old text exactly when a list of changes
with a full replacement also ends with one. In every case there is one edit for
each change since the last full replacement, and replaying the edits on the text
of that replacement gives the new text.
-/
theorem safeEdits_iff_and_replay (text : String) (changes : List Change) :
    (SafeEdits text changes ↔ ((∃ change ∈ changes, change.IsFull) →
      ∀ last, changes.getLast? = some last → last.IsFull)) ∧
    (applyAll text changes).2.length = (rebase text changes).2.length ∧
    Edit.replay? ((applyAll text changes).2.zip (rebase text changes).2) (rebase text changes).1 =
      some (applyAll text changes).1 := by
  have hreplays := replays_applyAll text changes
  refine ⟨⟨fun hsafe hfull => ?_, fun hlast => ⟨fun hfull => ?_, fun hne => ?_⟩⟩,
    hreplays.length_eq, hreplays.replay_eq⟩
  · exact (applyAll_snd_eq_nil_iff text changes).1 (hsafe.eq_nil_of_full hfull)
  · exact (applyAll_snd_eq_nil_iff text changes).2 (hlast hfull)
  · -- edits are left, so nothing was replaced as a whole and the base is the old text
    have hnone : ∀ change ∈ changes, ¬ change.IsFull := by
      intro change hmem hfull
      exact hne ((applyAll_snd_eq_nil_iff text changes).2 (hlast ⟨change, hmem, hfull⟩))
    have hreplay := hreplays.replay_eq
    rw [rebase_of_forall_not_isFull text hnone] at hreplay ⊢
    exact hreplay

/-- A full replacement followed by a ranged change leaves an edit that is not of the old text. -/
theorem not_safeEdits_replace_then_insert :
    ¬ SafeEdits "a" [⟨none, "b"⟩, ⟨some ⟨⟨0, 0⟩, ⟨0, 0⟩⟩, "c"⟩] := by
  intro h
  have hnil := h.eq_nil_of_full ⟨⟨none, "b"⟩, List.mem_cons_self, rfl⟩
  revert hnil
  decide +kernel

end Change

end SelectionGrowth
