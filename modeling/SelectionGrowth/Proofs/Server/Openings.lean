import Mathlib.Data.List.Induction
import SelectionGrowth.Proofs.Parse.Redoing
import SelectionGrowth.Server.Workspace

/-!
# Openings of documents

Which text a client has sent for a document is determined by how the document was
opened last and by the changes since. This file reads it off the calls, with no
workspace in sight.

## Main definitions

- `Call.OpenSince` — the last opening of a document, and the calls after it
- `Call.received` — a document as it was opened, with all changes since
- `Call.EditsFit` — calls that never leave edits of another text than the one they change

## Main statements

- `Call.openSince_concat_iff`, `Call.received_concat_changed` — what one more call does
- `Call.editsFit_of_fullLast` — edits fit if a text is replaced as a whole by the last change
  of a list, or by none
-/

namespace SelectionGrowth

namespace Call

/-- A call that starts a document anew, or ends it. -/
def Resets (key : String) : Call → Prop
  | .opened address _ _ => address.key = key
  | .closed address => address.key = key
  | _ => False

/--
A document was opened, and since then neither opened again nor closed: `later`
are the calls after the opening.
-/
structure OpenSince (key : String) (calls : List Call) (address : Url) (clientId : String)
    (document : Document) (later : List Call) : Prop where
  key_eq : address.key = key
  calls_eq : ∃ earlier, calls = earlier ++ .opened address clientId document :: later
  not_resets : ∀ call ∈ later, ¬ call.Resets key

/-- The content changes that a call brings to a document. -/
def changesOf (key : String) : Call → List Change
  | .changed address _ changes => if address.key = key then changes else []
  | _ => []

/-- The revision that a call gives to a document. -/
def revisionOf? (key : String) : Call → Option Int
  | .changed address revision _ => if address.key = key then some revision else none
  | _ => none

/-- A document as it was opened, with the changes of all later calls in one go, at the revision of
the last of them. -/
def received (key : String) (document : Document) (later : List Call) : Document where
  text := (Change.applyAll document.text (later.flatMap (changesOf key))).1
  revision := ((later.filterMap (revisionOf? key)).getLast?).getD document.revision

variable {key : String} {calls later : List Call} {call : Call} {address : Url}
  {clientId : String} {document : Document}

theorem openSince_concat_iff :
    OpenSince key (calls ++ [call]) address clientId document later ↔
      (call = .opened address clientId document ∧ address.key = key ∧ later = []) ∨
      (¬ call.Resets key ∧ ∃ before, later = before ++ [call] ∧
        OpenSince key calls address clientId document before) := by
  constructor
  · rintro ⟨hkey, ⟨earlier, hcalls⟩, hlater⟩
    rcases List.eq_nil_or_concat later with rfl | ⟨before, last, rfl⟩
    · obtain ⟨-, hlast⟩ := List.append_inj' hcalls rfl
      exact Or.inl ⟨List.singleton_inj.1 hlast, hkey, rfl⟩
    · rw [List.concat_eq_append] at hcalls hlater ⊢
      rw [← List.cons_append, ← List.append_assoc] at hcalls
      obtain ⟨hbefore, hlast⟩ := List.append_inj' hcalls rfl
      cases List.singleton_inj.1 hlast
      refine Or.inr ⟨hlater _ (List.mem_append_right _ List.mem_cons_self), before, rfl, hkey,
        ⟨earlier, hbefore⟩, fun other hmem => hlater other (List.mem_append_left _ hmem)⟩
  · rintro (⟨rfl, hkey, rfl⟩ | ⟨hreset, before, rfl, hkey, ⟨earlier, rfl⟩, hbefore⟩)
    · exact ⟨hkey, ⟨calls, rfl⟩, fun other hmem => absurd hmem List.not_mem_nil⟩
    · refine ⟨hkey, ⟨earlier, by rw [List.append_assoc, List.cons_append]⟩, fun other hmem => ?_⟩
      rcases List.mem_append.1 hmem with hold | hnew
      · exact hbefore other hold
      · rw [List.mem_singleton.1 hnew]
        exact hreset

theorem received_concat_changed (hkey : address.key = key) (revision : Int)
    (changes : List Change) :
    received key document (later ++ [.changed address revision changes]) =
      ⟨(Change.applyAll (received key document later).text changes).1, revision⟩ := by
  unfold received
  have hchanges : [Call.changed address revision changes].flatMap (changesOf key) = changes := by
    rw [List.flatMap_singleton, changesOf, if_pos hkey]
  have hrevision : [Call.changed address revision changes].filterMap (revisionOf? key) =
      [revision] := by
    rw [List.filterMap_cons_some (by rw [revisionOf?, if_pos hkey]), List.filterMap_nil]
  rw [List.flatMap_append, hchanges, Change.applyAll_append_fst, List.filterMap_append, hrevision,
    List.getLast?_concat]
  rfl

theorem received_concat_of_ne (hchanges : call.changesOf key = [])
    (hrevision : call.revisionOf? key = none) :
    received key document (later ++ [call]) = received key document later := by
  unfold received
  rw [List.flatMap_append, List.flatMap_singleton, hchanges, List.append_nil,
    List.filterMap_append, List.filterMap_cons_none hrevision, List.filterMap_nil, List.append_nil]

/-- A call that neither starts nor changes nor ends a document. -/
structure Spares (key : String) (call : Call) : Prop where
  not_resets : ¬ call.Resets key
  changesOf_eq : call.changesOf key = []
  revisionOf?_eq : call.revisionOf? key = none

/-- What a call can do to a document. -/
theorem cases_of_key (key : String) (call : Call) :
    call.Spares key ∨
      (∃ address clientId document, call = .opened address clientId document ∧
        address.key = key) ∨
      (∃ address revision changes, call = .changed address revision changes ∧
        address.key = key) ∨
      ∃ address, call = .closed address ∧ address.key = key := by
  cases call with
  | opened address clientId document =>
    by_cases hkey : address.key = key
    · exact Or.inr (Or.inl ⟨address, clientId, document, rfl, hkey⟩)
    · exact Or.inl ⟨hkey, rfl, rfl⟩
  | changed address revision changes =>
    by_cases hkey : address.key = key
    · exact Or.inr (Or.inr (Or.inl ⟨address, revision, changes, rfl, hkey⟩))
    · exact Or.inl ⟨id, if_neg hkey, if_neg hkey⟩
  | closed address =>
    by_cases hkey : address.key = key
    · exact Or.inr (Or.inr (Or.inr ⟨address, rfl, hkey⟩))
    · exact Or.inl ⟨hkey, rfl, rfl⟩
  | expand address range => exact Or.inl ⟨id, rfl, rfl⟩
  | shrink address range => exact Or.inl ⟨id, rfl, rfl⟩
  | ranges address positions => exact Or.inl ⟨id, rfl, rfl⟩

theorem exists_openSince_concat_iff (hreset : ¬ call.Resets key)
    {P : Url → String → Document → Prop} :
    (∃ address clientId document later,
        OpenSince key (calls ++ [call]) address clientId document later ∧
          P address clientId (received key document later)) ↔
      ∃ address clientId document later, OpenSince key calls address clientId document later ∧
        P address clientId (received key document (later ++ [call])) := by
  constructor
  · rintro ⟨address, clientId, document, later, hopen, hP⟩
    rcases openSince_concat_iff.1 hopen with ⟨rfl, hkey, -⟩ | ⟨-, before, rfl, hbefore⟩
    · exact absurd hkey hreset
    · exact ⟨address, clientId, document, before, hbefore, hP⟩
  · rintro ⟨address, clientId, document, before, hbefore, hP⟩
    exact ⟨address, clientId, document, before ++ [call],
      openSince_concat_iff.2 (Or.inr ⟨hreset, before, rfl, hbefore⟩), hP⟩

/--
Whenever a document in a language with a grammar is changed, the edits that are
left lead from the text received so far to the new one, if any are left.
-/
def EditsFit (fileTypes : FileTypes) (calls : List Call) : Prop :=
  ∀ earlier address revision changes rest,
    calls = earlier ++ .changed address revision changes :: rest →
    ∀ opened clientId document later,
      OpenSince address.key earlier opened clientId document later →
      (fileTypes.resolve opened.filePath (some clientId)).filter Registry.bundled.contains ≠ none →
      Change.EditsFit (received address.key document later).text changes

variable {fileTypes : FileTypes}

theorem EditsFit.of_append {rest : List Call} (h : EditsFit fileTypes (calls ++ rest)) :
    EditsFit fileTypes calls := by
  intro earlier address revision changes between hcalls
  refine h earlier address revision changes (between ++ rest) ?_
  rw [hcalls, List.append_assoc, List.cons_append]

theorem editsFit_of_fullLast
    (h : ∀ address revision changes, .changed address revision changes ∈ calls →
      Change.FullLast changes) : EditsFit fileTypes calls := by
  intro earlier address revision changes rest hcalls opened clientId document later _ _
  refine Change.editsFit_of_fullLast (h address revision changes ?_) _
  rw [hcalls]
  exact List.mem_append_right _ List.mem_cons_self

end Call

end SelectionGrowth
