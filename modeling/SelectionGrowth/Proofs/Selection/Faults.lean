import SelectionGrowth.Proofs.Selection.Growth
import SelectionGrowth.Selection.Service

/-!
# Faults of selection requests

Once a request has its snapshot, it can fail in one way only: something it was
given, or something it computed, lies outside the document.

## Main definitions

- `OnlyOutOfRange` — a computation whose only faults are range faults

## Main statements

- `Source.snapshot_or_outOfRange_of_expand`,
  `Source.snapshot_or_outOfRange_of_selectionRanges` — where the faults of requests come from
-/

namespace SelectionGrowth

variable {α β : Type}

/-- A computation that fails only because something is out of range. -/
def OnlyOutOfRange (x : Except Failure α) : Prop :=
  ∀ failure, x = .error failure → ∃ fault, failure = .outOfRange fault

namespace OnlyOutOfRange

theorem pure (a : α) : OnlyOutOfRange (.ok a) :=
  fun _ h => nomatch h

theorem fault (f : RangeFault) : OnlyOutOfRange (.error (.outOfRange f) : Except Failure α) :=
  fun _ h => ⟨f, (Except.error.inj h).symm⟩

theorem bind {x : Except Failure α} {f : α → Except Failure β} (hx : OnlyOutOfRange x)
    (hf : ∀ a, OnlyOutOfRange (f a)) : OnlyOutOfRange (x >>= f) := by
  intro failure h
  cases x with
  | error first =>
    cases h
    exact hx _ rfl
  | ok a => exact hf a failure h

theorem mapM {f : α → Except Failure β} (hf : ∀ a, OnlyOutOfRange (f a)) (xs : List α) :
    OnlyOutOfRange (xs.mapM f) := by
  induction xs with
  | nil => exact pure []
  | cons x xs ih =>
    rw [List.mapM_cons]
    exact bind (hf x) fun y => bind ih fun ys => pure (y :: ys)

end OnlyOutOfRange

-- ════════════════════════════════════════════════════════════════════════
-- Conversions and growth
-- ════════════════════════════════════════════════════════════════════════

namespace Document

theorem onlyOutOfRange_range (d : Document) (s : Span) : OnlyOutOfRange (d.range s) := by
  have hposition : ∀ offset, OnlyOutOfRange (d.position offset) := by
    intro offset
    unfold position
    split
    · exact .pure _
    · exact .fault _
  exact .bind (hposition s.start) fun _ => .bind (hposition s.stop) fun _ => .pure _

theorem onlyOutOfRange_span (d : Document) (r : Range) : OnlyOutOfRange (d.span r) := by
  have hoffset : ∀ p, OnlyOutOfRange (d.offset p) := by
    intro p
    unfold offset
    split
    · exact .pure _
    · exact .fault _
  exact .bind (hoffset r.start) fun _ => .bind (hoffset r.stop) fun _ => .pure _

end Document

namespace SyntaxTree

theorem onlyOutOfRange_grow (t : SyntaxTree) (groups : SiblingGroups) (current : Span) :
    OnlyOutOfRange (t.grow groups current) :=
  fun _ h => ⟨_, (grow_eq_error_iff.1 h).2⟩

theorem onlyOutOfRange_chain (t : SyntaxTree) (groups : SiblingGroups) (current : Span) :
    OnlyOutOfRange (t.chain groups current) := by
  fun_induction chain t groups current with
  | case1 current failure hgrow =>
    intro other h
    cases h
    exact onlyOutOfRange_grow t groups current failure hgrow
  | case2 => exact .pure []
  | case3 current next hgrow _ ih =>
    intro failure h
    cases hchain : t.chain groups next with
    | error first =>
      rw [hchain] at h
      cases h
      exact ih _ hchain
    | ok spans =>
      rw [hchain] at h
      exact nomatch h

end SyntaxTree

theorem SelectionRange.onlyOutOfRange_ofSpans? (d : Document) (spans : List Span) :
    OnlyOutOfRange (ofSpans? d spans) := by
  induction spans with
  | nil => exact .pure none
  | cons span spans ih =>
    exact .bind ih fun _ => .bind (d.onlyOutOfRange_range span) fun _ => .pure _

-- ════════════════════════════════════════════════════════════════════════
-- Requests
-- ════════════════════════════════════════════════════════════════════════

namespace Source

variable {source : Source} {groups : SiblingGroups} {key : String} {failure : Failure}

theorem onlyOutOfRange_rangesAround (d : Document) (t : SyntaxTree) (groups : SiblingGroups)
    (position : Position) : OnlyOutOfRange (rangesAround d t groups position) := by
  refine .bind (d.onlyOutOfRange_span _) fun caret => .bind (t.onlyOutOfRange_chain groups caret)
    fun chain => .bind (SelectionRange.onlyOutOfRange_ofSpans? d chain) fun nested => ?_
  cases nested with
  | some selection => exact .pure selection
  | none => exact .bind (d.onlyOutOfRange_range _) fun _ => .pure _

/-- What follows a snapshot adds range faults only. -/
theorem snapshot_or_outOfRange {next : Document × SyntaxTree → Except Failure α}
    (hnext : ∀ pair, OnlyOutOfRange (next pair))
    (h : (source.snapshot key >>= next) = .error failure) :
    source.snapshot key = .error failure ∨ ∃ fault, failure = .outOfRange fault := by
  cases hsnap : source.snapshot key with
  | error first =>
    rw [hsnap] at h
    cases h
    exact Or.inl rfl
  | ok pair =>
    rw [hsnap] at h
    exact Or.inr (hnext pair failure h)

/-- A request to grow a range fails as its snapshot does, or out of range. -/
theorem snapshot_or_outOfRange_of_expand {range : Range}
    (h : source.expand groups key range = .error failure) :
    source.snapshot key = .error failure ∨ ∃ fault, failure = .outOfRange fault := by
  refine snapshot_or_outOfRange (fun pair => ?_) h
  refine .bind (pair.1.onlyOutOfRange_span range) fun current =>
    .bind (pair.2.onlyOutOfRange_grow groups current) fun grown => ?_
  cases grown with
  | none => exact .pure none
  | some next => exact .bind (pair.1.onlyOutOfRange_range next) fun _ => .pure _

/-- A request for nested ranges fails as its snapshot does, or out of range. -/
theorem snapshot_or_outOfRange_of_selectionRanges {positions : List Position}
    (h : source.selectionRanges groups key positions = .error failure) :
    source.snapshot key = .error failure ∨ ∃ fault, failure = .outOfRange fault :=
  snapshot_or_outOfRange
    (fun pair => .mapM (onlyOutOfRange_rangesAround pair.1 pair.2 groups) positions) h

end Source

end SelectionGrowth
