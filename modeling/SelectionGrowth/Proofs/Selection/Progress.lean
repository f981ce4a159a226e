import Mathlib.Data.Finset.Card
import Mathlib.Data.Finset.Range
import SelectionGrowth.Proofs.Selection.Growth
import SelectionGrowth.Proofs.Text.RoundTrip
import SelectionGrowth.Selection.Service

/-!
# Progress of repeated requests

A client that asks for a larger selection sends the answer back as the next
request. Growth is strict on byte offsets, but an answer is a range of lines and
columns, and what a range is read as is the settled span. Requests make progress
unless some node falls back: read again, it is what it grew from.

## Main definitions

- `SyntaxTree.FallsBack` — a node that grows from its own settled span
- `Source.Progresses` — every answer is read as a strictly larger selection
- `Source.EndsAfter` — the requests until nothing larger is left

## Main statements

- `Source.expand_cases` — a request is answered by a node, which is read as its settled span
- `Source.exists_endsAfter` — requests that make progress end after at most one for each node
- `Source.progress_and_end_iff_not_fallsBack` — progress and ends, exactly when no node falls back
-/

namespace SelectionGrowth

-- ════════════════════════════════════════════════════════════════════════
-- Nodes and their settled spans
-- ════════════════════════════════════════════════════════════════════════

namespace SyntaxTree

variable {t : SyntaxTree} {groups : SiblingGroups} {d : Document} {current next : Span}

/-- A node falls back when a selection of what is left of it, once it has been written as a
range, grows to the node again. -/
def FallsBack (t : SyntaxTree) (groups : SiblingGroups) (d : Document) (id : Nat) : Prop :=
  t.grow groups (d.settle (t.span id)) = .ok (some (t.span id))

instance (t : SyntaxTree) (groups : SiblingGroups) (d : Document) (id : Nat) :
    Decidable (t.FallsBack groups d id) :=
  inferInstanceAs (Decidable (_ = _))

theorem exists_lt_nodeCount_of_grow (h : t.grow groups current = .ok (some next)) :
    ∃ id < t.nodeCount, t.span id = next :=
  exists_node_of_grow (P := fun id => id < t.nodeCount) t.nonempty
    (fun p c _ hmem => (t.linked.child_lt p c hmem).2)
    (fun c p hc hp => Nat.lt_trans (t.linked.parent_lt c p hp) hc) h

theorem not_fallsBack_of_not_inReturns {id : Nat} (hbound : d.OnBoundaries (t.span id))
    (hstart : ¬ Text.InReturns d.chars (t.span id).start)
    (hstop : ¬ Text.InReturns d.chars (t.span id).stop) : ¬ t.FallsBack groups d id := by
  intro hfalls
  have hsettled : d.settle (t.span id) = t.span id := by
    unfold Document.settle
    rw [(Text.settle_eq_iff hbound.1).2 hstart, (Text.settle_eq_iff hbound.2).2 hstop]
    exact Span.ofBounds_start_stop _
  have hstrict := (strictlyContains_of_grow hfalls).1
  rw [hsettled] at hstrict
  exact hstrict.2 rfl

/-- The settled spans still to be reached from a selection: those strictly around it. -/
def ahead (t : SyntaxTree) (d : Document) (current : Span) : Finset Nat :=
  (Finset.range t.nodeCount).filter fun id => (d.settle (t.span id)).StrictlyContains current

theorem card_ahead_le (t : SyntaxTree) (d : Document) (current : Span) :
    (t.ahead d current).card ≤ t.nodeCount := by
  have hle := Finset.card_filter_le (Finset.range t.nodeCount)
    fun id => (d.settle (t.span id)).StrictlyContains current
  rw [Finset.card_range] at hle
  exact hle

theorem card_ahead_lt {id : Nat} (hid : id < t.nodeCount)
    (h : (d.settle (t.span id)).StrictlyContains current) :
    (t.ahead d (d.settle (t.span id))).card < (t.ahead d current).card := by
  apply Finset.card_lt_card
  refine Finset.ssubset_iff_subset_ne.2 ⟨fun other hother => ?_, fun heq => ?_⟩
  · obtain ⟨hmem, hstrict⟩ := Finset.mem_filter.1 hother
    exact Finset.mem_filter.2 ⟨hmem, hstrict.trans_contains h.1⟩
  · -- the node that was reached is around the old selection and not around itself
    have hmem : id ∈ t.ahead d current :=
      Finset.mem_filter.2 ⟨Finset.mem_range.2 hid, h⟩
    rw [← heq] at hmem
    exact (Finset.mem_filter.1 hmem).2.2 rfl

end SyntaxTree

-- ════════════════════════════════════════════════════════════════════════
-- One request
-- ════════════════════════════════════════════════════════════════════════

namespace Source

variable {source : Source} {groups : SiblingGroups} {key : String} {d : Document} {t : SyntaxTree}
  {range next : Range} {current : Span}

theorem length_of_snapshot (h : source.snapshot key = .ok (d, t)) : t.length = d.length := by
  obtain ⟨-, -, -, hlength⟩ := snapshot_eq_ok_iff.1 h
  exact hlength

/-- A request over a snapshot, with its range already read. -/
theorem expand_of_snapshot (hsnap : source.snapshot key = .ok (d, t))
    (hspan : d.span range = .ok current) :
    source.expand groups key range = (t.grow groups current).bind fun
      | none => .ok none
      | some grown => (d.range grown).bind fun answer => .ok (some answer) := by
  unfold expand
  rw [hsnap]
  simp only [bind, Except.bind, hspan]
  cases t.grow groups current with
  | error failure => rfl
  | ok grown => cases grown <;> rfl

theorem expand_congr (hsnap : source.snapshot key = .ok (d, t)) {other : Range}
    (hspan : d.span range = .ok current) (hother : d.span other = .ok current) :
    source.expand groups key other = source.expand groups key range := by
  rw [expand_of_snapshot hsnap hspan, expand_of_snapshot hsnap hother]

/-- Every answer is read as a selection that is strictly larger than the one asked for. -/
def Progresses (source : Source) (groups : SiblingGroups) (key : String) (d : Document) : Prop :=
  ∀ range current next, d.span range = .ok current →
    source.expand groups key range = .ok (some next) →
      ∃ reread, d.span next = .ok reread ∧ reread.StrictlyContains current

theorem settle_contains_of_grow (hbound : ∀ id < t.nodeCount, d.OnBoundaries (t.span id))
    (hspan : d.span range = .ok current) {id : Nat} (hid : id < t.nodeCount)
    (hgrow : t.grow groups current = .ok (some (t.span id))) :
    (d.settle (t.span id)).Contains current := by
  obtain ⟨hcurrent, hsettled⟩ := Document.settled_of_span hspan
  have hstrict := (SyntaxTree.strictlyContains_of_grow hgrow).1
  have hcontains := Document.settle_contains_settle (hbound id hid) hcurrent hstrict.1
  rw [hsettled] at hcontains
  exact hcontains

section

variable (hsnap : source.snapshot key = .ok (d, t))
  (hbound : ∀ id < t.nodeCount, d.OnBoundaries (t.span id))
  (hfits : d.length ≤ Text.maxCoordinate)

include hsnap hbound hfits

/--
A request for a range that can be read is answered. Either the selection does not
grow, or it grows to a node, and the answer is read as the node's settled span.
-/
theorem expand_cases (groups : SiblingGroups) (hspan : d.span range = .ok current) :
    source.expand groups key range = .ok none ∨
      ∃ id < t.nodeCount, ∃ next, t.grow groups current = .ok (some (t.span id)) ∧
        source.expand groups key range = .ok (some next) ∧
        d.span next = .ok (d.settle (t.span id)) := by
  have hexpand : source.expand groups key range = _ := expand_of_snapshot hsnap hspan
  have hinside : current.stop ≤ t.length := by
    rw [length_of_snapshot hsnap]
    exact (Document.settled_of_span hspan).1.2.le_bytes
  cases hgrow : t.grow groups current with
  | error failure =>
    obtain ⟨hpast, -⟩ := SyntaxTree.grow_eq_error_iff.1 hgrow
    omega
  | ok grown =>
    rw [hgrow] at hexpand
    cases grown with
    | none => exact Or.inl hexpand
    | some grown =>
      obtain ⟨id, hid, rfl⟩ := SyntaxTree.exists_lt_nodeCount_of_grow hgrow
      obtain ⟨next, hnext, hreread⟩ := Document.exists_range hfits (hbound id hid)
      refine Or.inr ⟨id, hid, next, rfl, ?_, hreread⟩
      rw [hexpand]
      simp only [Except.bind, hnext]

theorem progresses_of_not_fallsBack
    (hnone : ∀ id < t.nodeCount, ¬ t.FallsBack groups d id) :
    source.Progresses groups key d := by
  intro range current next hspan hnext
  rcases expand_cases hsnap hbound hfits groups hspan with
    hend | ⟨id, hid, answer, hgrow, hans, hread⟩
  · exact nomatch hend.symm.trans hnext
  · cases hans.symm.trans hnext
    refine ⟨_, hread, settle_contains_of_grow hbound hspan hid hgrow, fun hsame => hnone id hid ?_⟩
    unfold SyntaxTree.FallsBack
    rw [hsame]
    exact hgrow

theorem exists_fixed_of_fallsBack {id : Nat} (hid : id < t.nodeCount)
    (hfalls : t.FallsBack groups d id) :
    ∃ range, d.span range = .ok (d.settle (t.span id)) ∧
      source.expand groups key range = .ok (some range) := by
  obtain ⟨range, hrange, hread⟩ := Document.exists_range hfits (hbound id hid)
  refine ⟨range, hread, ?_⟩
  have hexpand : source.expand groups key range = _ := expand_of_snapshot hsnap hread
  unfold SyntaxTree.FallsBack at hfalls
  rw [hexpand, hfalls]
  simp only [Except.bind, hrange]

end

-- ════════════════════════════════════════════════════════════════════════
-- Runs of requests
-- ════════════════════════════════════════════════════════════════════════

/-- Requests, each for the answer to the one before, until one is answered with nothing. -/
inductive EndsAfter (source : Source) (groups : SiblingGroups) (key : String) : Nat → Range → Prop
  | last {range : Range} (h : source.expand groups key range = .ok none) :
      EndsAfter source groups key 1 range
  | step {n : Nat} {range next : Range} (h : source.expand groups key range = .ok (some next))
      (rest : EndsAfter source groups key n next) : EndsAfter source groups key (n + 1) range

theorem not_endsAfter_of_fixed (h : source.expand groups key range = .ok (some range)) (n : Nat) :
    ¬ source.EndsAfter groups key n range := by
  intro hends
  induction hends with
  | last hend => exact nomatch hend.symm.trans h
  | step hnext _ ih =>
    cases hnext.symm.trans h
    exact ih h

theorem not_endsAfter_of_answer_fixed (hnext : source.expand groups key range = .ok (some next))
    (hfixed : source.expand groups key next = .ok (some next)) (n : Nat) :
    ¬ source.EndsAfter groups key n range := by
  intro hends
  cases hends with
  | last hend => exact nomatch hend.symm.trans hnext
  | step hanswer rest =>
    cases hanswer.symm.trans hnext
    exact not_endsAfter_of_fixed hfixed _ rest

/-- Requests that make progress end after at most one for each node that is still ahead. -/
theorem exists_endsAfter (hsnap : source.snapshot key = .ok (d, t))
    (hbound : ∀ id < t.nodeCount, d.OnBoundaries (t.span id))
    (hfits : d.length ≤ Text.maxCoordinate) (hprogress : source.Progresses groups key d)
    (range : Range) (current : Span) (hspan : d.span range = .ok current) :
    ∃ n ≤ (t.ahead d current).card + 1, source.EndsAfter groups key n range := by
  -- every answer leaves fewer nodes ahead, whatever the range it was asked for
  induction hcard : (t.ahead d current).card using Nat.strongRecOn generalizing range current with
  | _ card ih =>
    rcases expand_cases hsnap hbound hfits groups hspan with hend | ⟨id, hid, next, -, hnext, hread⟩
    · exact ⟨1, Nat.le_add_left 1 card, .last hend⟩
    · obtain ⟨reread, hreread, hstrict⟩ := hprogress range current next hspan hnext
      cases hread.symm.trans hreread
      have hlt := SyntaxTree.card_ahead_lt hid hstrict
      rw [hcard] at hlt
      obtain ⟨n, hn, hends⟩ := ih _ hlt next _ hread rfl
      exact ⟨n + 1, by omega, .step hnext hends⟩

/--
Over a snapshot whose nodes lie on character boundaries, requests make progress,
and every run of them ends after at most one request for each node and a last
one, exactly when no node falls back. A node can fall back only when one of its
ends is inside a run of returns before a line feed. In any case a request that
can be read is answered, and an answer is read as a selection that contains the
one asked for; an answer that is read as the same selection is given for ever.
-/
theorem progress_and_end_iff_not_fallsBack (groups : SiblingGroups)
    (hsnap : source.snapshot key = .ok (d, t))
    (hbound : ∀ id < t.nodeCount, d.OnBoundaries (t.span id))
    (hfits : d.length ≤ Text.maxCoordinate) :
    (source.Progresses groups key d ↔ ∀ id < t.nodeCount, ¬ t.FallsBack groups d id) ∧
      ((∀ range current, d.span range = .ok current →
          ∃ n ≤ t.nodeCount + 1, source.EndsAfter groups key n range) ↔
        ∀ id < t.nodeCount, ¬ t.FallsBack groups d id) ∧
      (∀ id < t.nodeCount, t.FallsBack groups d id →
        Text.InReturns d.chars (t.span id).start ∨ Text.InReturns d.chars (t.span id).stop) ∧
      ∀ range current, d.span range = .ok current →
        source.expand groups key range = .ok none ∨
          ∃ next reread, source.expand groups key range = .ok (some next) ∧
            d.span next = .ok reread ∧ reread.Contains current ∧
            (reread = current →
              source.expand groups key next = .ok (some next) ∧
                ∀ n, ¬ source.EndsAfter groups key n range) := by
  refine ⟨⟨fun hprogress id hid hfalls => ?_, progresses_of_not_fallsBack hsnap hbound hfits⟩,
    ⟨fun hends id hid hfalls => ?_, fun hnone range current hspan => ?_⟩,
    fun id hid hfalls => ?_, fun range current hspan => ?_⟩
  · -- the node's own range would have to be read as more than it is read as
    obtain ⟨range, hspan, hfixed⟩ := exists_fixed_of_fallsBack hsnap hbound hfits hid hfalls
    obtain ⟨reread, hread, hstrict⟩ := hprogress range _ range hspan hfixed
    cases hread.symm.trans hspan
    exact hstrict.2 rfl
  · obtain ⟨range, hspan, hfixed⟩ := exists_fixed_of_fallsBack hsnap hbound hfits hid hfalls
    obtain ⟨n, -, hrun⟩ := hends range _ hspan
    exact not_endsAfter_of_fixed hfixed n hrun
  · have hprogress := progresses_of_not_fallsBack hsnap hbound hfits hnone
    obtain ⟨n, hn, hrun⟩ := exists_endsAfter hsnap hbound hfits hprogress range current hspan
    have hcard := t.card_ahead_le d current
    exact ⟨n, by omega, hrun⟩
  · by_contra hnot
    obtain ⟨hstart, hstop⟩ := not_or.1 hnot
    exact SyntaxTree.not_fallsBack_of_not_inReturns (hbound id hid) hstart hstop hfalls
  · rcases expand_cases hsnap hbound hfits groups hspan with
      hend | ⟨id, hid, next, hgrow, hnext, hread⟩
    · exact Or.inl hend
    · have hcontains := settle_contains_of_grow hbound hspan hid hgrow
      refine Or.inr ⟨next, _, hnext, hread, hcontains, fun hsame => ?_⟩
      rw [hsame] at hread
      have hfixed : source.expand groups key next = .ok (some next) :=
        (expand_congr hsnap hspan hread).trans hnext
      exact ⟨hfixed, not_endsAfter_of_answer_fixed hnext hfixed⟩

def single (d : Document) (t : SyntaxTree) : Source :=
  ⟨fun _ => some d, fun _ _ => .ok t⟩

theorem snapshot_single (hrevision : t.revision = d.revision) (hlength : t.length = d.length) :
    (single d t).snapshot key = .ok (d, t) := by
  unfold snapshot single
  simp only [bind, Except.bind, hrevision, hlength, ne_eq, not_true_eq_false, if_false]

/-- A comment in brackets, with a character of two bytes and a return before the line feed. -/
def commented : Document :=
  ⟨"(//é\r\n)", 0⟩

/-- The steps for a comment in brackets that ends at an offset. -/
def commentSteps (stop : Nat) : List BuildStep :=
  [.start .compilationUnit "program" 0, .start .expression "brackets" 0,
    .token .other "(" (Span.ofBounds 0 1), .token .other "line_comment" (Span.ofBounds 1 stop),
    .token .other ")" (Span.ofBounds 7 8), .finish 8, .finish 8]

/-- Requests make progress and end when the comment stops before the return. -/
theorem progress_of_comment_without_return : ∃ t, SyntaxTree.build 0 (commentSteps 5) = .ok t ∧
    (single commented t).snapshot "" = .ok (commented, t) ∧
    (∀ id < t.nodeCount, commented.OnBoundaries (t.span id)) ∧
    commented.length ≤ Text.maxCoordinate ∧
    (single commented t).Progresses SiblingGroups.standard "" commented ∧
    ∀ range current, commented.span range = .ok current →
      ∃ n ≤ t.nodeCount + 1, (single commented t).EndsAfter SiblingGroups.standard "" n range := by
  have hcheck : (SyntaxTree.build 0 (commentSteps 5)).map (fun t : SyntaxTree => decide
      ((t.revision = commented.revision ∧ t.length = commented.length) ∧
        ∀ id ∈ List.range t.nodeCount, commented.OnBoundaries (t.span id) ∧
          ¬ t.FallsBack SiblingGroups.standard commented id)) = .ok true := by
    decide +kernel
  obtain ⟨t, hbuild, hchecked⟩ := SyntaxTree.exists_of_build hcheck
  obtain ⟨⟨hrevision, hlength⟩, hnodes⟩ := of_decide_eq_true hchecked
  have hbound : ∀ id < t.nodeCount, commented.OnBoundaries (t.span id) :=
    fun id hid => (hnodes id (List.mem_range.2 hid)).1
  have hnone : ∀ id < t.nodeCount, ¬ t.FallsBack SiblingGroups.standard commented id :=
    fun id hid => (hnodes id (List.mem_range.2 hid)).2
  have hsnap : (single commented t).snapshot "" = .ok (commented, t) :=
    snapshot_single hrevision hlength
  have hfits : commented.length ≤ Text.maxCoordinate := by decide +kernel
  obtain ⟨hprogress, hends, -⟩ :=
    progress_and_end_iff_not_fallsBack SiblingGroups.standard hsnap hbound hfits
  exact ⟨t, hbuild, hsnap, hbound, hfits, hprogress.2 hnone, hends.2 hnone⟩

/-- A comment that takes in the return before the line feed is the answer for ever. -/
theorem no_progress_of_comment_with_return : ∃ t, SyntaxTree.build 0 (commentSteps 6) = .ok t ∧
    (single commented t).snapshot "" = .ok (commented, t) ∧
    (∀ id < t.nodeCount, commented.OnBoundaries (t.span id)) ∧
    commented.span ⟨⟨0, 1⟩, ⟨0, 5⟩⟩ = .ok (Span.ofBounds 1 5) ∧
    (single commented t).expand SiblingGroups.standard "" ⟨⟨0, 1⟩, ⟨0, 5⟩⟩ =
      .ok (some ⟨⟨0, 1⟩, ⟨0, 5⟩⟩) ∧
    ¬ (single commented t).Progresses SiblingGroups.standard "" commented ∧
    ∀ n, ¬ (single commented t).EndsAfter SiblingGroups.standard "" n ⟨⟨0, 1⟩, ⟨0, 5⟩⟩ := by
  have hcheck : (SyntaxTree.build 0 (commentSteps 6)).map (fun t : SyntaxTree => decide
      ((t.revision = commented.revision ∧ t.length = commented.length) ∧
        (∀ id ∈ List.range t.nodeCount, commented.OnBoundaries (t.span id)) ∧
        (single commented t).expand SiblingGroups.standard "" ⟨⟨0, 1⟩, ⟨0, 5⟩⟩ =
          .ok (some ⟨⟨0, 1⟩, ⟨0, 5⟩⟩))) = .ok true := by
    decide +kernel
  obtain ⟨t, hbuild, hchecked⟩ := SyntaxTree.exists_of_build hcheck
  obtain ⟨⟨hrevision, hlength⟩, hnodes, hfixed⟩ := of_decide_eq_true hchecked
  have hbound : ∀ id < t.nodeCount, commented.OnBoundaries (t.span id) :=
    fun id hid => hnodes id (List.mem_range.2 hid)
  have hspan : commented.span ⟨⟨0, 1⟩, ⟨0, 5⟩⟩ = .ok (Span.ofBounds 1 5) := by decide +kernel
  refine ⟨t, hbuild, snapshot_single hrevision hlength, hbound, hspan, hfixed, fun hprogress => ?_,
    not_endsAfter_of_fixed hfixed⟩
  obtain ⟨reread, hread, hstrict⟩ := hprogress _ _ _ hspan hfixed
  cases hread.symm.trans hspan
  exact hstrict.2 rfl

end Source

end SelectionGrowth
