import SelectionGrowth.Proofs.Selection.Progress
import SelectionGrowth.Proofs.Text.Order

/-!
# Ranges around positions

A request for the ranges around positions reads each position as a caret, grows
the caret up to the whole document, writes the selections on the way as ranges
and nests them from the outermost inwards. Once the positions can be read, no
step of this can fail, and what is nested in byte offsets is nested in reading
order.

## Main definitions

- `SelectionRange.Surrounds` — ranges nested around a caret
- `Source.AnswersAt` — the answer at one position

## Main statements

- `SelectionRange.exists_ofSpans?` — the nested ranges are the ranges of the spans
- `Source.exists_rangesAround` — the answer at a position that can be read
- `Source.ranges_around_positions` — the answer to a whole request
-/

namespace SelectionGrowth

variable {α β : Type}

-- ════════════════════════════════════════════════════════════════════════
-- Answers one after another
-- ════════════════════════════════════════════════════════════════════════

/-- A traversal stops at the first element that fails. -/
theorem mapM_eq_error_of_find? {f : α → Except Failure β} {fails : α → Bool} (fault : α → Failure)
    (hfails : ∀ a, fails a = true → f a = .error (fault a))
    (hpasses : ∀ a, fails a = false → ∃ b, f a = .ok b) {xs : List α} {a : α}
    (h : xs.find? fails = some a) : xs.mapM f = .error (fault a) := by
  induction xs with
  | nil => simp at h
  | cons x xs ih =>
    rw [List.mapM_cons]
    cases hx : fails x with
    | true =>
      simp only [List.find?_cons, hx, Option.some.injEq] at h
      subst h
      simp [hfails x hx, bind, Except.bind]
    | false =>
      obtain ⟨b, hb⟩ := hpasses x hx
      simp only [List.find?_cons, hx] at h
      simp [hb, ih h, bind, Except.bind]

theorem exists_mapM_of_forall {f : α → Except Failure β} {P : α → β → Prop} {xs : List α}
    (h : ∀ a ∈ xs, ∃ b, f a = .ok b ∧ P a b) :
    ∃ bs, xs.mapM f = .ok bs ∧ List.Forall₂ P xs bs := by
  induction xs with
  | nil => exact ⟨[], rfl, .nil⟩
  | cons x xs ih =>
    obtain ⟨b, hb, hP⟩ := h x List.mem_cons_self
    obtain ⟨bs, hbs, hrest⟩ := ih fun a ha => h a (List.mem_cons_of_mem x ha)
    refine ⟨b :: bs, ?_, .cons hP hrest⟩
    rw [List.mapM_cons]
    simp [hb, hbs, bind, Except.bind, pure, Except.pure]

-- ════════════════════════════════════════════════════════════════════════
-- Nested ranges
-- ════════════════════════════════════════════════════════════════════════

namespace SelectionRange

variable {d : Document} {spans : List Span}

@[simp]
theorem ranges_nest (range : Range) (around : Option SelectionRange) :
    (nest range around).ranges = range :: around.elim [] ranges := by
  cases around <;> rfl

/-- Spans on boundaries are nested without a fault, and what is nested are their ranges. -/
theorem exists_ofSpans? (h : ∀ span ∈ spans, d.OnBoundaries span) :
    ∃ nested, ofSpans? d spans = .ok nested ∧
      List.Forall₂ (fun span range => d.range span = .ok range) spans (nested.elim [] ranges) := by
  induction spans with
  | nil => exact ⟨none, rfl, .nil⟩
  | cons span spans ih =>
    obtain ⟨around, haround, hranges⟩ := ih fun s hs => h s (List.mem_cons_of_mem span hs)
    obtain ⟨range, hrange⟩ := (h span List.mem_cons_self).exists_range
    refine ⟨some (nest range around), ?_, ?_⟩
    · simp [ofSpans?, haround, hrange, bind, Except.bind, pure, Except.pure]
    · simpa using ⟨hrange, hranges⟩

/-- Ranges of spans that grow strictly grow strictly themselves. -/
theorem isChain_ranges {ranges : List Range} (hbound : ∀ span ∈ spans, d.OnBoundaries span)
    (hspans : spans.IsChain fun inner outer => outer.StrictlyContains inner)
    (h : List.Forall₂ (fun span range => d.range span = .ok range) spans ranges) :
    ranges.IsChain fun inner outer => outer.StrictlyContains inner := by
  induction h with
  | nil => exact List.isChain_nil
  | @cons span range spans ranges hrange hrest ih =>
    have hih := ih (fun s hs => hbound s (List.mem_cons_of_mem span hs))
      (List.isChain_cons.1 hspans).2
    cases hrest with
    | nil => exact List.isChain_singleton range
    | @cons next nextRange spans ranges hnext hrest =>
      refine List.isChain_cons_cons.2 ⟨?_, hih⟩
      exact Document.range_strictlyContains (hbound next (by simp)) (hbound span (by simp))
        (List.isChain_cons_cons.1 hspans).1 hnext hrange

/--
What the nested ranges are around a caret that grows through some spans: the
ranges of the spans, or the caret's own range if there are none; each one
strictly around the one before it, from one around the caret to the whole text.
-/
structure Surrounds (selection : SelectionRange) (d : Document) (offset : Nat)
    (spans : List Span) : Prop where
  images : List.Forall₂ (fun span range => d.range span = .ok range)
    (if spans = [] then [Span.caret offset] else spans) selection.ranges
  nested : selection.ranges.IsChain fun inner outer => outer.StrictlyContains inner
  innermost : ∃ caret inner, d.positionOf? offset = some caret ∧
    selection.ranges.head? = some inner ∧ inner.start ≤ caret ∧ caret ≤ inner.stop
  outermost : ∃ stop, d.positionOf? d.length = some stop ∧
    selection.ranges.getLast? = some ⟨⟨0, 0⟩, stop⟩

end SelectionRange

-- ════════════════════════════════════════════════════════════════════════
-- One position
-- ════════════════════════════════════════════════════════════════════════

namespace Document

variable {d : Document} {p : Position}

theorem span_self_of_none (h : d.offsetOf? p.line p.column = none) :
    d.span ⟨p, p⟩ = .error (.outOfRange (.positionOutside p.line p.column d.lineCount)) := by
  simp [span, offset, h, bind, Except.bind]

theorem span_self_of_some {offset : Nat} (h : d.offsetOf? p.line p.column = some offset) :
    d.span ⟨p, p⟩ = .ok (Span.caret offset) := by
  simp [span, Document.offset, h, bind, Except.bind, pure, Except.pure, Span.ofBounds, Span.caret]

end Document

theorem exists_getLast?_of_forall₂ {R : α → β → Prop} {xs : List α} {ys : List β}
    (h : List.Forall₂ R xs ys) {x : α} (hx : xs.getLast? = some x) :
    ∃ y, ys.getLast? = some y ∧ R x y := by
  induction h with
  | nil => simp at hx
  | @cons a b xs ys hab hrest ih =>
    cases hrest with
    | nil =>
      simp only [List.getLast?_singleton, Option.some.injEq] at hx
      subst hx
      exact ⟨b, rfl, hab⟩
    | cons hnext hrest =>
      rw [List.getLast?_cons_cons] at hx ⊢
      exact ih hx

theorem exists_head?_of_forall₂ {R : α → β → Prop} {xs : List α} {ys : List β}
    (h : List.Forall₂ R xs ys) {x : α} (hx : xs.head? = some x) :
    ∃ y, ys.head? = some y ∧ R x y := by
  cases h with
  | nil => simp at hx
  | cons hab hrest =>
    simp only [List.head?_cons, Option.some.injEq] at hx
    subst hx
    exact ⟨_, rfl, hab⟩

/-- The chain of a selection, or the selection alone if it does not grow: it starts around the
selection and ends with the whole document. -/
theorem SyntaxTree.GrowthChain.listed {t : SyntaxTree} {start : Span} {spans : List Span}
    (h : t.GrowthChain start spans) {listed : List Span}
    (hlisted : listed = if spans = [] then [start] else spans) :
    listed.IsChain (fun inner outer => outer.StrictlyContains inner) ∧
      (∃ inner, listed.head? = some inner ∧ inner.Contains start) ∧
      listed.getLast? = some t.root.span ∧ ∀ span ∈ listed, span = start ∨ span ∈ spans := by
  have hlast := h.last
  cases spans with
  | nil =>
    subst hlisted
    refine ⟨List.isChain_singleton start, ⟨start, rfl, Span.Contains.refl start⟩, ?_, by simp⟩
    exact congrArg some hlast
  | cons first rest =>
    subst hlisted
    obtain ⟨hfirst, hrest⟩ := List.isChain_cons_cons.1 h.increasing
    refine ⟨hrest, ⟨first, rfl, hfirst.1⟩, ?_, fun span hspan => Or.inr hspan⟩
    rw [List.getLast_eq_iff_getLast?_eq_some, List.getLast?_cons_cons] at hlast
    exact hlast

namespace Source

variable {source : Source} {groups : SiblingGroups} {key : String} {d : Document} {t : SyntaxTree}
  {p : Position}

/-- The nested ranges answer a position: they surround its caret with the chain that it grows
through, which is empty only in an empty document. -/
def AnswersAt (d : Document) (t : SyntaxTree) (groups : SiblingGroups) (p : Position)
    (selection : SelectionRange) : Prop :=
  ∃ offset spans, d.offsetOf? p.line p.column = some offset ∧
    t.chain groups (Span.caret offset) = .ok spans ∧ (spans = [] ↔ d.length = 0) ∧
    selection.Surrounds d offset spans

theorem rangesAround_of_none (t : SyntaxTree) (groups : SiblingGroups)
    (h : d.offsetOf? p.line p.column = none) : rangesAround d t groups p =
      .error (.outOfRange (.positionOutside p.line p.column d.lineCount)) := by
  simp [rangesAround, Document.span_self_of_none h, bind, Except.bind]

section

variable (hn : t.Nested) (hlength : t.length = d.length) {offset : Nat} {spans : List Span}

include hn hlength

/-- Only an empty document leaves a caret nothing to grow to. -/
theorem chain_caret_eq_nil_iff (hle : offset ≤ d.length)
    (hchain : t.GrowthChain (Span.caret offset) spans) : spans = [] ↔ d.length = 0 := by
  have hstart := hn.root_start
  have hstop : t.root.span.stop = d.length := hlength
  rw [hchain.eq_nil_iff hn, Span.ext_iff, hstart, hstop]
  simp only [Span.caret]
  omega

variable (hbound : ∀ id, t.Reachable id → d.OnBoundaries (t.span id))

include hbound

theorem surrounds_of_images (hoffset : Text.IsBoundary d.chars offset)
    (hchain : t.GrowthChain (Span.caret offset) spans) {selection : SelectionRange}
    (himages : List.Forall₂ (fun span range => d.range span = .ok range)
      (if spans = [] then [Span.caret offset] else spans) selection.ranges) :
    selection.Surrounds d offset spans := by
  obtain ⟨hincreasing, ⟨inner, hinner, hcontains⟩, hlast, hmem⟩ := hchain.listed rfl
  have hlisted : ∀ span ∈ if spans = [] then [Span.caret offset] else spans,
      d.OnBoundaries span := by
    intro span hspan
    obtain rfl | hspan := hmem span hspan
    · exact ⟨hoffset, hoffset⟩
    · obtain ⟨id, hid, rfl⟩ := hchain.reachable span hspan
      exact hbound id hid
  refine ⟨himages, SelectionRange.isChain_ranges hlisted hincreasing himages, ?_, ?_⟩
  · obtain ⟨caret, hcaret⟩ := Document.exists_positionOf? hoffset
    obtain ⟨range, hrange, himage⟩ := exists_head?_of_forall₂ himages hinner
    obtain ⟨hstart, hstop⟩ := Document.range_eq_ok_iff.1 himage
    have hends := hlisted inner (List.mem_of_head? hinner)
    exact ⟨caret, range, hcaret, hrange,
      Document.le_of_positionOf? hends.1 hoffset hcontains.1 hstart hcaret,
      Document.le_of_positionOf? hoffset hends.2 hcontains.2 hcaret hstop⟩
  · obtain ⟨range, hrange, himage⟩ := exists_getLast?_of_forall₂ himages hlast
    obtain ⟨hstart, hstop⟩ := Document.range_eq_ok_iff.1 himage
    rw [hn.root_start, Document.positionOf?_zero, Option.some.injEq] at hstart
    have hroot : t.root.span.stop = d.length := hlength
    rw [hroot] at hstop
    refine ⟨range.stop, hstop, ?_⟩
    rw [hrange, hstart]

/-- A position that can be read is answered. -/
theorem exists_rangesAround (groups : SiblingGroups)
    (h : d.offsetOf? p.line p.column = some offset) :
    ∃ selection, rangesAround d t groups p = .ok selection ∧ AnswersAt d t groups p selection := by
  have hoffset := Document.isBoundary_of_offsetOf? h
  have hle : offset ≤ d.length := hoffset.le_bytes
  obtain ⟨spans, hspans, hchain⟩ := hn.exists_chain groups (Span.caret offset) (hlength ▸ hle)
  have hempty := chain_caret_eq_nil_iff hn hlength hle hchain
  have hreached : ∀ span ∈ spans, d.OnBoundaries span := by
    intro span hspan
    obtain ⟨id, hid, rfl⟩ := hchain.reachable span hspan
    exact hbound id hid
  obtain ⟨nested, hnested, himages⟩ := SelectionRange.exists_ofSpans? hreached
  have haround : rangesAround d t groups p = (match nested with
      | some selection => .ok selection
      | none => (d.range (Span.caret offset)).bind fun range => .ok (.outermost range)) := by
    simp only [rangesAround, Document.span_self_of_some h, hspans, hnested, bind, Except.bind]
    cases nested <;> rfl
  cases nested with
  | none =>
    obtain rfl : spans = [] := by simpa using himages
    obtain ⟨range, hrange⟩ := Document.OnBoundaries.exists_range (s := Span.caret offset)
      ⟨hoffset, hoffset⟩
    refine ⟨.outermost range, by simp [haround, hrange, Except.bind], offset, [], h, hspans, hempty,
      ?_⟩
    exact surrounds_of_images hn hlength hbound hoffset hchain (.cons hrange .nil)
  | some selection =>
    have hne : spans ≠ [] := by
      rintro rfl
      cases selection <;> simp [SelectionRange.ranges] at himages
    refine ⟨selection, haround, offset, spans, h, hspans, hempty, ?_⟩
    exact surrounds_of_images hn hlength hbound hoffset hchain (by rwa [if_neg hne])

end

/--
Over a snapshot of a finished tree whose nodes lie on character boundaries: a
request with positions that cannot be read fails with the fault of the first of
them. Any other request is answered, with one entry for each position in order.
An entry nests the ranges of the chain from the position's caret, or is the
caret itself when the document is empty; each range is strictly around the one
inside it in reading order, the innermost one is around the caret, and the
outermost one goes from the start of the text to its end.
-/
theorem ranges_around_positions {revision : Int} {steps : List BuildStep}
    (hbuild : SyntaxTree.build revision steps = .ok t) (hsnap : source.snapshot key = .ok (d, t))
    (hbound : ∀ id, t.Reachable id → d.OnBoundaries (t.span id)) (groups : SiblingGroups)
    (positions : List Position) :
    (∀ first, positions.find? (fun p => (d.offsetOf? p.line p.column).isNone) = some first →
      source.selectionRanges groups key positions =
        .error (.outOfRange (.positionOutside first.line first.column d.lineCount))) ∧
    ((∀ p ∈ positions, d.offsetOf? p.line p.column ≠ none) →
      ∃ selections, source.selectionRanges groups key positions = .ok selections ∧
        List.Forall₂ (AnswersAt d t groups) positions selections) := by
  have hn := SyntaxTree.nested_of_build hbuild
  have hlength := length_of_snapshot hsnap
  have hrequest : source.selectionRanges groups key positions =
      positions.mapM (rangesAround d t groups) := by
    simp [selectionRanges, hsnap, bind, Except.bind]
  rw [hrequest]
  refine ⟨fun first hfirst => ?_, fun hread => ?_⟩
  · let fault (p : Position) : Failure := .outOfRange (.positionOutside p.line p.column d.lineCount)
    refine mapM_eq_error_of_find? fault (fun p hp => ?_) (fun p hp => ?_) hfirst
    · exact rangesAround_of_none t groups (Option.isNone_iff_eq_none.1 hp)
    · obtain ⟨offset, hoffset⟩ := Option.isSome_iff_exists.1 (by simpa using hp)
      obtain ⟨selection, hselection, -⟩ := exists_rangesAround hn hlength hbound groups hoffset
      exact ⟨selection, hselection⟩
  · refine exists_mapM_of_forall fun p hp => ?_
    obtain ⟨offset, hoffset⟩ := Option.ne_none_iff_exists'.1 (hread p hp)
    exact exists_rangesAround hn hlength hbound groups hoffset

/-- Two positions of the comment in brackets are answered, and a line that is not there is the fault
of a request, not the line after it. -/
theorem ranges_around_comment : ∃ t, SyntaxTree.build 0 (commentSteps 6) = .ok t ∧
    (single commented t).snapshot "" = .ok (commented, t) ∧
    (∀ id, t.Reachable id → commented.OnBoundaries (t.span id)) ∧
    (single commented t).selectionRanges SiblingGroups.standard "" [⟨0, 3⟩, ⟨2, 1⟩, ⟨9, 0⟩] =
      .error (.outOfRange (.positionOutside 2 1 2)) ∧
    ∃ selections, (single commented t).selectionRanges SiblingGroups.standard "" [⟨0, 3⟩, ⟨1, 1⟩] =
        .ok selections ∧
      List.Forall₂ (AnswersAt commented t SiblingGroups.standard) [⟨0, 3⟩, ⟨1, 1⟩] selections := by
  have hcheck : (SyntaxTree.build 0 (commentSteps 6)).map (fun t : SyntaxTree => decide
      ((t.revision = commented.revision ∧ t.length = commented.length) ∧
        ∀ id ∈ List.range t.nodeCount, commented.OnBoundaries (t.span id))) = .ok true := by
    decide +kernel
  obtain ⟨t, hbuild, hchecked⟩ := SyntaxTree.exists_of_build hcheck
  obtain ⟨⟨hrevision, hlength⟩, hnodes⟩ := of_decide_eq_true hchecked
  have hbound : ∀ id, t.Reachable id → commented.OnBoundaries (t.span id) :=
    fun id hid => hnodes id (List.mem_range.2 hid.lt_nodeCount)
  have hsnap : (single commented t).snapshot "" = .ok (commented, t) :=
    snapshot_single hrevision hlength
  have hmissing : [(⟨0, 3⟩ : Position), ⟨2, 1⟩, ⟨9, 0⟩].find?
      (fun p => (commented.offsetOf? p.line p.column).isNone) = some ⟨2, 1⟩ := by
    decide +kernel
  have hread : ∀ p ∈ [(⟨0, 3⟩ : Position), ⟨1, 1⟩], commented.offsetOf? p.line p.column ≠ none := by
    decide +kernel
  exact ⟨t, hbuild, hsnap, hbound,
    (ranges_around_positions hbuild hsnap hbound SiblingGroups.standard _).1 _ hmissing,
    (ranges_around_positions hbuild hsnap hbound SiblingGroups.standard _).2 hread⟩

end Source

end SelectionGrowth
