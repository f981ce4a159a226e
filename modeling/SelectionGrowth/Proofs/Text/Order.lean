import SelectionGrowth.Proofs.Text.RoundTrip

/-!
# Reading order

Positions are compared by line first and then by column. A walk over a text
moves a position forward with every character, whatever the widths of the
characters in bytes and in UTF-16 units, so offsets and their positions are in
the same order. Spans that contain each other therefore become ranges that do.

## Main definitions

- `Position.lt_iff`, `Position.le_iff_lt_or_eq` — reading order
- `Range.Contains`, `Range.StrictlyContains` — one range around another in reading order

## Main statements

- `Document.lt_of_positionOf?` — positions are in the order of their offsets
- `Document.range_strictlyContains` — a strictly larger span has a strictly larger range
-/

namespace SelectionGrowth

namespace Position

/-- Reading order: an earlier line, or an earlier column of the same line. -/
instance : LT Position where
  lt p q := p.line < q.line ∨ p.line = q.line ∧ p.column < q.column

instance : LE Position where
  le p q := p < q ∨ p = q

theorem lt_iff {p q : Position} :
    p < q ↔ p.line < q.line ∨ p.line = q.line ∧ p.column < q.column :=
  Iff.rfl

theorem le_iff_lt_or_eq {p q : Position} : p ≤ q ↔ p < q ∨ p = q :=
  Iff.rfl

theorem le_iff {p q : Position} :
    p ≤ q ↔ p.line < q.line ∨ p.line = q.line ∧ p.column ≤ q.column := by
  obtain ⟨line, column⟩ := p
  obtain ⟨line', column'⟩ := q
  simp only [le_iff_lt_or_eq, lt_iff, mk.injEq]
  omega

instance (p q : Position) : Decidable (p < q) :=
  decidable_of_iff _ lt_iff.symm

instance (p q : Position) : Decidable (p ≤ q) :=
  decidable_of_iff _ le_iff_lt_or_eq.symm

theorem lt_trans {p q r : Position} (hpq : p < q) (hqr : q < r) : p < r := by
  simp only [lt_iff] at hpq hqr ⊢
  omega

theorem lt_irrefl (p : Position) : ¬ p < p := by
  simp [lt_iff]

end Position

namespace Range

/-- Both ends of `inner` lie between the ends of `outer` in reading order. -/
def Contains (outer inner : Range) : Prop :=
  outer.start ≤ inner.start ∧ inner.stop ≤ outer.stop

instance (outer inner : Range) : Decidable (outer.Contains inner) :=
  inferInstanceAs (Decidable (_ ∧ _))

/-- Containment between ranges that differ. -/
def StrictlyContains (outer inner : Range) : Prop :=
  outer.Contains inner ∧ outer ≠ inner

instance (outer inner : Range) : Decidable (outer.StrictlyContains inner) :=
  inferInstanceAs (Decidable (_ ∧ _))

end Range

namespace Document

variable {d : Document} {a b : Nat} {p q : Position}

-- ════════════════════════════════════════════════════════════════════════
-- Walks move forward
-- ════════════════════════════════════════════════════════════════════════

theorem lt_stepOver (p : Position) (c : Char) : p < stepOver p c := by
  have hunits := (Text.unitSize_bounds c).1
  rw [Position.lt_iff, stepOver]
  split
  · left
    simp
  · right
    simp [hunits]

theorem lt_foldl_stepOver (c : Char) (cs : List Char) (p : Position) :
    p < (c :: cs).foldl stepOver p := by
  induction cs generalizing c p with
  | nil => exact lt_stepOver p c
  | cons next cs ih => exact Position.lt_trans (lt_stepOver p c) (ih next (stepOver p c))

theorem positionOf?_of_append {before after : List Char} (h : d.chars = before ++ after) :
    d.positionOf? (Text.bytes before) = some (before.foldl stepOver ⟨0, 0⟩) := by
  obtain ⟨lines, part, rfl, hlines, hpart⟩ := Text.exists_wholeLines before
  rw [positionOf?_of_cut h hlines hpart, List.foldl_append, foldl_stepOver_of_wholeLines hlines,
    foldl_stepOver_of_notMem hpart, Nat.zero_add]

theorem positionOf?_zero (d : Document) : d.positionOf? 0 = some ⟨0, 0⟩ := by
  have hchars : d.chars = [] ++ d.chars := rfl
  exact positionOf?_of_append hchars

theorem exists_positionOf? (h : Text.IsBoundary d.chars a) : ∃ p, d.positionOf? a = some p := by
  obtain ⟨before, after, hchars, rfl⟩ := h
  exact ⟨_, positionOf?_of_append hchars.symm⟩

/-- Positions are in the order of their offsets. -/
theorem lt_of_positionOf? (ha : Text.IsBoundary d.chars a) (hb : Text.IsBoundary d.chars b)
    (hlt : a < b) (hp : d.positionOf? a = some p) (hq : d.positionOf? b = some q) : p < q := by
  obtain ⟨before, middle, after, hchars, rfl, rfl⟩ := Text.exists_parts_of_le ha hb (by omega)
  rw [positionOf?_of_append hchars] at hp
  rw [← List.append_assoc] at hchars
  rw [positionOf?_of_append hchars, List.foldl_append] at hq
  cases middle with
  | nil => simp at hlt
  | cons c middle =>
    simp only [Option.some.injEq] at hp hq
    subst hp hq
    exact lt_foldl_stepOver c middle _

theorem le_of_positionOf? (ha : Text.IsBoundary d.chars a) (hb : Text.IsBoundary d.chars b)
    (hle : a ≤ b) (hp : d.positionOf? a = some p) (hq : d.positionOf? b = some q) : p ≤ q := by
  obtain hlt | rfl := Nat.lt_or_eq_of_le hle
  · exact Or.inl (lt_of_positionOf? ha hb hlt hp hq)
  · exact Or.inr (Option.some.inj (hp.symm.trans hq))

-- ════════════════════════════════════════════════════════════════════════
-- Spans and their ranges
-- ════════════════════════════════════════════════════════════════════════

variable {outer inner s : Span} {outerRange innerRange r : Range}

theorem position_eq_ok_iff : d.position a = .ok p ↔ d.positionOf? a = some p := by
  unfold position
  cases d.positionOf? a <;> simp

/-- A span has a range exactly when both of its ends have a position. -/
theorem range_eq_ok_iff : d.range s = .ok r ↔
    d.positionOf? s.start = some r.start ∧ d.positionOf? s.stop = some r.stop := by
  rw [← position_eq_ok_iff, ← position_eq_ok_iff]
  unfold range
  cases hstart : d.position s.start with
  | error failure => simp [bind, Except.bind]
  | ok start =>
    cases hstop : d.position s.stop with
    | error failure => simp [bind, Except.bind]
    | ok stop =>
      obtain ⟨first, last⟩ := r
      simp [bind, Except.bind, pure, Except.pure]

theorem OnBoundaries.exists_range (h : d.OnBoundaries s) : ∃ r, d.range s = .ok r := by
  obtain ⟨start, hstart⟩ := exists_positionOf? h.1
  obtain ⟨stop, hstop⟩ := exists_positionOf? h.2
  exact ⟨⟨start, stop⟩, range_eq_ok_iff.2 ⟨hstart, hstop⟩⟩

/-- A strictly larger span has a strictly larger range. -/
theorem range_strictlyContains (houter : d.OnBoundaries outer) (hinner : d.OnBoundaries inner)
    (h : outer.StrictlyContains inner) (hr : d.range outer = .ok outerRange)
    (hr' : d.range inner = .ok innerRange) : outerRange.StrictlyContains innerRange := by
  obtain ⟨hstart, hstop⟩ := range_eq_ok_iff.1 hr
  obtain ⟨hstart', hstop'⟩ := range_eq_ok_iff.1 hr'
  refine ⟨⟨le_of_positionOf? houter.1 hinner.1 h.1.1 hstart hstart',
    le_of_positionOf? hinner.2 houter.2 h.1.2 hstop' hstop⟩, ?_⟩
  intro heq
  subst heq
  obtain hlt | hlt := h.lt_or_lt
  · exact Position.lt_irrefl _ (lt_of_positionOf? houter.1 hinner.1 hlt hstart hstart')
  · exact Position.lt_irrefl _ (lt_of_positionOf? hinner.2 houter.2 hlt hstop' hstop)

end Document

end SelectionGrowth
