/-!
# Byte spans

A selection, and the extent of a syntax node, is a half-open interval of byte
offsets.

## Main definitions

- `Span` — an interval whose bounds are in order
- `Span.ofBounds` — the interval between two offsets given in either order
- `Span.Contains`, `Span.StrictlyContains` — the two orders used by selection growth
-/

namespace SelectionGrowth

/-- A half-open interval of byte offsets: `start` belongs to it, `stop` does not. -/
@[ext]
structure Span where
  start : Nat
  stop : Nat
  ordered : start ≤ stop
deriving DecidableEq

namespace Span

/-- The span between two offsets; offsets given in the wrong order are exchanged. -/
def ofBounds (a b : Nat) : Span :=
  if h : a ≤ b then ⟨a, b, h⟩ else ⟨b, a, Nat.le_of_not_le h⟩

/-- The span of width zero at an offset. -/
def caret (offset : Nat) : Span :=
  ⟨offset, offset, Nat.le_refl offset⟩

def length (s : Span) : Nat :=
  s.stop - s.start

/-- A span without bytes is a caret. -/
def IsCaret (s : Span) : Prop :=
  s.start = s.stop

instance (s : Span) : Decidable s.IsCaret :=
  inferInstanceAs (Decidable (s.start = s.stop))

/-- Every byte of `inner` lies in `outer`, and so do both of its ends. -/
def Contains (outer inner : Span) : Prop :=
  outer.start ≤ inner.start ∧ inner.stop ≤ outer.stop

instance (outer inner : Span) : Decidable (outer.Contains inner) :=
  inferInstanceAs (Decidable (_ ∧ _))

/-- Containment between spans that differ. -/
def StrictlyContains (outer inner : Span) : Prop :=
  outer.Contains inner ∧ outer ≠ inner

instance (outer inner : Span) : Decidable (outer.StrictlyContains inner) :=
  inferInstanceAs (Decidable (_ ∧ _))

/-- Moves the end of a span; an end before the start is held at the start. -/
def closeAt (s : Span) (stop : Nat) : Span :=
  ⟨s.start, max stop s.start, Nat.le_max_right _ _⟩

/-- The written form of a span, both offsets joined by two dots. -/
def render (s : Span) : String :=
  toString s.start ++ ".." ++ toString s.stop

theorem ofBounds_start_stop (s : Span) : ofBounds s.start s.stop = s :=
  dif_pos s.ordered

/-- What holds of two offsets holds of both ends of the span between them. -/
theorem ofBounds_of_forall {P : Nat → Prop} {a b : Nat} (ha : P a) (hb : P b) :
    P (ofBounds a b).start ∧ P (ofBounds a b).stop := by
  unfold ofBounds
  split
  · exact ⟨ha, hb⟩
  · exact ⟨hb, ha⟩

theorem Contains.refl (s : Span) : s.Contains s :=
  ⟨Nat.le_refl _, Nat.le_refl _⟩

theorem Contains.trans {a b c : Span} (hab : a.Contains b) (hbc : b.Contains c) : a.Contains c :=
  ⟨Nat.le_trans hab.1 hbc.1, Nat.le_trans hbc.2 hab.2⟩

/-- Two spans that contain each other are equal. -/
theorem Contains.antisymm {a b : Span} (hab : a.Contains b) (hba : b.Contains a) : a = b :=
  Span.ext (Nat.le_antisymm hab.1 hba.1) (Nat.le_antisymm hba.2 hab.2)

/-- A strictly larger span reaches further at one of its two ends. -/
theorem StrictlyContains.lt_or_lt {outer inner : Span} (h : outer.StrictlyContains inner) :
    outer.start < inner.start ∨ inner.stop < outer.stop := by
  obtain ⟨⟨hstart, hstop⟩, hne⟩ := h
  rcases Nat.lt_or_eq_of_le hstart with hlt | heq
  · exact Or.inl hlt
  · rcases Nat.lt_or_eq_of_le hstop with hlt | heq'
    · exact Or.inr hlt
    · exact absurd (Span.ext heq heq'.symm) hne

/-- A strictly larger span stays strictly larger when what it contains shrinks. -/
theorem StrictlyContains.trans_contains {a b c : Span} (hab : a.StrictlyContains b)
    (hbc : b.Contains c) : a.StrictlyContains c := by
  refine ⟨hab.1.trans hbc, fun hac => ?_⟩
  subst hac
  exact hab.2 (hab.1.antisymm hbc)

/-- No span is strictly larger than one that contains it. -/
theorem Contains.not_strictlyContains {a b : Span} (hba : b.Contains a) :
    ¬ a.StrictlyContains b :=
  fun hab => hab.2 (hab.1.antisymm hba)

end Span

end SelectionGrowth
