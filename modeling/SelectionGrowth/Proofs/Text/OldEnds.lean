import SelectionGrowth.Proofs.Text.Clamping

/-!
# Ends of the replaced bytes

A range may be reversed, and the bytes that a change replaces then end where they
start. Only the byte is moved there: the point that goes with it stays where the
end of the range falls. The two ends of the replaced bytes therefore agree with
their points, and are in order, exactly when the end of the range does not fall
before its start. That is so for every range that is not reversed and whose
start has an offset, and for every end on a line that does not exist.

## Main definitions

- `Point.lt_iff`, `Point.le_iff` — points in the order of the text
- `Document.fallsAt`, `Range.FallsInOrder` — where the ends of a range fall
- `Edit.ReportsEnd` — which point an edit reports for the end of the replaced bytes

## Main statements

- `Point.ofText_le_iff`, `Point.ofText_inj` — points are in the order of their offsets
- `Range.fallsInOrder_of_le` — a range in reading order falls in order
- `Change.reportsEnd_edit` — the edit of one change
- `Change.exists_change_of_edit` — the change that an edit of a list comes from
- `Change.oldEnd_of_every_edit` — every edit of every list of changes
-/

namespace SelectionGrowth

theorem Text.IsBoundary.max {cs : List Char} {a b : Nat} (ha : IsBoundary cs a)
    (hb : IsBoundary cs b) : IsBoundary cs (max a b) := by
  rw [Nat.max_def]
  split
  · exact hb
  · exact ha

namespace Point

/-- The order of the text: an earlier row, or an earlier column of the same row. -/
instance : LT Point where
  lt p q := p.row < q.row ∨ p.row = q.row ∧ p.column < q.column

instance : LE Point where
  le p q := p < q ∨ p = q

theorem lt_iff {p q : Point} : p < q ↔ p.row < q.row ∨ p.row = q.row ∧ p.column < q.column :=
  Iff.rfl

theorem le_iff {p q : Point} : p ≤ q ↔ p < q ∨ p = q :=
  Iff.rfl

instance (p q : Point) : Decidable (p < q) :=
  decidable_of_iff _ lt_iff.symm

instance (p q : Point) : Decidable (p ≤ q) :=
  decidable_of_iff _ le_iff.symm

theorem not_le_of_lt {p q : Point} (h : q < p) : ¬ p ≤ q := by
  rintro (hlt | rfl)
  · rw [lt_iff] at h hlt
    omega
  · rw [lt_iff] at h
    omega

-- ════════════════════════════════════════════════════════════════════════
-- Points and offsets
-- ════════════════════════════════════════════════════════════════════════

theorem lt_advance (p : Point) {inserted : List Char} (h : inserted ≠ []) :
    p < Change.advance p inserted := by
  rw [lt_iff]
  unfold Change.advance
  split
  · next hfeed =>
    left
    exact Nat.lt_add_of_pos_right (List.count_pos_iff.2 hfeed)
  · right
    have hbytes : Text.bytes inserted ≠ 0 := fun hzero => h (Text.eq_nil_of_bytes_eq_zero hzero)
    exact ⟨rfl, Nat.lt_add_of_pos_right (Nat.pos_of_ne_zero hbytes)⟩

variable {cs : List Char} {a b : Nat}

/-- Points are in the order of their offsets. -/
theorem ofText_lt_of_lt (ha : Text.IsBoundary cs a) (hb : Text.IsBoundary cs b) (h : a < b) :
    ofText (Text.takeBytes a cs) < ofText (Text.takeBytes b cs) := by
  obtain ⟨before, middle, after, hcs, rfl, rfl⟩ := Text.exists_parts_of_le ha hb (Nat.le_of_lt h)
  have hmiddle : middle ≠ [] := by
    rintro rfl
    rw [List.append_nil] at h
    exact Nat.lt_irrefl _ h
  have hfirst : Text.takeBytes (Text.bytes before) cs = before := by
    rw [hcs, Text.takeBytes_append]
  have hlast : Text.takeBytes (Text.bytes (before ++ middle)) cs = before ++ middle := by
    rw [hcs, ← List.append_assoc, Text.takeBytes_append]
  rw [hfirst, hlast, ← Change.advance_ofText]
  exact lt_advance _ hmiddle

theorem ofText_le_iff (ha : Text.IsBoundary cs a) (hb : Text.IsBoundary cs b) :
    ofText (Text.takeBytes a cs) ≤ ofText (Text.takeBytes b cs) ↔ a ≤ b := by
  refine ⟨fun hle => Nat.not_lt.1 fun hlt => not_le_of_lt (ofText_lt_of_lt hb ha hlt) hle, ?_⟩
  intro hle
  obtain hlt | rfl := Nat.lt_or_eq_of_le hle
  · exact Or.inl (ofText_lt_of_lt ha hb hlt)
  · exact Or.inr rfl

theorem ofText_inj (ha : Text.IsBoundary cs a) (hb : Text.IsBoundary cs b) :
    ofText (Text.takeBytes a cs) = ofText (Text.takeBytes b cs) ↔ a = b := by
  refine ⟨fun heq => Nat.le_antisymm ?_ ?_, congrArg fun n => ofText (Text.takeBytes n cs)⟩
  · exact (ofText_le_iff ha hb).1 (Or.inr heq)
  · exact (ofText_le_iff hb ha).1 (Or.inr heq.symm)

end Point

-- ════════════════════════════════════════════════════════════════════════
-- Ranges that fall in order
-- ════════════════════════════════════════════════════════════════════════

/-- The offset of a position; one without an offset falls at the end of the text. -/
def Document.fallsAt (d : Document) (p : Position) : Nat :=
  (d.offsetOf? p.line p.column).getD d.length

theorem Document.isBoundary_fallsAt (d : Document) (p : Position) :
    Text.IsBoundary d.chars (d.fallsAt p) := by
  rw [fallsAt, ← Change.locate_fst]
  exact Change.isBoundary_locate d p

namespace Range

variable {d : Document} {r : Range}

/-- The end of a range does not fall before its start. -/
def FallsInOrder (r : Range) (d : Document) : Prop :=
  d.fallsAt r.start ≤ d.fallsAt r.stop

instance (r : Range) (d : Document) : Decidable (r.FallsInOrder d) :=
  inferInstanceAs (Decidable (_ ≤ _))

theorem fallsInOrder_of_stop_none (h : d.offsetOf? r.stop.line r.stop.column = none) :
    r.FallsInOrder d := by
  have hstop : d.fallsAt r.stop = d.length := by rw [Document.fallsAt, h, Option.getD_none]
  rw [FallsInOrder, hstop]
  exact (d.isBoundary_fallsAt r.start).le_bytes

/-- A range in reading order falls in order if its start has an offset. -/
theorem fallsInOrder_of_le (hle : r.start ≤ r.stop)
    (hstart : d.offsetOf? r.start.line r.start.column ≠ none) : r.FallsInOrder d := by
  obtain ⟨start, hsome⟩ := Option.ne_none_iff_exists'.1 hstart
  obtain ⟨first⟩ := Document.nonempty_lineOf_of_offsetOf? hsome
  cases hstop : d.offsetOf? r.stop.line r.stop.column with
  | none => exact fallsInOrder_of_stop_none hstop
  | some stop =>
    obtain ⟨last⟩ := Document.nonempty_lineOf_of_offsetOf? hstop
    rw [FallsInOrder, Document.fallsAt, Document.fallsAt, hsome, hstop,
      Option.getD_some, Option.getD_some, Document.eq_of_offsetOf? first hsome,
      Document.eq_of_offsetOf? last hstop]
    exact Change.offsetAt_le_of_le first last hle

end Range

-- ════════════════════════════════════════════════════════════════════════
-- The end that an edit reports
-- ════════════════════════════════════════════════════════════════════════

/--
What an edit reports for the end of the bytes that it replaces in a text. The
point is the one where the end of the range falls. It is the point of the
reported byte, and not before the start point, exactly when the range falls in
order; otherwise the byte is the one of the start, and the point before it.
-/
structure Edit.ReportsEnd (e : Edit) (r : Range) (old : Document) : Prop where
  oldEndPoint_eq : e.oldEndPoint = Point.ofText (Text.takeBytes (old.fallsAt r.stop) old.chars)
  matches_iff : e.oldEndPoint = Point.ofText (Text.takeBytes e.oldEndByte old.chars) ↔
    r.FallsInOrder old
  startPoint_le_iff : e.startPoint ≤ e.oldEndPoint ↔ r.FallsInOrder old
  of_reversed : ¬ r.FallsInOrder old →
    e.oldEndByte = e.startByte ∧ e.oldEndPoint < e.startPoint

namespace Change

/-- The edit of one change reports the point at which the end of the range falls. -/
theorem reportsEnd_edit (d : Document) (r : Range) (inserted : List Char) :
    (edit d r inserted).ReportsEnd r d := by
  have hstart : (edit d r inserted).startByte = d.fallsAt r.start := locate_fst d r.start
  have hoffset : (locate d r.stop).1 = d.fallsAt r.stop := locate_fst d r.stop
  have hstop : (edit d r inserted).oldEndByte = max (d.fallsAt r.stop) (d.fallsAt r.start) := by
    rw [← hstart, ← hoffset]
    rfl
  have hstartPoint : (edit d r inserted).startPoint =
      Point.ofText (Text.takeBytes (d.fallsAt r.start) d.chars) := by
    rw [← hstart]
    exact locate_snd d r.start
  have hstopPoint : (edit d r inserted).oldEndPoint =
      Point.ofText (Text.takeBytes (d.fallsAt r.stop) d.chars) := by
    rw [← hoffset]
    exact locate_snd d r.stop
  have hfirst := d.isBoundary_fallsAt r.start
  have hlast := d.isBoundary_fallsAt r.stop
  refine ⟨hstopPoint, ?_, ?_, fun hreversed => ?_⟩
  · rw [hstopPoint, hstop, Point.ofText_inj hlast (hlast.max hfirst), Range.FallsInOrder]
    omega
  · rw [hstartPoint, hstopPoint]
    exact Point.ofText_le_iff hfirst hlast
  · have hlt : d.fallsAt r.stop < d.fallsAt r.start := Nat.not_le.1 hreversed
    rw [hstop, hstart, hstopPoint, hstartPoint]
    exact ⟨Nat.max_eq_right (Nat.le_of_lt hlt), Point.ofText_lt_of_lt hlast hfirst hlt⟩

/--
Every edit of a list comes from one ranged change: it is made for the text that
the changes before that one left, and as many edits follow it as changes do.
-/
theorem exists_change_of_edit {text : String} {changes : List Change} {i : Nat} {e : Edit}
    (h : (applyAll text changes).2[i]? = some e) :
    ∃ earlier change later r, changes = earlier ++ change :: later ∧
      i + 1 + later.length = (applyAll text changes).2.length ∧ change.range = some r ∧
      e = edit ⟨(applyAll text earlier).1, 0⟩ r change.text.toList := by
  induction changes using List.reverseRecOn generalizing i with
  | nil => exact absurd h (by simp [applyAll])
  | append_singleton changes last ih =>
    have hstep : applyAll text (changes ++ [last]) = apply (applyAll text changes) last := by
      rw [applyAll, List.foldl_append]
      rfl
    rw [hstep] at h ⊢
    cases hrange : last.range with
    | none =>
      rw [apply_of_isFull hrange] at h
      exact absurd h (by simp)
    | some r =>
      rw [apply_of_range hrange] at h ⊢
      obtain hlt | hge := Nat.lt_or_ge i (applyAll text changes).2.length
      · rw [List.getElem?_append_left hlt] at h
        obtain ⟨earlier, change, later, r', hchanges, hcount, hrange', he⟩ := ih h
        refine ⟨earlier, change, later ++ [last], r', ?_, ?_, hrange', he⟩
        · rw [hchanges, List.append_assoc, List.cons_append]
        · rw [List.length_append, List.length_append, ← hcount, List.length_singleton,
            List.length_singleton]
          omega
      · rw [List.getElem?_append_right hge] at h
        obtain ⟨hlast, rfl⟩ := List.getElem?_eq_some_iff.1 h
        rw [List.length_singleton] at hlast
        refine ⟨changes, last, [], r, rfl, ?_, hrange, List.getElem_singleton _⟩
        rw [List.length_append, List.length_singleton, List.length_nil]
        omega

/--
For every text, every list of changes and every edit that they give: the edit
comes from one ranged change, and the point of its old end is the one of its byte,
and not before the start point, exactly when the range falls in order in the text
that the edit applies to. An end without an offset makes it fall in order, and so
does reading order if the start has an offset. For every other range the byte is
moved to the start while its point stays before the start.
-/
theorem oldEnd_of_every_edit (text : String) (changes : List Change) (i : Nat) (e : Edit)
    (h : (applyAll text changes).2[i]? = some e) :
    ∃ earlier change later r old, changes = earlier ++ change :: later ∧
      i + 1 + later.length = (applyAll text changes).2.length ∧ change.range = some r ∧
      old = (⟨(applyAll text earlier).1, 0⟩ : Document) ∧ e.ReportsEnd r old ∧
      (old.offsetOf? r.stop.line r.stop.column = none → r.FallsInOrder old) ∧
      (r.start ≤ r.stop → old.offsetOf? r.start.line r.start.column ≠ none →
        r.FallsInOrder old) := by
  obtain ⟨earlier, change, later, r, hchanges, hcount, hrange, rfl⟩ := exists_change_of_edit h
  refine ⟨earlier, change, later, r, _, hchanges, hcount, hrange, rfl, ?_, ?_, ?_⟩
  · exact reportsEnd_edit _ r change.text.toList
  · exact Range.fallsInOrder_of_stop_none
  · exact Range.fallsInOrder_of_le

/-- A range that reaches past the end of a text, after a change that removed a line of it. -/
theorem oldEnd_of_range_past_end :
    (applyAll "é\nab\nc" [⟨some ⟨⟨0, 0⟩, ⟨1, 0⟩⟩, ""⟩, ⟨some ⟨⟨0, 1⟩, ⟨9, 9⟩⟩, "x"⟩]).2[1]? =
      some ⟨1, 4, 2, ⟨0, 1⟩, ⟨1, 1⟩, ⟨0, 2⟩⟩ ∧
    (⟨⟨0, 1⟩, ⟨9, 9⟩⟩ : Range).FallsInOrder ⟨"ab\nc", 0⟩ ∧
    (⟨1, 4, 2, ⟨0, 1⟩, ⟨1, 1⟩, ⟨0, 2⟩⟩ : Edit).ReportsEnd ⟨⟨0, 1⟩, ⟨9, 9⟩⟩ ⟨"ab\nc", 0⟩ := by
  have hedit : (applyAll "é\nab\nc"
      [⟨some ⟨⟨0, 0⟩, ⟨1, 0⟩⟩, ""⟩, ⟨some ⟨⟨0, 1⟩, ⟨9, 9⟩⟩, "x"⟩]).2[1]? =
      some ⟨1, 4, 2, ⟨0, 1⟩, ⟨1, 1⟩, ⟨0, 2⟩⟩ := by decide +kernel
  have hold : (applyAll "é\nab\nc" [⟨some ⟨⟨0, 0⟩, ⟨1, 0⟩⟩, ""⟩]).1 = "ab\nc" := by
    decide +kernel
  have hmissing : (⟨"ab\nc", 0⟩ : Document).offsetOf? 9 9 = none := by decide +kernel
  obtain ⟨earlier, change, later, r, old, hchanges, hcount, hrange, rfl, hreports, hpast, -⟩ :=
    oldEnd_of_every_edit _ _ _ _ hedit
  -- it is the last edit, so it comes from the last change
  have hlast : later = [] := by
    have hlength : 1 + 1 + later.length = 2 := hcount
    exact List.eq_nil_of_length_eq_zero (by omega)
  subst hlast
  have hparts : [(⟨some ⟨⟨0, 0⟩, ⟨1, 0⟩⟩, ""⟩ : Change)] ++ [⟨some ⟨⟨0, 1⟩, ⟨9, 9⟩⟩, "x"⟩] =
      earlier ++ [change] := hchanges
  obtain ⟨rfl, hchange⟩ := List.append_inj' hparts rfl
  obtain ⟨rfl, -⟩ := List.cons.inj hchange
  obtain rfl : _ = r := Option.some.inj hrange
  rw [hold] at hreports hpast
  exact ⟨hedit, hpast hmissing, hreports⟩

/-- The end of a reversed range is moved to the start in bytes, but not in points. -/
theorem oldEnd_before_start_of_reversed :
    ∃ e ∈ (applyAll "ab" [⟨some ⟨⟨0, 1⟩, ⟨0, 0⟩⟩, "x"⟩]).2, e.oldEndByte = 1 ∧
      e.oldEndPoint = ⟨0, 0⟩ ∧
      Point.ofText (Text.takeBytes e.oldEndByte "ab".toList) = ⟨0, 1⟩ ∧
      ¬ e.startPoint ≤ e.oldEndPoint := by
  decide +kernel

end Change

end SelectionGrowth
