import Mathlib.Data.List.DropRight
import Mathlib.Data.List.Induction
import SelectionGrowth.Proofs.Text.Positions
import SelectionGrowth.Proofs.Text.Replay

/-!
# Points of edits

A point counts what stands before an offset in rows and bytes. The parser is told
the points of every edit without a recount of the text: the start point comes
from the line that the change names, and the new end point from the inserted text
alone. Both agree with a recount over the whole text, before and after the edit.

## Main definitions

- `Point.ofText` — the point at the end of a text
- `Edit.Accurate` — an edit that describes the replacement of one range
- `Change.Traced` — changes in order, with the edits since the last full replacement

## Main statements

- `Change.advance_ofText` — writing text moves a point as a recount does
- `Change.locate_snd` — a position is located at the point of its offset
- `Change.accurate_edit` — the edit of a change is accurate
- `Change.Traced.step`, `Change.traced_applyAll` — one change, and a list of them
- `Change.edits_trace_changes` — the edits of a list of changes, all of them accurate
-/

namespace SelectionGrowth

/-- The point at the end of a text: its line feeds, and the bytes since the last of them. -/
def Point.ofText (before : List Char) : Point :=
  ⟨before.count '\n', Text.bytes (Text.lastLine before)⟩

/--
An edit describes how a text is put in place of a range: which bytes of the old
text it replaces, how the new text is made up, and the points at which the
replaced bytes start and the inserted ones end. An end on a line that does not
exist is at the end of the old text, and so is every end without an offset.
-/
structure Edit.Accurate (e : Edit) (r : Range) (inserted old new : String) : Prop where
  start_le_oldEnd : e.startByte ≤ e.oldEndByte
  oldEnd_le : e.oldEndByte ≤ Text.bytes old.toList
  isBoundary_start : Text.IsBoundary old.toList e.startByte
  isBoundary_oldEnd : Text.IsBoundary old.toList e.oldEndByte
  newEnd_eq : e.newEndByte = e.startByte + Text.bytes inserted.toList
  new_eq : new.toList = Text.takeBytes e.startByte old.toList ++ inserted.toList ++
    Text.dropBytes e.oldEndByte old.toList
  startPoint_eq : e.startPoint = Point.ofText (Text.takeBytes e.startByte old.toList)
  newEndPoint_eq : e.newEndPoint = Point.ofText (Text.takeBytes e.newEndByte new.toList)
  start_eq : e.startByte = ((⟨old, 0⟩ : Document).offsetOf? r.start.line r.start.column).getD
    (Text.bytes old.toList)
  oldEnd_eq : e.oldEndByte = max (((⟨old, 0⟩ : Document).offsetOf? r.stop.line r.stop.column).getD
    (Text.bytes old.toList)) e.startByte
  start_of_missing : Text.lineCount old.toList ≤ r.start.line →
    e.startByte = Text.bytes old.toList
  oldEnd_of_missing : Text.lineCount old.toList ≤ r.stop.line →
    e.oldEndByte = Text.bytes old.toList

namespace Change

/--
The text after changes in order, with the edits since the last full replacement:
a full replacement gives the new text and drops the edits before it, and a ranged
change adds an edit that is accurate for the text that the earlier changes left.
-/
inductive Traced (text : String) : List Change → String → List Edit → Prop
  | nil : Traced text [] text []
  | full {changes : List Change} {old : String} {edits : List Edit} {change : Change}
      (earlier : Traced text changes old edits) (hfull : change.IsFull) :
      Traced text (changes ++ [change]) change.text []
  | ranged {changes : List Change} {old new : String} {edits : List Edit} {change : Change}
      {r : Range} {e : Edit} (earlier : Traced text changes old edits)
      (hrange : change.range = some r) (haccurate : e.Accurate r change.text old new) :
      Traced text (changes ++ [change]) new (edits ++ [e])

end Change

-- ════════════════════════════════════════════════════════════════════════
-- Points at the end of a text
-- ════════════════════════════════════════════════════════════════════════

namespace Text

theorem line_append_of_mem {as : List Char} (h : '\n' ∈ as) (bs : List Char) :
    line (as ++ bs) = line as := by
  obtain ⟨after, hafter⟩ := exists_line_append h
  have hcut : as ++ bs = line as ++ '\n' :: (after ++ bs) := by
    rw [← List.cons_append, ← List.append_assoc, hafter]
  rw [hcut, line_append (notMem_line as)]
  simp [line]

theorem lastLine_append_of_mem (before : List Char) {inserted : List Char} (h : '\n' ∈ inserted) :
    lastLine (before ++ inserted) = lastLine inserted := by
  have hline : lastLine (before ++ inserted) =
      (line (inserted.reverse ++ before.reverse)).reverse := by
    rw [lastLine, List.reverse_append, line]
  rw [hline, line_append_of_mem (List.mem_reverse.2 h)]
  rfl

end Text

theorem Point.ofText_append {lines part : List Char} (hlines : Text.WholeLines lines)
    (hpart : '\n' ∉ part) :
    Point.ofText (lines ++ part) = ⟨lines.count '\n', Text.bytes part⟩ := by
  rw [ofText, Text.lastLine_append hlines hpart, List.count_append, List.count_eq_zero.2 hpart,
    Nat.add_zero]

theorem Document.offsetOf?_zero_of_splitAtLine {d : Document} {line : Nat}
    {before rest : List Char} (h : Text.splitAtLine line d.chars = some (before, rest)) :
    d.offsetOf? line 0 = some (Text.bytes before) := by
  rw [offsetOf?, h]
  simp only [Text.byteColumn?, Text.widen_of_le (Nat.le_refl 0), Option.map_some,
    Text.floorBoundary, Text.takeBytes_zero]
  rfl

/-- A replacement is made exactly when it names whole characters in order. -/
theorem Edit.replaceIn?_eq_some_iff {e : Edit} {inserted text new : String} :
    e.replaceIn? inserted text = some new ↔
      e.startByte ≤ e.oldEndByte ∧ Text.IsBoundary text.toList e.startByte ∧
        Text.IsBoundary text.toList e.oldEndByte ∧
        new.toList = Text.replaceBytes text.toList e.startByte e.oldEndByte inserted.toList := by
  unfold replaceIn?
  split
  · next h =>
    rw [Option.some.injEq, ← String.toList_inj, String.toList_ofList]
    exact ⟨fun heq => ⟨h.1, h.2.1, h.2.2, heq.symm⟩, fun hnew => hnew.2.2.2.symm⟩
  · next h =>
    refine ⟨fun hnone => (nomatch hnone), fun hnew => ?_⟩
    exact absurd ⟨hnew.1, hnew.2.1, hnew.2.2.1⟩ h

namespace Change

/-- Writing a text moves a point to where a recount finds it. -/
theorem advance_ofText (before inserted : List Char) :
    advance (Point.ofText before) inserted = Point.ofText (before ++ inserted) := by
  unfold advance
  by_cases h : '\n' ∈ inserted
  · rw [if_pos h, Point.ofText, Point.ofText, Text.lastLine_append_of_mem before h,
      List.count_append]
  · rw [if_neg h, Point.ofText, Point.ofText, Text.lastLine_append_of_notMem before h,
      List.count_append, List.count_eq_zero.2 h, Text.bytes_append, Nat.add_zero]

variable {d : Document} {p : Position}

theorem endOf_snd (d : Document) : (endOf d).2 = Point.ofText d.chars := by
  obtain ⟨lines, part, hchars, hlines, hpart⟩ := Text.exists_wholeLines d.chars
  have hcut : d.chars = lines ++ part ++ [] := by rw [hchars, List.append_nil]
  have hlength : d.length = Text.bytes (lines ++ part) := congrArg Text.bytes hchars
  have hposition : d.positionOf? d.length = some ⟨lines.count '\n', Text.units part⟩ := by
    rw [hlength]
    exact Document.positionOf?_of_cut hcut hlines hpart
  have hstart : d.offsetOf? (lines.count '\n') 0 = some (Text.bytes lines) := by
    have hsplit := Text.splitAtLine_of_wholeLines hlines part
    rw [← hchars] at hsplit
    exact Document.offsetOf?_zero_of_splitAtLine hsplit
  unfold endOf
  simp only [hposition, hstart]
  rw [hlength, hchars, Point.ofText_append hlines hpart, Text.bytes_append,
    Nat.add_sub_cancel_left]

theorem locate_of_none (h : d.offsetOf? p.line p.column = none) : locate d p = endOf d := by
  unfold locate
  rw [h]

theorem locate_of_some {offset : Nat} (h : d.offsetOf? p.line p.column = some offset) :
    ∃ l : Text.LineOf d.chars p.line, locate d p = (offset, ⟨p.line, offset - l.start⟩) := by
  obtain ⟨l⟩ := Document.nonempty_lineOf_of_offsetOf? h
  refine ⟨l, ?_⟩
  unfold locate
  rw [h, Document.offsetOf?_zero_of_splitAtLine l.splitAtLine_eq]
  rfl

/-- A position falls at its offset, or at the end of the text if it has none. -/
theorem locate_fst (d : Document) (p : Position) :
    (locate d p).1 = (d.offsetOf? p.line p.column).getD d.length := by
  cases h : d.offsetOf? p.line p.column with
  | none => rw [locate_of_none h, endOf_fst, Option.getD_none]
  | some offset =>
    obtain ⟨l, hl⟩ := locate_of_some h
    rw [hl, Option.getD_some]

/-- A position on a line that does not exist falls at the end of the text. -/
theorem locate_of_missing (d : Document) (p : Position) (h : d.lineCount ≤ p.line) :
    (locate d p).1 = d.length := by
  rw [locate_of_none (Document.offsetOf?_eq_none_of_le h), endOf_fst]

/-- The point of a position is the one that a recount finds before its offset. -/
theorem locate_snd (d : Document) (p : Position) :
    (locate d p).2 = Point.ofText (Text.takeBytes (locate d p).1 d.chars) := by
  cases h : d.offsetOf? p.line p.column with
  | none =>
    rw [locate_of_none h, endOf_snd, endOf_fst]
    exact congrArg Point.ofText (Text.takeBytes_of_le (Nat.le_refl _)).symm
  | some offset =>
    obtain ⟨l, hl⟩ := locate_of_some h
    obtain rfl := Document.eq_of_offsetOf? l h
    rw [hl, l.takeBytes_offsetAt, Point.ofText_append l.wholeLines (l.notMem_takeUnits p.column),
      l.count_before, Text.LineOf.offsetAt, Nat.add_sub_cancel_left]

-- ════════════════════════════════════════════════════════════════════════
-- Accurate edits
-- ════════════════════════════════════════════════════════════════════════

theorem not_isFull_of_range {change : Change} {r : Range} (h : change.range = some r) :
    ¬ change.IsFull := by
  rw [IsFull, h]
  exact Option.some_ne_none r

theorem apply_of_range {change : Change} {r : Range} (h : change.range = some r)
    (state : String × List Edit) : (apply state change).2 =
      state.2 ++ [edit ⟨state.1, 0⟩ r change.text.toList] := by
  unfold apply
  rw [h]

theorem replaceIn?_edit {change : Change} {r : Range} (h : change.range = some r)
    (state : String × List Edit) :
    (edit ⟨state.1, 0⟩ r change.text.toList).replaceIn? change.text state.1 =
      some (apply state change).1 := by
  obtain ⟨e, hedits, hreplace, -⟩ := exists_edit_of_not_isFull (not_isFull_of_range h) state
  rw [apply_of_range h] at hedits
  obtain ⟨rfl, -⟩ := List.cons.inj (List.append_cancel_left hedits)
  exact hreplace

/-- The new end of a replacement cuts the new text after what was inserted. -/
theorem takeBytes_newEnd {old inserted new : List Char} {start oldEnd : Nat}
    (hstart : Text.IsBoundary old start)
    (hnew : new = Text.replaceBytes old start oldEnd inserted) :
    Text.takeBytes (start + Text.bytes inserted) new = Text.takeBytes start old ++ inserted := by
  have htake := Text.takeBytes_append (Text.takeBytes start old ++ inserted)
    (Text.dropBytes oldEnd old)
  have hbytes : Text.bytes (Text.takeBytes start old) = start := Text.isBoundary_iff.1 hstart
  rwa [Text.bytes_append, hbytes, ← Text.replaceBytes, ← hnew] at htake

/-- The edit of a ranged change is accurate for the text before the change and after it. -/
theorem accurate_edit {change : Change} {r : Range} (h : change.range = some r)
    (state : String × List Edit) :
    (edit ⟨state.1, 0⟩ r change.text.toList).Accurate r change.text state.1
      (apply state change).1 := by
  obtain ⟨hle, hstart, hstop, hnew⟩ := Edit.replaceIn?_eq_some_iff.1 (replaceIn?_edit h state)
  have hfirst := locate_fst ⟨state.1, 0⟩ r.start
  have hlast := locate_fst ⟨state.1, 0⟩ r.stop
  have hpoint := locate_snd ⟨state.1, 0⟩ r.start
  exact
    { start_le_oldEnd := hle
      oldEnd_le := hstop.le_bytes
      isBoundary_start := hstart
      isBoundary_oldEnd := hstop
      newEnd_eq := rfl
      new_eq := hnew
      startPoint_eq := hpoint
      newEndPoint_eq :=
        calc advance (locate ⟨state.1, 0⟩ r.start).2 change.text.toList
            = advance (Point.ofText (Text.takeBytes (locate ⟨state.1, 0⟩ r.start).1
                state.1.toList)) change.text.toList := congrArg (advance · _) hpoint
          _ = _ := advance_ofText _ _
          _ = _ := congrArg Point.ofText (takeBytes_newEnd hstart hnew).symm
      start_eq := hfirst
      oldEnd_eq := congrArg (max · _) hlast
      start_of_missing := locate_of_missing ⟨state.1, 0⟩ r.start
      oldEnd_of_missing := fun hmissing =>
        (congrArg (max · _) (locate_of_missing ⟨state.1, 0⟩ r.stop hmissing)).trans
          (Nat.max_eq_left hstart.le_bytes) }

/-- One edit is kept for each ranged change after the last full replacement. -/
theorem Traced.length_eq {text new : String} {changes : List Change} {edits : List Edit}
    (h : Traced text changes new edits) :
    edits.length = (changes.rtakeWhile fun change => ¬ change.IsFull).length := by
  induction h with
  | nil => rfl
  | full earlier hfull ih =>
    rw [List.rtakeWhile_concat_neg _ _ _ (by simpa using hfull)]
    rfl
  | ranged earlier hrange haccurate ih =>
    have hranged := not_isFull_of_range hrange
    rw [List.rtakeWhile_concat_pos _ _ _ (by simpa using hranged), List.length_append,
      List.length_append, ih]
    rfl

theorem Traced.step {text : String} {changes : List Change} {state : String × List Edit}
    (h : Traced text changes state.1 state.2) (change : Change) :
    Traced text (changes ++ [change]) (apply state change).1 (apply state change).2 := by
  cases hrange : change.range with
  | none =>
    rw [apply_of_isFull hrange]
    exact .full h hrange
  | some r =>
    rw [apply_of_range hrange]
    exact .ranged h hrange (accurate_edit hrange state)

theorem traced_applyAll (text : String) (changes : List Change) :
    Traced text changes (applyAll text changes).1 (applyAll text changes).2 := by
  induction changes using List.reverseRecOn with
  | nil => exact .nil
  | append_singleton changes change ih =>
    have hstep : applyAll text (changes ++ [change]) = apply (applyAll text changes) change := by
      rw [applyAll, List.foldl_append]
      rfl
    rw [hstep]
    exact ih.step change

/--
For every text and every list of changes, with ranges of any kind: the new text
comes from the old one by the full replacements and by the replacements that the
edits describe, in order. Each edit replaces whole characters of the text that it
applies to, its points agree with a recount, and an end on a line that does not
exist is at the end of that text. One edit is kept for each ranged change after
the last full replacement.
-/
theorem edits_trace_changes (text : String) (changes : List Change) :
    Traced text changes (applyAll text changes).1 (applyAll text changes).2 ∧
    (applyAll text changes).2.length =
      (changes.rtakeWhile fun change => ¬ change.IsFull).length := by
  have htraced := traced_applyAll text changes
  exact ⟨htraced, htraced.length_eq⟩

end Change

end SelectionGrowth
