import SelectionGrowth.Proofs.Text.Points

/-!
# Changes within their lines

A column past the content of a line is meant to be held at the end of the
content. A column that cannot be widened has no offset, though, and then falls at
the end of the whole text like a position on a line that does not exist. A change
therefore stays within its lines exactly when both of its columns can be widened
or stand on the last line; otherwise it is put at the end of the text, or replaces
everything up to there.

## Main definitions

- `Text.LineOf.Holds` — a column that is held on its line
- `Change.StaysWithin` — a change that keeps all outside of its lines

## Main statements

- `Change.locate_of_holds`, `Change.locate_of_not_holds` — where a column of a line falls
- `Change.offsetAt_le_of_le` — positions in reading order fall in that order
- `Change.staysWithin_iff_holds` — the changes that stay within their lines
-/

namespace SelectionGrowth

namespace Text

theorem dropBytes_bytes (cs : List Char) : dropBytes (bytes cs) cs = [] := by
  have hdrop := dropBytes_append cs []
  rwa [List.append_nil] at hdrop

namespace LineOf

variable {cs : List Char} {m n : Nat}

/-- A column is held on a line if it can be widened there, or if the text ends with the line. -/
def Holds (l : LineOf cs n) (column : Nat) : Prop :=
  column + surplus l.content ≤ maxCoordinate ∨ l.after = []

instance (l : LineOf cs n) (column : Nat) : Decidable (l.Holds column) :=
  inferInstanceAs (Decidable (_ ∨ _))

theorem offsetAt_le_offsetAt (l : LineOf cs n) {a b : Nat} (h : a ≤ b) :
    l.offsetAt a ≤ l.offsetAt b := by
  have hunits := units_takeUnits_le a l.content
  have hprefix := isPrefix_takeUnits (takeUnits_isPrefix a l.content) (Nat.le_trans hunits h)
  exact Nat.add_le_add_left (bytes_le_of_isPrefix hprefix) _

/-- What follows a column: the rest of the content, and all after it. -/
theorem exists_dropBytes_offsetAt (l : LineOf cs n) (column : Nat) :
    ∃ left, left <:+ l.content ∧ dropBytes (l.offsetAt column) cs = left ++ l.after := by
  obtain ⟨left, hleft, hcs, hbytes⟩ := l.exists_cut column
  have hdrop := dropBytes_append (l.before ++ takeUnits column l.content) (left ++ l.after)
  rw [← hcs, hbytes] at hdrop
  exact ⟨left, ⟨takeUnits column l.content, hleft⟩, hdrop⟩

theorem stop_lt_of_after_ne_nil (l : LineOf cs n) (h : l.after ≠ []) : l.stop < bytes cs := by
  have hafter : bytes l.after ≠ 0 := fun hzero => h (eq_nil_of_bytes_eq_zero hzero)
  have htotal := l.stop_add_after
  omega

/-- A line ends before a later line starts. -/
theorem stop_le_start (a : LineOf cs m) (b : LineOf cs n) (h : m < n) : a.stop ≤ b.start := by
  have ha : a.before ++ a.content <+: cs := ⟨a.after, a.parts⟩
  have hb : b.before <+: cs := ⟨b.content ++ b.after, by rw [← List.append_assoc, b.parts]⟩
  have hcount : (a.before ++ a.content).count '\n' = m := by
    rw [List.count_append, a.count_before, List.count_eq_zero.2 a.notMem_content, Nat.add_zero]
  rcases List.prefix_or_prefix_of_prefix ha hb with hle | hle
  · exact bytes_le_of_isPrefix hle
  · have hfeeds := hle.sublist.count_le '\n'
    rw [hcount, b.count_before] at hfeeds
    omega

end LineOf

end Text

namespace Change

section

variable {d : Document} {p q : Position} (hfits : d.length ≤ Text.maxCoordinate)
  (hcolumn : p.column ≤ Text.maxCoordinate)

include hfits hcolumn

/-- A column that is held falls after its units on the line. -/
theorem locate_of_holds {l : Text.LineOf d.chars p.line} (h : l.Holds p.column) :
    (locate d p).1 = l.offsetAt p.column := by
  rw [locate_fst]
  by_cases hwide : p.column + Text.surplus l.content ≤ Text.maxCoordinate
  · rw [(Document.offsetOf?_eq_some_iff hfits hcolumn l).2 ⟨hwide, rfl⟩]
    rfl
  · -- the text ends with the line, so its end is the end of the line
    have hnil : l.after = [] := h.resolve_left hwide
    have htotal := l.stop_add_after
    have hlength : Text.bytes d.chars ≤ Text.maxCoordinate := hfits
    have hstop := l.stop_eq
    have hunits : Text.units l.content ≤ p.column := by
      unfold Text.surplus at hwide
      omega
    rw [(Document.offsetOf?_eq_none_iff hfits hcolumn l).2 (by omega), l.offsetAt_of_le hunits,
      Option.getD_none]
    rw [hnil] at htotal
    exact htotal.symm

/-- A column that is not held falls at the end of the text. -/
theorem locate_of_not_holds {l : Text.LineOf d.chars p.line} (h : ¬ l.Holds p.column) :
    (locate d p).1 = d.length := by
  have hwide : Text.maxCoordinate < p.column + Text.surplus l.content :=
    Nat.not_le.1 fun hle => h (Or.inl hle)
  rw [locate_fst, (Document.offsetOf?_eq_none_iff hfits hcolumn l).2 hwide, Option.getD_none]

theorem locate_le_stop_iff {l : Text.LineOf d.chars p.line} :
    (locate d p).1 ≤ l.stop ↔ l.Holds p.column := by
  by_cases h : l.Holds p.column
  · rw [locate_of_holds hfits hcolumn h]
    exact ⟨fun _ => h, fun _ => l.offsetAt_le_stop p.column⟩
  · have hlt := l.stop_lt_of_after_ne_nil fun hnil => h (Or.inr hnil)
    rw [locate_of_not_holds hfits hcolumn h]
    exact ⟨fun hle => absurd hle (Nat.not_le.2 hlt), fun hholds => absurd hholds h⟩

end

/-- Positions in reading order fall in that order on their lines. -/
theorem offsetAt_le_of_le {cs : List Char} {p q : Position} (a : Text.LineOf cs p.line)
    (b : Text.LineOf cs q.line) (h : p ≤ q) : a.offsetAt p.column ≤ b.offsetAt q.column := by
  obtain hline | ⟨hline, hcolumn⟩ := Position.le_iff.1 h
  · calc a.offsetAt p.column ≤ a.stop := a.offsetAt_le_stop p.column
      _ ≤ b.start := a.stop_le_start b hline
      _ ≤ b.offsetAt q.column := Nat.le_add_right _ _
  · obtain ⟨hbefore, hcontent, -⟩ := a.ext_of_eq b hline
    have hsame : a.offsetAt q.column = b.offsetAt q.column := by
      rw [Text.LineOf.offsetAt, Text.LineOf.offsetAt, Text.LineOf.start, Text.LineOf.start, hbefore,
        hcontent]
    rw [← hsame]
    exact a.offsetAt_le_offsetAt hcolumn

/--
A ranged change stays within its lines: all before its first line is kept, and so
is all that follows the content of its last line, after the inserted text. Each
end falls in the content of its line, and at the end of the content if its column
is past it.
-/
structure StaysWithin (text : String) (r : Range) (inserted : String)
    (first : Text.LineOf text.toList r.start.line)
    (last : Text.LineOf text.toList r.stop.line) : Prop where
  keeps : ∃ kept left, kept <+: first.content ∧ left <:+ last.content ∧
    (applyAll text [⟨some r, inserted⟩]).1.toList =
      first.before ++ kept ++ inserted.toList ++ (left ++ last.after)
  clamps : ∃ e, (applyAll text [⟨some r, inserted⟩]).2 = [e] ∧
    (first.start ≤ e.startByte ∧ e.startByte ≤ first.stop) ∧
    (last.start ≤ e.oldEndByte ∧ e.oldEndByte ≤ last.stop) ∧
    (Text.units first.content ≤ r.start.column → e.startByte = first.stop) ∧
    (Text.units last.content ≤ r.stop.column → e.oldEndByte = last.stop)

variable {text : String} {r : Range}

theorem applyAll_single_fst (text : String) (r : Range) (inserted : String) :
    (applyAll text [⟨some r, inserted⟩]).1.toList =
      Text.takeBytes (locate ⟨text, 0⟩ r.start).1 text.toList ++ inserted.toList ++
        Text.dropBytes (max (locate ⟨text, 0⟩ r.stop).1 (locate ⟨text, 0⟩ r.start).1)
          text.toList :=
  String.toList_ofList

section

variable (hfits : Text.bytes text.toList ≤ Text.maxCoordinate)
  (hstart : r.start.column ≤ Text.maxCoordinate)
  {first : Text.LineOf text.toList r.start.line} {last : Text.LineOf text.toList r.stop.line}

include hfits hstart

/-- A change that starts at a column that is not held is put at the end of the text. -/
theorem applyAll_of_start_not_holds (h : ¬ first.Holds r.start.column) (inserted : String) :
    (applyAll text [⟨some r, inserted⟩]).1.toList = text.toList ++ inserted.toList := by
  have hopen : (locate ⟨text, 0⟩ r.start).1 = Text.bytes text.toList :=
    locate_of_not_holds (d := ⟨text, 0⟩) hfits hstart h
  have hclose : max (locate ⟨text, 0⟩ r.stop).1 (locate ⟨text, 0⟩ r.start).1 =
      Text.bytes text.toList := by
    rw [hopen]
    exact Nat.max_eq_right (isBoundary_locate ⟨text, 0⟩ r.stop).le_bytes
  rw [applyAll_single_fst, hclose, hopen, Text.takeBytes_of_le (Nat.le_refl _),
    Text.dropBytes_bytes, List.append_nil]

/-- A change that stops at a column that is not held loses the rest of the text. -/
theorem applyAll_of_stop_not_holds (hstop : r.stop.column ≤ Text.maxCoordinate)
    (hfirst : first.Holds r.start.column) (h : ¬ last.Holds r.stop.column) (inserted : String) :
    (applyAll text [⟨some r, inserted⟩]).1.toList =
      first.before ++ Text.takeUnits r.start.column first.content ++ inserted.toList := by
  have hopen : (locate ⟨text, 0⟩ r.start).1 = first.offsetAt r.start.column :=
    locate_of_holds (d := ⟨text, 0⟩) hfits hstart hfirst
  have hclose : max (locate ⟨text, 0⟩ r.stop).1 (locate ⟨text, 0⟩ r.start).1 =
      Text.bytes text.toList := by
    have hbyte : (locate ⟨text, 0⟩ r.stop).1 = Text.bytes text.toList :=
      locate_of_not_holds (d := ⟨text, 0⟩) hfits hstop h
    rw [hbyte]
    exact Nat.max_eq_left (isBoundary_locate ⟨text, 0⟩ r.start).le_bytes
  rw [applyAll_single_fst, hclose, hopen, first.takeBytes_offsetAt, Text.dropBytes_bytes,
    List.append_nil]

theorem staysWithin_of_holds (hstop : r.stop.column ≤ Text.maxCoordinate) (hle : r.start ≤ r.stop)
    (hfirst : first.Holds r.start.column) (hlast : last.Holds r.stop.column) (inserted : String) :
    StaysWithin text r inserted first last := by
  have hopen : (locate ⟨text, 0⟩ r.start).1 = first.offsetAt r.start.column :=
    locate_of_holds (d := ⟨text, 0⟩) hfits hstart hfirst
  have hclose : max (locate ⟨text, 0⟩ r.stop).1 (locate ⟨text, 0⟩ r.start).1 =
      last.offsetAt r.stop.column := by
    have hbyte : (locate ⟨text, 0⟩ r.stop).1 = last.offsetAt r.stop.column :=
      locate_of_holds (d := ⟨text, 0⟩) hfits hstop hlast
    rw [hopen, hbyte]
    exact Nat.max_eq_left (offsetAt_le_of_le first last hle)
  obtain ⟨left, hleft, hdrop⟩ := last.exists_dropBytes_offsetAt r.stop.column
  refine ⟨⟨_, left, Text.takeUnits_isPrefix r.start.column first.content, hleft, ?_⟩,
    ⟨edit ⟨text, 0⟩ r inserted.toList, rfl, ?_, ?_, ?_, ?_⟩⟩
  · rw [applyAll_single_fst, hclose, hdrop, hopen, first.takeBytes_offsetAt]
  · have hbyte : (edit ⟨text, 0⟩ r inserted.toList).startByte = _ := hopen
    rw [hbyte]
    exact ⟨Nat.le_add_right _ _, first.offsetAt_le_stop r.start.column⟩
  · have hbyte : (edit ⟨text, 0⟩ r inserted.toList).oldEndByte = _ := hclose
    rw [hbyte]
    exact ⟨Nat.le_add_right _ _, last.offsetAt_le_stop r.stop.column⟩
  · exact fun hpast => hopen.trans (first.offsetAt_of_le hpast)
  · exact fun hpast => hclose.trans (last.offsetAt_of_le hpast)

theorem holds_of_staysWithin (hstop : r.stop.column ≤ Text.maxCoordinate) {inserted : String}
    (h : StaysWithin text r inserted first last) :
    first.Holds r.start.column ∧ last.Holds r.stop.column := by
  obtain ⟨e, hedits, ⟨-, hopen⟩, ⟨-, hclose⟩, -⟩ := h.clamps
  obtain rfl : edit ⟨text, 0⟩ r inserted.toList = e := (List.cons.inj hedits).1
  constructor
  · exact (locate_le_stop_iff (d := ⟨text, 0⟩) hfits hstart).1 hopen
  · exact (locate_le_stop_iff (d := ⟨text, 0⟩) hfits hstop).1
      (Nat.le_trans (Nat.le_max_left _ _) hclose)

end

/--
A ranged change whose ends name lines of the text, in order, stays within these
lines exactly when both of its columns are held: when the column and the surplus
of the line are in the range of coordinates, or the line is the last one. If the
first column is not held, the text is put at the end of the document; if only the
second one is not, everything after the first is lost.
-/
theorem staysWithin_iff_holds (hfits : Text.bytes text.toList ≤ Text.maxCoordinate)
    (hstart : r.start.column ≤ Text.maxCoordinate) (hstop : r.stop.column ≤ Text.maxCoordinate)
    (hle : r.start ≤ r.stop) (first : Text.LineOf text.toList r.start.line)
    (last : Text.LineOf text.toList r.stop.line) (inserted : String) :
    (StaysWithin text r inserted first last ↔
      first.Holds r.start.column ∧ last.Holds r.stop.column) ∧
    (¬ first.Holds r.start.column →
      (applyAll text [⟨some r, inserted⟩]).1.toList = text.toList ++ inserted.toList) ∧
    (first.Holds r.start.column → ¬ last.Holds r.stop.column →
      (applyAll text [⟨some r, inserted⟩]).1.toList =
        first.before ++ Text.takeUnits r.start.column first.content ++ inserted.toList) := by
  refine ⟨⟨holds_of_staysWithin hfits hstart hstop, fun h => ?_⟩, fun h => ?_, fun hfirst h => ?_⟩
  · exact staysWithin_of_holds hfits hstart hstop hle h.1 h.2 inserted
  · exact applyAll_of_start_not_holds hfits hstart h inserted
  · exact applyAll_of_stop_not_holds hfits hstart hstop hfirst h inserted

theorem exists_accentedLine : ∃ l : Text.LineOf "é\nb".toList 0,
    l.before = [] ∧ l.content = ['é'] ∧ l.after = ['\n', 'b'] :=
  ⟨⟨[], ['é'], ['\n', 'b'], by decide +kernel, Text.wholeLines_nil, rfl, by decide,
    Or.inr ⟨by decide +kernel, by decide⟩⟩, rfl, rfl, rfl⟩

/-- The largest column but one is held at the end of a line of one character of two bytes. -/
theorem staysWithin_of_held_column : ∃ l : Text.LineOf "é\nb".toList 0,
    Text.bytes "é\nb".toList ≤ Text.maxCoordinate ∧ 0 ≤ Text.maxCoordinate ∧
    4294967294 ≤ Text.maxCoordinate ∧ (⟨0, 0⟩ : Position) ≤ ⟨0, 4294967294⟩ ∧
    l.Holds 0 ∧ l.Holds 4294967294 ∧
    StaysWithin "é\nb" ⟨⟨0, 0⟩, ⟨0, 4294967294⟩⟩ "x" l l := by
  obtain ⟨l, -, hcontent, -⟩ := exists_accentedLine
  have hfits : Text.bytes "é\nb".toList ≤ Text.maxCoordinate := by decide +kernel
  have hstart : 0 ≤ Text.maxCoordinate := Nat.zero_le _
  have hstop : 4294967294 ≤ Text.maxCoordinate := by decide
  have hle : (⟨0, 0⟩ : Position) ≤ ⟨0, 4294967294⟩ := by decide
  have hholds : l.Holds 0 ∧ l.Holds 4294967294 := by
    unfold Text.LineOf.Holds
    rw [hcontent]
    exact ⟨Or.inl (by decide), Or.inl (by decide)⟩
  exact ⟨l, hfits, hstart, hstop, hle, hholds.1, hholds.2,
    (staysWithin_iff_holds (r := ⟨⟨0, 0⟩, ⟨0, 4294967294⟩⟩) hfits hstart hstop hle l l "x").1.2
      hholds⟩

/-- The largest column cannot be widened on that line: the line after it is lost. -/
theorem not_staysWithin_of_largest_column : ∃ l : Text.LineOf "é\nb".toList 0,
    (⟨0, 0⟩ : Position) ≤ ⟨0, 4294967295⟩ ∧ 4294967295 ≤ Text.maxCoordinate ∧
    (applyAll "é\nb" [⟨some ⟨⟨0, 0⟩, ⟨0, 4294967295⟩⟩, "x"⟩]).1 = "x" ∧ l.after = ['\n', 'b'] ∧
    (¬ ∃ kept left, (applyAll "é\nb" [⟨some ⟨⟨0, 0⟩, ⟨0, 4294967295⟩⟩, "x"⟩]).1.toList =
      l.before ++ kept ++ "x".toList ++ (left ++ l.after)) ∧
    ¬ StaysWithin "é\nb" ⟨⟨0, 0⟩, ⟨0, 4294967295⟩⟩ "x" l l := by
  obtain ⟨l, -, -, hafter⟩ := exists_accentedLine
  have hnew : (applyAll "é\nb" [⟨some ⟨⟨0, 0⟩, ⟨0, 4294967295⟩⟩, "x"⟩]).1 = "x" := by
    decide +kernel
  have hlost : ¬ ∃ kept left, (applyAll "é\nb" [⟨some ⟨⟨0, 0⟩, ⟨0, 4294967295⟩⟩, "x"⟩]).1.toList =
      l.before ++ kept ++ "x".toList ++ (left ++ l.after) := by
    rintro ⟨kept, left, heq⟩
    rw [hnew, hafter] at heq
    have hlength := congrArg List.length heq
    simp only [List.length_append, List.length_cons, List.length_nil] at hlength
    omega
  refine ⟨l, by decide, by decide, hnew, hafter, hlost, fun h => ?_⟩
  obtain ⟨kept, left, -, -, heq⟩ := h.keeps
  exact hlost ⟨kept, left, heq⟩

end Change

end SelectionGrowth
