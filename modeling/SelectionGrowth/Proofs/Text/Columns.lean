import Mathlib.Order.Bounds.Defs
import SelectionGrowth.Proofs.Text.RoundTrip

/-!
# Columns of a line

A column is widened to a byte column by a walk over the characters beyond ASCII,
then held at the end of what columns address and rounded down to a character.
All of this comes to counting UTF-16 units: a column means the end of the longest
part of the line that has at most that many units. The walk fails only when the
column and the surplus of bytes over units of the whole line leave the range of
coordinates.

## Main definitions

- `Text.LineOf` — one line of a text, between what stands before and after it
- `Text.takeUnits` — the longest part with at most a number of units
- `Text.surplus` — how many more bytes than units a text has

## Main statements

- `Text.nonempty_lineOf_iff`, `Text.LineOf.ext_of_eq` — a line exists up to the line count, once
- `Text.takeBytes_of_widen` — widening counts units
- `Text.widen_eq_none_iff` — when widening fails
- `Document.offsetOf?_exact` — the exact meaning of a position
-/

namespace SelectionGrowth

namespace Text

/--
Line `n` of a text, counted from zero. Its content is what columns address: it
reaches to the end of the text or to the carriage returns and the line feed that
end the line.
-/
structure LineOf (cs : List Char) (n : Nat) where
  before : List Char
  content : List Char
  after : List Char
  parts : before ++ content ++ after = cs
  wholeLines : WholeLines before
  count_before : before.count '\n' = n
  notMem_content : '\n' ∉ content
  closed : after = [] ∨ BeforeFeed after ∧ content.getLast? ≠ some '\r'

/-- The longest prefix of whole characters with at most `n` UTF-16 units. -/
def takeUnits : Nat → List Char → List Char
  | _, [] => []
  | n, c :: cs => if unitSize c ≤ n then c :: takeUnits (n - unitSize c) cs else []

/-- How many more bytes than UTF-16 units a text has. -/
def surplus (cs : List Char) : Nat :=
  bytes cs - units cs

-- ════════════════════════════════════════════════════════════════════════
-- Taking units
-- ════════════════════════════════════════════════════════════════════════

theorem takeUnits_isPrefix (n : Nat) (cs : List Char) : takeUnits n cs <+: cs := by
  induction cs generalizing n with
  | nil => exact List.nil_prefix
  | cons c cs ih =>
    rw [takeUnits]
    split
    · exact (List.prefix_cons_inj c).2 (ih _)
    · exact List.nil_prefix

theorem units_takeUnits_le (n : Nat) (cs : List Char) : units (takeUnits n cs) ≤ n := by
  induction cs generalizing n with
  | nil => exact Nat.zero_le n
  | cons c cs ih =>
    rw [takeUnits]
    split
    · have := ih (n - unitSize c)
      rw [units]
      omega
    · exact Nat.zero_le n

theorem takeUnits_zero (cs : List Char) : takeUnits 0 cs = [] := by
  cases cs with
  | nil => rfl
  | cons c cs =>
    have hunits := unitSize_bounds c
    rw [takeUnits, if_neg (by omega)]

/-- A part with few enough units is taken, and the units that are left go to what follows it. -/
theorem takeUnits_append {n : Nat} {part : List Char} (h : units part ≤ n) (rest : List Char) :
    takeUnits n (part ++ rest) = part ++ takeUnits (n - units part) rest := by
  induction part generalizing n with
  | nil => rfl
  | cons c part ih =>
    rw [units] at h
    rw [List.cons_append, takeUnits, if_pos (by omega), ih (by omega), units, Nat.sub_sub]
    rfl

theorem takeUnits_of_le {n : Nat} {cs : List Char} (h : units cs ≤ n) : takeUnits n cs = cs := by
  have htake := takeUnits_append h []
  rwa [List.append_nil, takeUnits, List.append_nil] at htake

/-- A number of units that ends inside a character stops before the character. -/
theorem takeUnits_append_cons {n : Nat} {part : List Char} {c : Char} (hle : units part ≤ n)
    (hlt : n < units part + unitSize c) (rest : List Char) :
    takeUnits n (part ++ c :: rest) = part := by
  rw [takeUnits_append hle, takeUnits, if_neg (by omega), List.append_nil]

/-- Every part with few enough units is a part of the longest one. -/
theorem isPrefix_takeUnits {n : Nat} {part cs : List Char} (hpart : part <+: cs)
    (h : units part ≤ n) : part <+: takeUnits n cs := by
  obtain ⟨rest, rfl⟩ := hpart
  rw [takeUnits_append h]
  exact List.prefix_append _ _

/-- The longest part is the greatest of all parts with few enough units, measured in bytes. -/
theorem isGreatest_takeUnits (n : Nat) (cs : List Char) :
    IsGreatest {b | ∃ part, part <+: cs ∧ bytes part = b ∧ units part ≤ n}
      (bytes (takeUnits n cs)) := by
  refine ⟨⟨takeUnits n cs, takeUnits_isPrefix n cs, rfl, units_takeUnits_le n cs⟩, ?_⟩
  rintro b ⟨part, hpart, rfl, hunits⟩
  exact bytes_le_of_isPrefix (isPrefix_takeUnits hpart hunits)

-- ════════════════════════════════════════════════════════════════════════
-- Widening counts units
-- ════════════════════════════════════════════════════════════════════════

theorem surplus_cons (c : Char) (cs : List Char) :
    surplus (c :: cs) = (c.utf8Size - unitSize c) + surplus cs := by
  have hc := unitSize_bounds c
  have hcs := units_le_bytes cs
  simp only [surplus, bytes, units]
  omega

theorem surplus_append (as bs : List Char) : surplus (as ++ bs) = surplus as + surplus bs := by
  have has := units_le_bytes as
  have hbs := units_le_bytes bs
  simp only [surplus, bytes_append, units_append]
  omega

theorem surplus_of_forall_return {cs : List Char} (h : ∀ c ∈ cs, c = '\r') : surplus cs = 0 := by
  induction cs with
  | nil => rfl
  | cons c cs ih =>
    obtain ⟨rfl, hcs⟩ := List.forall_mem_cons.1 h
    rw [surplus_cons, ih hcs]
    rfl

/--
One character as it moves the walk and the column: both pass the character, the
column by its surplus, unless the walk has reached the column. A character of
ASCII has no surplus.
-/
theorem widen_cons_cases {passed column wide : Nat} {c : Char} {cs : List Char}
    (h : widen passed (c :: cs) column = some wide) :
    widen (passed + c.utf8Size) cs (column + (c.utf8Size - unitSize c)) = some wide ∨
      column ≤ passed ∧ wide = column := by
  have hc := unitSize_bounds c
  rw [widen] at h
  split at h
  · next hone =>
    have hsurplus : c.utf8Size - unitSize c = 0 := by omega
    rw [hone] at hsurplus ⊢
    rw [hsurplus]
    exact Or.inl h
  · split at h
    · simp only at h
      split at h
      · exact Or.inl h
      · cases h
    · next hreached => exact Or.inr ⟨Nat.not_lt.1 hreached, (Option.some.inj h).symm⟩

theorem le_of_widen {passed column wide : Nat} {cs : List Char}
    (h : widen passed cs column = some wide) : column ≤ wide := by
  induction cs generalizing passed column with
  | nil => exact Nat.le_of_eq (Option.some.inj h)
  | cons c cs ih =>
    obtain hrest | ⟨-, rfl⟩ := widen_cons_cases h
    · exact Nat.le_trans (Nat.le_add_right _ _) (ih hrest)
    · exact Nat.le_refl _

/--
Cutting a part of a line at the widened column is the same as counting the
column's units in it. The walk is at byte `passed` of the line, and the part
starts there too.
-/
theorem takeBytes_of_widen {passed column wide : Nat} {cs part : List Char}
    (h : widen passed cs column = some wide) (hpart : part <+: cs) (hle : passed ≤ column) :
    takeBytes (wide - passed) part = takeUnits (column - passed) part := by
  induction cs generalizing passed column part with
  | nil =>
    rw [List.prefix_nil.1 hpart]
    rfl
  | cons c cs ih =>
    have hc := unitSize_bounds c
    cases part with
    | nil => rfl
    | cons first part =>
      obtain ⟨rfl, hprefix⟩ := List.cons_prefix_cons.1 hpart
      obtain hrest | ⟨hreached, rfl⟩ := widen_cons_cases h
      · have hwide := le_of_widen hrest
        rw [takeBytes, takeUnits]
        by_cases hfits : unitSize first ≤ column - passed
        · have htail := ih hrest hprefix (by omega)
          have hunits : column + (first.utf8Size - unitSize first) - (passed + first.utf8Size) =
              column - passed - unitSize first := by
            omega
          rw [hunits] at htail
          rw [if_pos (by omega), if_pos hfits, Nat.sub_sub, htail]
        · -- the column is inside this character, and the walk has passed it
          rw [widen_of_le (by omega)] at hrest
          obtain rfl := Option.some.inj hrest
          rw [if_neg (by omega), if_neg hfits]
      · rw [Nat.sub_eq_zero_of_le hreached, takeBytes_zero, takeUnits_zero]

/-- Widening fails exactly when the surplus takes the column out of the range of coordinates. -/
theorem widen_eq_none_iff {passed column : Nat} {cs : List Char} (hcolumn : column ≤ maxCoordinate)
    (hfits : passed + bytes cs ≤ maxCoordinate) :
    widen passed cs column = none ↔ maxCoordinate < column + surplus cs := by
  induction cs generalizing passed column with
  | nil =>
    rw [widen, surplus]
    simp only [reduceCtorEq, false_iff, bytes]
    omega
  | cons c cs ih =>
    have hc := unitSize_bounds c
    have hcs : surplus cs ≤ bytes cs := Nat.sub_le _ _
    rw [bytes] at hfits
    rw [widen, surplus_cons]
    split
    · rw [ih hcolumn (by omega)]
      omega
    · split
      · simp only
        split
        · next hmoved =>
          rw [ih hmoved (by omega)]
          omega
        · simp only [true_iff]
          omega
      · -- the walk ends here, and what is left of the line is too short to overflow
        simp only [reduceCtorEq, false_iff]
        omega

-- ════════════════════════════════════════════════════════════════════════
-- Lines
-- ════════════════════════════════════════════════════════════════════════

theorem splitAtLine_eq_none_iff {n : Nat} {cs : List Char} :
    splitAtLine n cs = none ↔ lineCount cs ≤ n := by
  unfold lineCount
  induction cs generalizing n with
  | nil => cases n <;> simp [splitAtLine]
  | cons c cs ih =>
    cases n with
    | zero => simp [splitAtLine]
    | succ n =>
      rw [splitAtLine, Option.map_eq_none_iff, ih]
      by_cases hc : c = '\n'
      · rw [if_pos hc, hc, List.count_cons_self]
        omega
      · rw [if_neg hc, List.count_cons_of_ne hc]

/-- What is dropped at the end is made of returns. -/
theorem exists_trimReturns_append (cs : List Char) :
    ∃ returns, trimReturns cs ++ returns = cs ∧ ∀ c ∈ returns, c = '\r' := by
  obtain ⟨returns, hreturns⟩ := trimReturns_isPrefix cs
  refine ⟨returns, hreturns, trimReturns_eq_nil_iff.1 ?_⟩
  have htrim := trimReturns_append (trimReturns cs) returns
  rw [hreturns] at htrim
  split at htrim
  · next hnil => exact hnil
  · exact List.self_eq_append_right.1 htrim

theorem exists_line_append {rest : List Char} (h : '\n' ∈ rest) :
    ∃ after, line rest ++ '\n' :: after = rest := by
  obtain ⟨part, after, rfl, hpart⟩ := List.eq_append_cons_of_mem h
  refine ⟨after, ?_⟩
  rw [line_append hpart]
  simp [line]

/-- What follows the addressed part of a line: nothing, or the returns and the line feed. -/
theorem exists_reach_append (rest : List Char) : ∃ after, reach rest ++ after = rest ∧
    (after = [] ∨ BeforeFeed after ∧ (reach rest).getLast? ≠ some '\r') := by
  unfold reach
  split
  · next hfeed =>
    obtain ⟨next, hnext⟩ := exists_line_append hfeed
    obtain ⟨returns, hreturns, hall⟩ := exists_trimReturns_append (line rest)
    have hbefore : BeforeFeed ('\n' :: next) := by simp [BeforeFeed, line]
    refine ⟨returns ++ '\n' :: next, ?_, Or.inr ⟨hbefore.append_left hall, fun hlast => ?_⟩⟩
    · rw [← List.append_assoc, hreturns, hnext]
    · obtain ⟨init, hinit⟩ := List.getLast?_eq_some_iff.1 hlast
      exact List.cons_ne_nil _ _ (eq_nil_of_trimReturns_eq_append hinit (by simp))
  · next hnone =>
    have hline := line_append hnone []
    rw [List.append_nil] at hline
    exact ⟨[], by rw [hline]; simp [line], Or.inl rfl⟩

/-- A text has the lines below its line count and no others. -/
theorem nonempty_lineOf_iff {cs : List Char} {n : Nat} :
    Nonempty (LineOf cs n) ↔ n < lineCount cs := by
  constructor
  · rintro ⟨l⟩
    have hcount := congrArg (List.count '\n') l.parts
    rw [List.append_assoc, List.count_append, l.count_before] at hcount
    unfold lineCount
    omega
  · intro h
    obtain ⟨⟨before, rest⟩, hsplit⟩ : ∃ cut, splitAtLine n cs = some cut := by
      rw [← Option.ne_none_iff_exists', Ne, splitAtLine_eq_none_iff]
      omega
    obtain ⟨hlines, hcount⟩ := wholeLines_of_splitAtLine hsplit
    obtain ⟨after, hafter, hclosed⟩ := exists_reach_append rest
    refine ⟨⟨before, reach rest, after, ?_, hlines, hcount, fun hmem => ?_, hclosed⟩⟩
    · rw [List.append_assoc, hafter]
      exact append_of_splitAtLine hsplit
    · exact notMem_line rest ((reach_isPrefix rest).mem hmem)

namespace LineOf

variable {cs : List Char} {m n : Nat}

/-- The offset of the first character of a line. -/
def start (l : LineOf cs n) : Nat :=
  bytes l.before

/-- The offset at which the addressed part of a line ends. -/
def stop (l : LineOf cs n) : Nat :=
  bytes (l.before ++ l.content)

/-- The offset on a line after at most a number of units. -/
def offsetAt (l : LineOf cs n) (column : Nat) : Nat :=
  l.start + bytes (takeUnits column l.content)

theorem stop_eq (l : LineOf cs n) : l.stop = l.start + bytes l.content :=
  bytes_append _ _

theorem offsetAt_le_stop (l : LineOf cs n) (column : Nat) : l.offsetAt column ≤ l.stop := by
  have hle := bytes_le_of_isPrefix (takeUnits_isPrefix column l.content)
  rw [offsetAt, l.stop_eq]
  omega

theorem offsetAt_of_le (l : LineOf cs n) {column : Nat} (h : units l.content ≤ column) :
    l.offsetAt column = l.stop := by
  rw [offsetAt, takeUnits_of_le h, l.stop_eq]

theorem stop_add_after (l : LineOf cs n) : l.stop + bytes l.after = bytes cs := by
  rw [stop, ← bytes_append, l.parts]

theorem splitAtLine_eq (l : LineOf cs n) :
    splitAtLine n cs = some (l.before, l.content ++ l.after) := by
  have hsplit := splitAtLine_of_wholeLines l.wholeLines (l.content ++ l.after)
  rwa [l.count_before, ← List.append_assoc, l.parts] at hsplit

theorem eq_of_splitAtLine (l : LineOf cs n) {before rest : List Char}
    (h : splitAtLine n cs = some (before, rest)) :
    l.before = before ∧ l.content ++ l.after = rest :=
  Prod.mk.inj (Option.some.inj (l.splitAtLine_eq.symm.trans h))

/-- A line without its content is made of the returns before its line feed. -/
theorem forall_return_of_mem_line (l : LineOf cs n) : ∀ c ∈ line l.after, c = '\r' := by
  rcases l.closed with hnil | ⟨hbefore, -⟩
  · rw [hnil]
    exact fun c hc => absurd hc List.not_mem_nil
  · exact hbefore.2

theorem line_eq (l : LineOf cs n) : line (l.content ++ l.after) = l.content ++ line l.after :=
  line_append l.notMem_content l.after

theorem surplus_line (l : LineOf cs n) :
    surplus (line (l.content ++ l.after)) = surplus l.content := by
  rw [l.line_eq, surplus_append, surplus_of_forall_return l.forall_return_of_mem_line, Nat.add_zero]

theorem reach_eq (l : LineOf cs n) : reach (l.content ++ l.after) = l.content := by
  unfold reach
  rw [l.line_eq]
  rcases l.closed with hnil | ⟨hbefore, hlast⟩
  · rw [hnil, List.append_nil, if_neg l.notMem_content]
    exact List.append_nil _
  · rw [if_pos (List.mem_append_right _ hbefore.1), trimReturns_append_of_forall hbefore.2]
    rcases trimReturns_eq_self_or l.content with hself | ⟨init, hinit⟩
    · exact hself
    · rw [hinit, List.getLast?_concat] at hlast
      exact absurd rfl hlast

theorem bytes_line_le (l : LineOf cs n) : bytes (line (l.content ++ l.after)) ≤ bytes cs := by
  have hparts := congrArg bytes l.parts
  have hline := bytes_le_of_isPrefix (line_isPrefix (l.content ++ l.after))
  rw [List.append_assoc, bytes_append] at hparts
  omega

theorem notMem_takeUnits (l : LineOf cs n) (column : Nat) : '\n' ∉ takeUnits column l.content :=
  fun hmem => l.notMem_content ((takeUnits_isPrefix column l.content).mem hmem)

/-- A column cuts the text inside the content of its line. -/
theorem exists_cut (l : LineOf cs n) (column : Nat) : ∃ left,
    takeUnits column l.content ++ left = l.content ∧
      cs = l.before ++ takeUnits column l.content ++ (left ++ l.after) ∧
      bytes (l.before ++ takeUnits column l.content) = l.offsetAt column := by
  obtain ⟨left, hleft⟩ := takeUnits_isPrefix column l.content
  refine ⟨left, hleft, ?_, bytes_append _ _⟩
  rw [← List.append_assoc, List.append_assoc l.before, hleft, l.parts]

theorem takeBytes_offsetAt (l : LineOf cs n) (column : Nat) :
    takeBytes (l.offsetAt column) cs = l.before ++ takeUnits column l.content := by
  obtain ⟨left, -, hcs, hbytes⟩ := l.exists_cut column
  have htake := takeBytes_append (l.before ++ takeUnits column l.content) (left ++ l.after)
  rwa [← hcs, hbytes] at htake

/-- A text has each of its lines once. -/
theorem ext_of_eq (a : LineOf cs m) (b : LineOf cs n) (h : m = n) :
    a.before = b.before ∧ a.content = b.content ∧ a.after = b.after := by
  subst h
  obtain ⟨hbefore, hrest⟩ := a.eq_of_splitAtLine b.splitAtLine_eq
  have hcontent : a.content = b.content := by rw [← a.reach_eq, hrest, b.reach_eq]
  refine ⟨hbefore, hcontent, ?_⟩
  rw [hcontent] at hrest
  exact List.append_cancel_left hrest

end LineOf

end Text

namespace Document

variable {d : Document} {line column offset : Nat}

theorem offsetOf?_eq_none_of_le (h : d.lineCount ≤ line) : d.offsetOf? line column = none := by
  rw [offsetOf?, Text.splitAtLine_eq_none_iff.2 h]

theorem nonempty_lineOf_of_offsetOf? (h : d.offsetOf? line column = some offset) :
    Nonempty (Text.LineOf d.chars line) := by
  refine Text.nonempty_lineOf_iff.2 (Nat.not_le.1 fun hcount => ?_)
  exact nomatch (offsetOf?_eq_none_of_le hcount).symm.trans h

/-- An offset on a line is where its units are counted to. -/
theorem eq_of_offsetOf? (l : Text.LineOf d.chars line)
    (h : d.offsetOf? line column = some offset) :
    offset = l.offsetAt column := by
  rw [offsetOf?, l.splitAtLine_eq] at h
  simp only [l.reach_eq] at h
  obtain ⟨wide, hwide, rfl⟩ := Option.map_eq_some_iff.1 h
  have hcontent : l.content <+: Text.line (l.content ++ l.after) := by
    rw [l.line_eq]
    exact List.prefix_append _ _
  have htake := Text.takeBytes_of_widen hwide hcontent (Nat.zero_le column)
  rw [Nat.sub_zero, Nat.sub_zero] at htake
  rw [Text.floorBoundary, htake]
  rfl

theorem offsetOf?_eq_none_iff (hfits : d.length ≤ Text.maxCoordinate)
    (hcolumn : column ≤ Text.maxCoordinate) (l : Text.LineOf d.chars line) :
    d.offsetOf? line column = none ↔ Text.maxCoordinate < column + Text.surplus l.content := by
  have hline : 0 + Text.bytes (Text.line (l.content ++ l.after)) ≤ Text.maxCoordinate := by
    rw [Nat.zero_add]
    exact Nat.le_trans l.bytes_line_le hfits
  rw [offsetOf?, l.splitAtLine_eq]
  simp only [Option.map_eq_none_iff, Text.byteColumn?]
  rw [Text.widen_eq_none_iff hcolumn hline, l.surplus_line]

theorem offsetOf?_eq_some_iff (hfits : d.length ≤ Text.maxCoordinate)
    (hcolumn : column ≤ Text.maxCoordinate) (l : Text.LineOf d.chars line) :
    d.offsetOf? line column = some offset ↔
      column + Text.surplus l.content ≤ Text.maxCoordinate ∧
        offset = l.offsetAt column := by
  have hnone := offsetOf?_eq_none_iff hfits hcolumn l
  cases hoffset : d.offsetOf? line column with
  | none =>
    have hlt := hnone.1 hoffset
    simp only [reduceCtorEq, false_iff]
    omega
  | some found =>
    have hle : ¬ Text.maxCoordinate < column + Text.surplus l.content := by
      rw [← hnone, hoffset]
      exact Option.some_ne_none found
    rw [eq_of_offsetOf? l hoffset, Option.some.injEq]
    exact ⟨fun heq => ⟨Nat.not_lt.1 hle, heq.symm⟩, fun h => h.2.symm⟩

/--
The exact meaning of a position in a text whose offsets are coordinates. There is
no offset exactly when the line does not exist or the surplus of the line takes
the column out of the range of coordinates. Otherwise the offset is the start of
the line and the greatest length in bytes of a part of its content with at most
`column` units. It is a boundary not past the end of the content; a column inside
a character means the start of the character, and a column past the content means
its end.
-/
theorem offsetOf?_exact (hfits : d.length ≤ Text.maxCoordinate)
    (hcolumn : column ≤ Text.maxCoordinate) :
    (d.offsetOf? line column = none ↔ d.lineCount ≤ line ∨
      ∃ l : Text.LineOf d.chars line,
        Text.maxCoordinate < column + (Text.bytes l.content - Text.units l.content)) ∧
    ∀ offset, d.offsetOf? line column = some offset →
      ∃ l : Text.LineOf d.chars line,
        (∃ width, offset = l.start + width ∧
          IsGreatest {b | ∃ part, part <+: l.content ∧ Text.bytes part = b ∧
            Text.units part ≤ column} width) ∧
        Text.IsBoundary d.chars offset ∧ offset ≤ l.stop ∧
        (∀ part c rest, l.content = part ++ c :: rest → Text.units part ≤ column →
          column < Text.units part + Text.unitSize c → offset = Text.bytes (l.before ++ part)) ∧
        (Text.units l.content ≤ column → offset = l.stop) := by
  by_cases hline : d.lineCount ≤ line
  · have hnone : d.offsetOf? line column = none := offsetOf?_eq_none_of_le hline
    refine ⟨⟨fun _ => Or.inl hline, fun _ => hnone⟩, fun offset h => ?_⟩
    exact nomatch hnone.symm.trans h
  · obtain ⟨l⟩ := Text.nonempty_lineOf_iff.2 (Nat.not_le.1 hline)
    have hnone := offsetOf?_eq_none_iff hfits hcolumn l
    refine ⟨⟨fun h => Or.inr ⟨l, hnone.1 h⟩, ?_⟩, fun offset h => ⟨l, ?_⟩⟩
    · rintro (h | ⟨l', hl'⟩)
      · exact absurd h hline
      · exact (offsetOf?_eq_none_iff hfits hcolumn l').2 hl'
    · have hboundary := isBoundary_of_offsetOf? h
      obtain rfl := eq_of_offsetOf? l h
      refine ⟨⟨_, rfl, Text.isGreatest_takeUnits column l.content⟩, hboundary,
        l.offsetAt_le_stop column, fun part c rest hcut hpart hlt => ?_, l.offsetAt_of_le⟩
      rw [Text.LineOf.offsetAt, hcut, Text.takeUnits_append_cons hpart hlt, Text.bytes_append]
      rfl

/-- Characters of all four widths, and two returns before the line feed. -/
def widths : Document :=
  ⟨"é日😀x\r\r\nb", 0⟩

/-- The first line of `widths`: ten bytes, five units. -/
def widthsLine : Text.LineOf widths.chars 0 where
  before := []
  content := ['é', '日', '😀', 'x']
  after := ['\r', '\r', '\n', 'b']
  parts := by decide +kernel
  wholeLines := Text.wholeLines_nil
  count_before := rfl
  notMem_content := by decide
  closed := Or.inr ⟨by decide +kernel, by decide⟩

/-- Column 3 is inside the character of two units and means its start; the line's surplus of five
takes column 4294967291 out of range. -/
theorem offsetOf?_exact_of_widths :
    widths.length ≤ Text.maxCoordinate ∧ 3 ≤ Text.maxCoordinate ∧
    4294967291 ≤ Text.maxCoordinate ∧
    (∃ l : Text.LineOf widths.chars 0, ∃ width, 5 = l.start + width ∧
      IsGreatest {b | ∃ part, part <+: l.content ∧ Text.bytes part = b ∧ Text.units part ≤ 3}
        width) ∧
    widths.offsetOf? 0 4294967291 = none := by
  have hfits : widths.length ≤ Text.maxCoordinate := by decide +kernel
  have hinside : 3 ≤ Text.maxCoordinate := by decide
  have hlarge : 4294967291 ≤ Text.maxCoordinate := by decide
  have hoffset : widths.offsetOf? 0 3 = some 5 := by decide +kernel
  have hsurplus : Text.maxCoordinate <
      4294967291 + (Text.bytes widthsLine.content - Text.units widthsLine.content) := by
    decide +kernel
  obtain ⟨l, hgreatest, -⟩ := (offsetOf?_exact hfits hinside).2 5 hoffset
  exact ⟨hfits, hinside, hlarge, ⟨l, hgreatest⟩,
    (offsetOf?_exact hfits hlarge).1.2 (Or.inr ⟨widthsLine, hsurplus⟩)⟩

end Document

end SelectionGrowth
