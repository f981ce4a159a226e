import SelectionGrowth.CommandLine.Position

/-!
# The grammar of positions

A position is cut at its first colon, both sides are trimmed and then read as
numbers. Neither a sign nor a digit is a colon or white space, so what is read in
this way is a grammar: two numerals with a colon between them. A numeral is a run
of decimal digits after at most one plus sign, with white space on both sides. The
form in which positions are printed belongs to it.

## Main definitions

- `CommandLine.Numeral` — a written number, in its parts
- `CommandLine.Describes` — the texts of a position

## Main statements

- `CommandLine.isWhitespace_iff_mem` — the table of white space, character by character
- `CommandLine.number?_eq_some_iff` — the texts of a number without white space
- `CommandLine.position?_eq_some_iff` — positions are read from two numerals
- `CommandLine.describes_printed` — a printed position describes itself
- `CommandLine.position_reads_grammar` — the result for every text
-/

namespace SelectionGrowth.CommandLine

-- ════════════════════════════════════════════════════════════════════════
-- White space
-- ════════════════════════════════════════════════════════════════════════

/-- The characters with the property `White_Space` of Unicode. -/
def whiteSpace : List Char :=
  ['\t', '\n', '\x0b', '\x0c', '\r', ' ', '\u0085', '\u00a0', '\u1680', '\u2000', '\u2001',
    '\u2002', '\u2003', '\u2004', '\u2005', '\u2006', '\u2007', '\u2008', '\u2009', '\u200a',
    '\u2028', '\u2029', '\u202f', '\u205f', '\u3000']

/-- The runs of white space hold these characters and no others. -/
theorem isWhitespace_iff_mem {c : Char} : isWhitespace c = true ↔ c ∈ whiteSpace := by
  have hcodes : whitespaceRuns.flatMap (fun run => List.range' run.1 (run.2 + 1 - run.1)) =
      whiteSpace.map Char.toNat := by
    decide
  calc isWhitespace c = true
      ↔ c.toNat ∈ whitespaceRuns.flatMap fun run => List.range' run.1 (run.2 + 1 - run.1) := by
        simp only [isWhitespace, List.any_eq_true, Bool.and_eq_true, decide_eq_true_iff,
          List.mem_flatMap, List.mem_range'_1]
        refine exists_congr fun run => and_congr_right fun _ => ?_
        omega
    _ ↔ c ∈ whiteSpace := by
        rw [hcodes]
        simp [Char.toNat_inj]

theorem isDigit_of_mem_whiteSpace {c : Char} (h : c ∈ whiteSpace) : c.isDigit = false := by
  have hall : whiteSpace.all (fun c => !c.isDigit) = true := by decide
  simpa using List.all_eq_true.1 hall c h

theorem plus_notMem_whiteSpace : '+' ∉ whiteSpace := by
  decide

theorem colon_notMem_whiteSpace : ':' ∉ whiteSpace := by
  decide

-- ════════════════════════════════════════════════════════════════════════
-- Numerals
-- ════════════════════════════════════════════════════════════════════════

/--
A written number: decimal digits, of which there is at least one, after a plus
sign or none, with white space on both sides.
-/
structure Numeral where
  before : List Char
  sign : List Char
  digits : List Char
  after : List Char
  before_blank : ∀ c ∈ before, c ∈ whiteSpace
  sign_eq : sign = [] ∨ sign = ['+']
  digits_ne_nil : digits ≠ []
  isDigit_digits : ∀ c ∈ digits, c.isDigit = true
  after_blank : ∀ c ∈ after, c ∈ whiteSpace

namespace Numeral

def text (m : Numeral) : List Char :=
  m.before ++ (m.sign ++ m.digits) ++ m.after

/-- The decimal value of the digits. -/
def value (m : Numeral) : Nat :=
  Nat.ofDigitChars 10 m.digits 0

/-- The numeral that a number is printed as. -/
def ofNat (n : Nat) : Numeral where
  before := []
  sign := []
  digits := Nat.toDigits 10 n
  after := []
  before_blank := by simp
  sign_eq := Or.inl rfl
  digits_ne_nil := Nat.toDigits_ne_nil
  isDigit_digits := fun _ hc => Nat.isDigit_of_mem_toDigits (by decide) (by decide) hc
  after_blank := by simp

theorem text_ofNat (n : Nat) : (ofNat n).text = (toString n).toList := by
  simp [text, ofNat]

theorem value_ofNat (n : Nat) : (ofNat n).value = n :=
  Nat.ofDigitChars_ten_toDigits

theorem isDigit_or_plus (m : Numeral) {c : Char} (h : c ∈ m.sign ++ m.digits) :
    c.isDigit = true ∨ c = '+' := by
  rcases List.mem_append.1 h with hsign | hdigits
  · rcases m.sign_eq with hnil | hplus
    · rw [hnil] at hsign
      exact nomatch hsign
    · rw [hplus] at hsign
      exact Or.inr (List.mem_singleton.1 hsign)
  · exact Or.inl (m.isDigit_digits c hdigits)

theorem colon_notMem_text (m : Numeral) : ':' ∉ m.text := by
  intro hmem
  rw [text, List.append_assoc, List.mem_append, List.mem_append] at hmem
  rcases hmem with hbefore | hmiddle | hafter
  · exact colon_notMem_whiteSpace (m.before_blank ':' hbefore)
  · rcases m.isDigit_or_plus hmiddle with hdigit | hplus
    · exact absurd hdigit (by decide)
    · exact absurd hplus (by decide)
  · exact colon_notMem_whiteSpace (m.after_blank ':' hafter)

/-- Trimming takes the white space of a numeral and nothing else. -/
theorem trim_text (m : Numeral) : trim m.text = m.sign ++ m.digits := by
  refine Text.trimEnds_append (fun c hc => isWhitespace_iff_mem.2 (m.before_blank c hc))
    (fun c hc => isWhitespace_iff_mem.2 (m.after_blank c hc)) ?_ ?_
  · exact fun h => m.digits_ne_nil (List.append_eq_nil_iff.1 h).2
  · intro c hc
    rw [Bool.eq_false_iff, ne_eq, isWhitespace_iff_mem]
    intro hblank
    rcases m.isDigit_or_plus hc with hdigit | rfl
    · exact Bool.false_ne_true ((isDigit_of_mem_whiteSpace hblank).symm.trans hdigit)
    · exact plus_notMem_whiteSpace hblank

end Numeral

-- ════════════════════════════════════════════════════════════════════════
-- Reading numbers
-- ════════════════════════════════════════════════════════════════════════

section

variable {bound n : Nat} {cs digits : List Char}

theorem number?_of_ne_plus (h : cs.head? ≠ some '+') : number? bound cs =
    if cs.isEmpty then none else (Text.number? 10 cs).filter (· ≤ bound) := by
  unfold number?
  split
  · exact absurd rfl h
  · rfl

/-- What is read after the sign is the decimal value of digits. -/
theorem bounded_eq_some_iff :
    (if digits.isEmpty then none else (Text.number? 10 digits).filter (· ≤ bound)) = some n ↔
      digits ≠ [] ∧ (∀ c ∈ digits, c.isDigit = true) ∧ Nat.ofDigitChars 10 digits 0 = n ∧
        n ≤ bound := by
  cases digits with
  | nil => simp
  | cons c rest =>
    simp [Text.number?, Option.filter_eq_some_iff, Text.extend?_ten_eq_some_iff, and_assoc]

/-- The texts of a number are runs of digits, after a plus sign or none. -/
theorem number?_eq_some_iff : number? bound cs = some n ↔
    ∃ sign digits, (sign = [] ∨ sign = ['+']) ∧ sign ++ digits = cs ∧ digits ≠ [] ∧
      (∀ c ∈ digits, c.isDigit = true) ∧ Nat.ofDigitChars 10 digits 0 = n ∧ n ≤ bound := by
  constructor
  · intro h
    unfold number? at h
    split at h
    · exact ⟨['+'], _, Or.inr rfl, rfl, bounded_eq_some_iff.1 h⟩
    · exact ⟨[], _, Or.inl rfl, rfl, bounded_eq_some_iff.1 h⟩
  · rintro ⟨sign, digits, rfl | rfl, rfl, hdigits⟩
    · -- the first digit cannot be taken for the sign
      have hhead : digits.head? ≠ some '+' := fun hplus =>
        absurd (hdigits.2.1 '+' (List.mem_of_mem_head? hplus)) (by decide)
      rw [List.nil_append, number?_of_ne_plus hhead]
      exact bounded_eq_some_iff.2 hdigits
    · exact bounded_eq_some_iff.2 hdigits

/-- The texts of a number with the white space around it are the numerals of that number. -/
theorem number?_trim_eq_some_iff : number? bound (trim cs) = some n ↔
    ∃ m : Numeral, m.text = cs ∧ m.value = n ∧ n ≤ bound := by
  rw [number?_eq_some_iff]
  constructor
  · rintro ⟨sign, digits, hsign, htrim, hne, hdigits, hvalue, hle⟩
    obtain ⟨before, after, hcs, hbefore, hafter⟩ :=
      Text.exists_trimEnds_append isWhitespace cs
    rw [← trim, ← htrim] at hcs
    simp only [isWhitespace_iff_mem] at hbefore hafter
    exact ⟨⟨before, sign, digits, after, hbefore, hsign, hne, hdigits, hafter⟩, hcs, hvalue, hle⟩
  · rintro ⟨m, rfl, hvalue, hle⟩
    exact ⟨m.sign, m.digits, m.sign_eq, m.trim_text.symm, m.digits_ne_nil, m.isDigit_digits,
      hvalue, hle⟩

end

-- ════════════════════════════════════════════════════════════════════════
-- Reading positions
-- ════════════════════════════════════════════════════════════════════════

/--
A text describes a position: it is a numeral for the line, a colon and a numeral
for the column, and neither number is above the largest of 32 bits.
-/
def Describes (text : String) (p : Position) : Prop :=
  ∃ line column : Numeral, text.toList = line.text ++ ':' :: column.text ∧
    line.value = p.line ∧ column.value = p.column ∧ p.line ≤ 4294967295 ∧ p.column ≤ 4294967295

/-- Numerals hold no colon, so the colon between two of them is the first of the text. -/
theorem cutAt_numerals (line column : Numeral) :
    Text.cutAt (· = ':') (line.text ++ ':' :: column.text) = (line.text, some column.text) := by
  refine Text.cutAt_append (fun c hc => ?_) (by simp) column.text
  rw [decide_eq_false_iff_not]
  rintro rfl
  exact line.colon_notMem_text hc

theorem position?_eq_some_iff {text : String} {p : Position} :
    position? text.toList = some p ↔ Describes text p := by
  constructor
  · intro h
    unfold position? at h
    split at h
    · exact nomatch h
    · next before after hcut =>
      split at h
      · next line column hline hcolumn =>
        obtain rfl := Option.some.inj h
        obtain ⟨colon, hcolon, htext, -⟩ := Text.cutAt_eq_append hcut
        obtain rfl : colon = ':' := of_decide_eq_true hcolon
        obtain ⟨first, rfl, hfirst, hline⟩ := number?_trim_eq_some_iff.1 hline
        obtain ⟨second, rfl, hsecond, hcolumn⟩ := number?_trim_eq_some_iff.1 hcolumn
        exact ⟨first, second, htext, hfirst, hsecond, hline, hcolumn⟩
      · exact nomatch h
  · rintro ⟨first, second, htext, hfirst, hsecond, hline, hcolumn⟩
    have hbefore : number? Text.maxCoordinate (trim first.text) = some p.line :=
      number?_trim_eq_some_iff.2 ⟨first, rfl, hfirst, hline⟩
    have hafter : number? Text.maxCoordinate (trim second.text) = some p.column :=
      number?_trim_eq_some_iff.2 ⟨second, rfl, hsecond, hcolumn⟩
    simp only [position?, htext, cutAt_numerals, hbefore, hafter]

theorem position_eq_ok_iff_describes {text : String} {p : Position} :
    position text = .ok p ↔ Describes text p := by
  rw [← position?_eq_some_iff, position]
  cases position? text.toList <;> simp

/-- A text that describes no position is the fault that is reported. -/
theorem position_eq_error_iff {text : String} {failure : Failure} :
    position text = .error failure ↔
      (¬ ∃ p, Describes text p) ∧ failure = .outOfRange (.malformedPosition text) := by
  simp only [← position?_eq_some_iff, position]
  cases position? text.toList <;> simp [eq_comm]

theorem describes_printed {line column : Nat} (hline : line ≤ 4294967295)
    (hcolumn : column ≤ 4294967295) :
    Describes (toString line ++ ":" ++ toString column) ⟨line, column⟩ := by
  refine ⟨Numeral.ofNat line, Numeral.ofNat column, ?_, Numeral.value_ofNat line,
    Numeral.value_ofNat column, hline, hcolumn⟩
  simp [Numeral.text_ofNat]

/--
Positions are read from exactly the texts of the grammar, and any other text is
reported as malformed. What is printed for the ends of a range is read as these
ends.
-/
theorem position_reads_grammar :
    (∀ text p, position text = .ok p ↔ Describes text p) ∧
    (∀ text, position text = .error (.outOfRange (.malformedPosition text)) ↔
      ¬ ∃ p, Describes text p) ∧
    (∀ line column : UInt32, position (toString line ++ ":" ++ toString column) =
      .ok ⟨line.toNat, column.toNat⟩) ∧
    ∀ a b c d : UInt32, ∃ first last,
      renderRange ⟨⟨a.toNat, b.toNat⟩, ⟨c.toNat, d.toNat⟩⟩ = first ++ "-" ++ last ∧
        position first = .ok ⟨a.toNat, b.toNat⟩ ∧ position last = .ok ⟨c.toNat, d.toNat⟩ := by
  have hprinted : ∀ line column : UInt32, position (toString line ++ ":" ++ toString column) =
      .ok ⟨line.toNat, column.toNat⟩ := by
    intro line column
    have hline : line.toNat ≤ 4294967295 := Nat.le_of_lt_succ line.toNat_lt
    have hcolumn : column.toNat ≤ 4294967295 := Nat.le_of_lt_succ column.toNat_lt
    exact position_eq_ok_iff_describes.2 (describes_printed hline hcolumn)
  refine ⟨fun text p => position_eq_ok_iff_describes, fun text => ?_, hprinted, ?_⟩
  · simp only [position_eq_error_iff, and_true]
  · intro a b c d
    exact ⟨_, _, rfl, hprinted a b, hprinted c d⟩

example : (position "\u3000+007\t:\r\n4294967295 ").toOption = some ⟨7, 4294967295⟩ := by
  decide +kernel

example : ["1:2:3", "1 2:3", ":1", "+:1", "++1:1", "-0:0", "0:4294967296", "\u0661:1"].all
    (fun text => (position text).toOption.isNone) = true := by
  decide +kernel

end SelectionGrowth.CommandLine
