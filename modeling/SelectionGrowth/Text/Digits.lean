/-!
# Digits

Numbers are written in bases up to sixteen, with letters in either case for the
digits from ten. Formats bound the numbers that they can hold.

## Main definitions

- `Text.digit?` — the value of a digit in a base
- `Text.number?` — the value of a run of digits
- `Text.lowerHex`, `Text.upperHex` — hexadecimal digits
- `Text.limit64`, `Text.signedLimit64`, `Text.signedLimit32` — bounds of fixed-width numbers

## Main statements

- `Text.extend?_ten_eq_some_iff` — the runs of decimal digits and their values
-/

namespace SelectionGrowth.Text

/-- The value of a hexadecimal digit in either case. -/
def hexValue? (c : Char) : Option Nat :=
  if '0' ≤ c ∧ c ≤ '9' then some (c.toNat - '0'.toNat)
  else if 'a' ≤ c ∧ c ≤ 'f' then some (c.toNat - 'a'.toNat + 10)
  else if 'A' ≤ c ∧ c ≤ 'F' then some (c.toNat - 'A'.toNat + 10)
  else none

def isHex (c : Char) : Bool :=
  (hexValue? c).isSome

/-- The value of a digit in a base. -/
def digit? (base : Nat) (c : Char) : Option Nat :=
  (hexValue? c).filter (· < base)

/-- Extends a number by a run of digits in a base. -/
def extend? (base : Nat) : (value : Nat) → List Char → Option Nat
  | value, [] => some value
  | value, c :: rest =>
    match digit? base c with
    | some d => extend? base (base * value + d) rest
    | none => none

/-- The value of a run of digits in a base; an empty run is zero. -/
def number? (base : Nat) (digits : List Char) : Option Nat :=
  extend? base 0 digits

def lowerHex (n : Nat) : Char :=
  if n < 10 then Char.ofNat (n + '0'.toNat) else Char.ofNat (n - 10 + 'a'.toNat)

def upperHex (n : Nat) : Char :=
  if n < 10 then Char.ofNat (n + '0'.toNat) else Char.ofNat (n - 10 + 'A'.toNat)

/-- One more than the largest number of 64 bits. -/
def limit64 : Nat := 18446744073709551616

/-- One more than the largest number of 64 bits with sign; its negation is the least. -/
def signedLimit64 : Nat := 9223372036854775808

/-- One more than the largest number of 32 bits with sign; its negation is the least. -/
def signedLimit32 : Nat := 2147483648

theorem hexValue?_of_isDigit {c : Char} (h : c.isDigit = true) :
    hexValue? c = some (c.toNat - '0'.toNat) :=
  if_pos (by simpa [Char.isDigit, Char.le_def] using h)

/-- The letters stand for the digits from ten. -/
theorem ten_le_of_hexValue? {c : Char} {d : Nat} (h : c.isDigit = false)
    (hvalue : hexValue? c = some d) : 10 ≤ d := by
  have hnot : ¬ ('0' ≤ c ∧ c ≤ '9') := by simpa [Char.isDigit, Char.le_def] using h
  rw [hexValue?, if_neg hnot] at hvalue
  split at hvalue
  · obtain rfl := Option.some.inj hvalue
    exact Nat.le_add_left 10 _
  · split at hvalue
    · obtain rfl := Option.some.inj hvalue
      exact Nat.le_add_left 10 _
    · exact nomatch hvalue

theorem digit?_ten_eq_some_iff {c : Char} {d : Nat} :
    digit? 10 c = some d ↔ c.isDigit = true ∧ c.toNat - '0'.toNat = d := by
  rw [digit?, Option.filter_eq_some_iff, decide_eq_true_iff]
  cases hc : c.isDigit with
  | false =>
    refine iff_of_false ?_ (by simp)
    rintro ⟨hvalue, hlt⟩
    exact absurd hlt (Nat.not_lt.2 (ten_le_of_hexValue? hc hvalue))
  | true =>
    have hle : c.toNat ≤ 57 := (Char.isDigit_iff_toNat.1 hc).2
    have hlt : c.toNat - '0'.toNat < 10 := by
      rw [show '0'.toNat = 48 from rfl]
      omega
    rw [hexValue?_of_isDigit hc, Option.some.injEq]
    constructor
    · rintro ⟨heq, -⟩
      exact ⟨rfl, heq⟩
    · rintro ⟨-, rfl⟩
      exact ⟨rfl, hlt⟩

/-- A number is extended by digits only, and by their decimal value. -/
theorem extend?_ten_eq_some_iff {value n : Nat} {digits : List Char} :
    extend? 10 value digits = some n ↔
      (∀ c ∈ digits, c.isDigit = true) ∧ Nat.ofDigitChars 10 digits value = n := by
  induction digits generalizing value with
  | nil => simp [extend?]
  | cons c rest ih =>
    cases hdigit : digit? 10 c with
    | none =>
      have hc : ¬ c.isDigit = true := fun h => by
        rw [digit?_ten_eq_some_iff.2 ⟨h, rfl⟩] at hdigit
        exact nomatch hdigit
      simp [extend?, hdigit, hc]
    | some d =>
      obtain ⟨hc, rfl⟩ := digit?_ten_eq_some_iff.1 hdigit
      simp [extend?, hdigit, ih, hc, Nat.ofDigitChars_cons]

end SelectionGrowth.Text
