import SelectionGrowth.Data
import SelectionGrowth.Text.Digits

/-!
# Unquoted values of TOML

Truth values, numbers and points in time are written without quotes.

## Main definitions

- `Toml.integer?` — decimal, hexadecimal, octal and binary integers
- `Toml.isReal` — numbers with a fraction or an exponent, infinities and not-a-number
- `Toml.isTime` — dates, times of day, and both together
- `Toml.scalar?` — the value of an unquoted text
-/

namespace SelectionGrowth.Toml

/-- Digits between which single underscores may stand; `afterDigit` tells what came before. -/
def digitsFrom? (base : Nat) (afterDigit : Bool) (value : Nat) : List Char → Option Nat
  | [] => if afterDigit then some value else none
  | c :: rest =>
    if c = '_' then
      if afterDigit then digitsFrom? base false value rest else none
    else
      match Text.digit? base c with
      | some d => digitsFrom? base true (base * value + d) rest
      | none => none

def digits? (base : Nat) (cs : List Char) : Option Nat :=
  digitsFrom? base false 0 cs

/-- Splits off a sign; the flag tells a minus. -/
def splitSign (cs : List Char) : Bool × List Char :=
  match cs with
  | '+' :: rest => (false, rest)
  | '-' :: rest => (true, rest)
  | _ => (false, cs)

/-- Decimal digits without a leading zero. -/
def decimal? (cs : List Char) : Option Nat :=
  match cs with
  | '0' :: _ :: _ => none
  | _ => digits? 10 cs

/-- The value of an integer, which must fit in 64 bits with sign. -/
def integer? (cs : List Char) : Option Int :=
  let bounded (value : Int) : Option Int :=
    if -(Text.signedLimit64 : Int) ≤ value ∧ value < Text.signedLimit64 then some value else none
  match cs with
  | '0' :: 'x' :: rest => (digits? 16 rest).bind fun n => bounded n
  | '0' :: 'o' :: rest => (digits? 8 rest).bind fun n => bounded n
  | '0' :: 'b' :: rest => (digits? 2 rest).bind fun n => bounded n
  | _ =>
    let (negative, unsigned) := splitSign cs
    (decimal? unsigned).bind fun n => bounded (if negative then -(n : Int) else n)

/-- An exponent: a sign and digits. -/
def isExponent (cs : List Char) : Bool :=
  (digits? 10 (splitSign cs).2).isSome

/-- A fraction, possibly with an exponent, or an exponent alone. -/
def isFractionOrExponent (cs : List Char) : Bool :=
  let isE (c : Char) := c = 'e' || c = 'E'
  match cs with
  | '.' :: rest =>
    let fraction := rest.takeWhile (fun c => !isE c)
    (digits? 10 fraction).isSome &&
      (match rest.dropWhile (fun c => !isE c) with
        | [] => true
        | _ :: exponent => isExponent exponent)
  | c :: exponent => isE c && isExponent exponent
  | [] => false

def isReal (cs : List Char) : Bool :=
  let unsigned := (splitSign cs).2
  let whole := unsigned.takeWhile fun c => c.isDigit || c = '_'
  let rest := unsigned.dropWhile fun c => c.isDigit || c = '_'
  unsigned = ['i', 'n', 'f'] || unsigned = ['n', 'a', 'n'] ||
    ((decimal? whole).isSome && isFractionOrExponent rest)

/-- A number of exactly `n` decimal digits at the start of a text, and the rest. -/
def fixed? (n : Nat) (cs : List Char) : Option (Nat × List Char) :=
  let front := cs.take n
  if front.length = n && front.all Char.isDigit then
    (digits? 10 front).map fun value => (value, cs.drop n)
  else none

def daysOfMonth (year month : Nat) : Nat :=
  if month = 2 then
    if year % 4 = 0 && (year % 100 ≠ 0 || year % 400 = 0) then 29 else 28
  else if month = 4 || month = 6 || month = 9 || month = 11 then 30
  else 31

def skip? (c : Char) : List Char → Option (List Char)
  | [] => none
  | d :: rest => if d = c then some rest else none

def skipDate? (cs : List Char) : Option (List Char) := do
  let (year, rest) ← fixed? 4 cs
  let (month, rest) ← fixed? 2 (← skip? '-' rest)
  let (day, rest) ← fixed? 2 (← skip? '-' rest)
  if 1 ≤ month && month ≤ 12 && 1 ≤ day && day ≤ daysOfMonth year month then some rest else none

/-- Skips a time of day, whose seconds may have a fraction. -/
def skipTime? (cs : List Char) : Option (List Char) := do
  let (hour, rest) ← fixed? 2 cs
  let (minute, rest) ← fixed? 2 (← skip? ':' rest)
  let (second, rest) ← fixed? 2 (← skip? ':' rest)
  if hour ≤ 23 && minute ≤ 59 && second ≤ 60 then
    match rest with
    | '.' :: fraction =>
      if (fraction.takeWhile Char.isDigit).isEmpty then none
      else some (fraction.dropWhile Char.isDigit)
    | _ => some rest
  else none

/-- A distance from universal time, or none. -/
def isOffset (cs : List Char) : Bool :=
  match cs with
  | [] => true
  | ['Z'] | ['z'] => true
  | sign :: rest =>
    (sign = '+' || sign = '-') &&
      (match fixed? 2 rest with
        | some (hour, ':' :: minutes) =>
          match fixed? 2 minutes with
          | some (minute, []) => hour ≤ 23 && minute ≤ 59
          | _ => false
        | _ => false)

/-- A date, a time of day, or a date and a time with an optional offset. -/
def isTime (cs : List Char) : Bool :=
  match skipDate? cs with
  | some [] => true
  | some (separator :: rest) =>
    (separator = 'T' || separator = 't' || separator = ' ') &&
      (match skipTime? rest with
        | some offset => isOffset offset
        | none => false)
  | none => skipTime? cs = some []

/-- The value of an unquoted text. -/
def scalar? (cs : List Char) : Option Data :=
  if cs = ['t', 'r', 'u', 'e'] then some (.bool true)
  else if cs = ['f', 'a', 'l', 's', 'e'] then some (.bool false)
  else
    match integer? cs with
    | some value => some (.int value)
    | none =>
      if isTime cs then some (.time (String.ofList cs))
      else if isReal cs then some (.real (String.ofList cs))
      else none

end SelectionGrowth.Toml
