import SelectionGrowth.Data
import SelectionGrowth.Text.Digits

/-!
# Reading JSON

Reading goes in two passes. The first cuts a text into tokens with a small
machine that looks at one character at a time. The second folds the tokens over
a stack of the lists and records that are still open.

## Main definitions

- `Json.Token`, `Json.tokens?` — the tokens of a text
- `Json.Open`, `Json.Progress` — what has been read so far
- `Json.read?` — the value of a text

## Design notes

A number without fraction and exponent is an integer if it fits in 64 bits,
signed or unsigned; every other number is a real. Of two fields with one name
the later counts.
-/

namespace SelectionGrowth.Json

/-- A token: a bracket, a separator or a value without parts. -/
inductive Token where
  | mark (c : Char)
  | atom (value : Data)

/-- Blank characters between tokens. -/
def isBlank (c : Char) : Bool :=
  c = ' ' || c = '\n' || c = '\t' || c = '\r'

/-- Characters of numbers and of the three literal words. -/
def isWordChar (c : Char) : Bool :=
  c.isAlphanum || c = '-' || c = '+' || c = '.'

/-- A nonempty run of digits, without a leading zero unless it is zero. -/
def isInteger (digits : List Char) : Bool :=
  !digits.isEmpty && digits.all Char.isDigit && (digits.head? ≠ some '0' || digits.length = 1)

/-- What may follow the digits of a number: a fraction, then an exponent. -/
def isFractionAndExponent (cs : List Char) : Bool :=
  let afterFraction? : Option (List Char) :=
    match cs with
    | '.' :: rest =>
      if (rest.takeWhile Char.isDigit).isEmpty then none else some (rest.dropWhile Char.isDigit)
    | _ => some cs
  match afterFraction? with
  | none => false
  | some [] => true
  | some (e :: rest) =>
    let digits :=
      match rest with
      | '+' :: ds => ds
      | '-' :: ds => ds
      | ds => ds
    (e = 'e' || e = 'E') && !digits.isEmpty && digits.all Char.isDigit

def number? (word : List Char) : Option Data :=
  let (negative, unsigned) :=
    match word with
    | '-' :: rest => (true, rest)
    | _ => (false, word)
  let digits := unsigned.takeWhile Char.isDigit
  let rest := unsigned.dropWhile Char.isDigit
  if !isInteger digits || !isFractionAndExponent rest then none
  else
    let value := (Text.number? 10 digits).getD 0
    if !rest.isEmpty then some (.real (String.ofList word))
    else if negative then
      if 0 < value && value ≤ Text.signedLimit64 then some (.int (-(value : Int)))
      else some (.real (String.ofList word))
    else if value < Text.limit64 then some (.int value)
    else some (.real (String.ofList word))

/-- The value of a literal word or of a number. -/
def word? (word : List Char) : Option Data :=
  if word = ['n', 'u', 'l', 'l'] then some .null
  else if word = ['t', 'r', 'u', 'e'] then some (.bool true)
  else if word = ['f', 'a', 'l', 's', 'e'] then some (.bool false)
  else number? word

def shortEscape? (c : Char) : Option Char :=
  match c with
  | '"' => some '"'
  | '\\' => some '\\'
  | '/' => some '/'
  | 'b' => some '\x08'
  | 'f' => some '\x0c'
  | 'n' => some '\n'
  | 'r' => some '\r'
  | 't' => some '\t'
  | _ => none

/-- Where the machine stands. Characters read so far are kept in reverse. -/
inductive Mode where
  | between
  | word (seen : List Char)
  | text (seen : List Char)
  | escape (seen : List Char)
  | hex (seen : List Char) (high : Option Nat) (digitsLeft value : Nat)
  | lowMark (seen : List Char) (high : Nat)
  | lowLetter (seen : List Char) (high : Nat)

/-- The mode after a complete four-digit escape. -/
def afterUnit (seen : List Char) (high : Option Nat) (unit : Nat) : Option Mode :=
  match high with
  | some h =>
    if 0xDC00 ≤ unit && unit < 0xE000 then
      some (.text (Char.ofNat (0x10000 + (h - 0xD800) * 0x400 + (unit - 0xDC00)) :: seen))
    else none
  | none =>
    if 0xD800 ≤ unit && unit < 0xDC00 then some (.lowMark seen unit)
    else if 0xDC00 ≤ unit && unit < 0xE000 then none
    else some (.text (Char.ofNat unit :: seen))

/-- A character between tokens, with the tokens so far in reverse. -/
def betweenStep (done : List Token) (c : Char) : Option (Mode × List Token) :=
  if isBlank c then some (.between, done)
  else if c = '"' then some (.text [], done)
  else if c = '[' || c = ']' || c = ',' || c = ':' || c = '\x7b' || c = '\x7d' then
    some (.between, .mark c :: done)
  else if isWordChar c then some (.word [c], done)
  else none

def modeStep (mode : Mode) (done : List Token) (c : Char) : Option (Mode × List Token) :=
  match mode with
  | .between => betweenStep done c
  | .word seen =>
    if isWordChar c then some (.word (c :: seen), done)
    else
      match word? seen.reverse with
      | none => none
      | some value => betweenStep (.atom value :: done) c
  | .text seen =>
    if c = '"' then some (.between, .atom (.text (String.ofList seen.reverse)) :: done)
    else if c = '\\' then some (.escape seen, done)
    else if c.toNat < 0x20 then none
    else some (.text (c :: seen), done)
  | .escape seen =>
    if c = 'u' then some (.hex seen none 4 0, done)
    else (shortEscape? c).map fun e => (.text (e :: seen), done)
  | .hex seen high left value =>
    match Text.hexValue? c with
    | none => none
    | some d =>
      if left ≤ 1 then (afterUnit seen high (16 * value + d)).map fun m => (m, done)
      else some (.hex seen high (left - 1) (16 * value + d), done)
  | .lowMark seen high => if c = '\\' then some (.lowLetter seen high, done) else none
  | .lowLetter seen high => if c = 'u' then some (.hex seen (some high) 4 0, done) else none

/-- Runs the machine to the end of a text. -/
def tokensFrom (mode : Mode) (done : List Token) : List Char → Option (List Token)
  | [] =>
    match mode with
    | .between => some done.reverse
    | .word seen => (word? seen.reverse).map fun value => (Token.atom value :: done).reverse
    | _ => none
  | c :: cs =>
    match modeStep mode done c with
    | none => none
    | some (mode', done') => tokensFrom mode' done' cs

def tokens? (text : String) : Option (List Token) :=
  tokensFrom .between [] text.toList

/-- A list that is still open, its items in reverse, or a record, its fields in order. -/
inductive Open where
  | list (done : List Data)
  | record (done : List (String × Data)) (name : String)

/-- What may come next. -/
inductive Expect where
  | value
  | valueOrClose
  | nameOrClose
  | name
  | colon
  | separator
deriving DecidableEq

/--
What has been read so far: the open lists and records, the innermost first, and
the whole value once it is complete. The name of the innermost record's current
field is held in its `Open`.
-/
structure Progress where
  stack : List Open
  expect : Expect
  result : Option Data

/-- Puts a complete value where it belongs. -/
def Progress.accept (p : Progress) (value : Data) : Progress :=
  match p.stack with
  | [] => ⟨[], .separator, some value⟩
  | .list done :: outer => ⟨.list (value :: done) :: outer, .separator, p.result⟩
  | .record done name :: outer =>
    ⟨.record (Table.upsert name value done) name :: outer, .separator, p.result⟩

def Progress.wantsValue (p : Progress) : Bool :=
  p.result.isNone && (p.expect = .value || p.expect = .valueOrClose)

def Progress.step (p : Progress) (token : Token) : Option Progress :=
  match token with
  | .atom value =>
    if p.wantsValue then some (p.accept value)
    else
      match p.expect, p.stack, value with
      | .name, .record done _ :: outer, .text name
      | .nameOrClose, .record done _ :: outer, .text name =>
        some ⟨.record done name :: outer, .colon, p.result⟩
      | _, _, _ => none
  | .mark c =>
    if c = '[' then
      if p.wantsValue then some ⟨.list [] :: p.stack, .valueOrClose, none⟩ else none
    else if c = '\x7b' then
      if p.wantsValue then some ⟨.record [] "" :: p.stack, .nameOrClose, none⟩ else none
    else if c = ':' then
      if p.expect = .colon then some { p with expect := .value } else none
    else if c = ',' then
      match p.expect, p.stack with
      | .separator, .list _ :: _ => some { p with expect := .value }
      | .separator, .record _ _ :: _ => some { p with expect := .name }
      | _, _ => none
    else
      match p.stack with
      | .list done :: outer =>
        if c = ']' && (p.expect = .separator || p.expect = .valueOrClose) then
          some (Progress.accept ⟨outer, .value, none⟩ (.list done.reverse))
        else none
      | .record done _ :: outer =>
        if c = '\x7d' && (p.expect = .separator || p.expect = .nameOrClose) then
          some (Progress.accept ⟨outer, .value, none⟩ (.record done))
        else none
      | [] => none

/-- The value of a text, if the text is one JSON value. -/
def read? (text : String) : Option Data :=
  match tokens? text with
  | none => none
  | some tokens =>
    match tokens.foldlM Progress.step ⟨[], .value, none⟩ with
    | some ⟨[], _, result⟩ => result
    | _ => none

end SelectionGrowth.Json
