import SelectionGrowth.Text.Digits

/-!
# Tokens of TOML

A TOML text is cut into tokens by a machine that looks at one character at a
time. Blanks are tokens, because they may not stand inside a header's brackets
pair or inside a number.

## Main definitions

- `Toml.Token` — a token
- `Toml.tokens?` — the tokens of a text

## Design notes

A carriage return counts only as part of a line break, and line breaks are line
feeds from here on. Comments end before their line break and leave no token.
-/

namespace SelectionGrowth.Toml

/-- A token. -/
inductive Token where
  | newline
  | blank (written : List Char)
  | mark (c : Char)
  | word (written : List Char)
  | quoted (multiline : Bool) (value : List Char)
deriving DecidableEq

/-- The kinds of quoted text: with or without escapes, on one line or several. -/
structure Quoting where
  escapes : Bool
  multiline : Bool
deriving DecidableEq

/-- The mark that a quoted text stands between. -/
def Quoting.delimiter (q : Quoting) : Char :=
  if q.escapes then '"' else '\x27'

/--
Where the machine stands. Characters read so far are kept in reverse, and
`quotes` counts the delimiters read just before that may end a text on several
lines.
-/
inductive Mode where
  | between
  | blank (seen : List Char)
  | word (seen : List Char)
  | comment
  | opened (escapes : Bool)
  | openedTwice (escapes : Bool)
  | text (q : Quoting) (seen : List Char) (quotes : Nat)
  | firstOfLines (q : Quoting)
  | escape (q : Quoting) (seen : List Char)
  | hex (q : Quoting) (seen : List Char) (digitsLeft value : Nat)
  | joining (q : Quoting) (seen : List Char) (brokeLine : Bool)
deriving DecidableEq

def isBlank (c : Char) : Bool :=
  c = ' ' || c = '\t'

/-- Characters of unquoted keys, numbers and dates. -/
def isWordChar (c : Char) : Bool :=
  c.isAlphanum || c = '_' || c = '-' || c = '+' || c = ':'

/-- Characters with a role of their own. -/
def isMark (c : Char) : Bool :=
  ['=', '.', ',', '[', ']', '\x7b', '\x7d'].contains c

def isControl (c : Char) : Bool :=
  (c.toNat < 0x20 && c ≠ '\t') || c.toNat = 0x7F

def shortEscape? (c : Char) : Option Char :=
  match c with
  | 'b' => some '\x08'
  | 't' => some '\t'
  | 'n' => some '\n'
  | 'f' => some '\x0c'
  | 'r' => some '\r'
  | '"' => some '"'
  | '\\' => some '\\'
  | _ => none

/-- Whether a number is the code of a character. -/
def isScalar (n : Nat) : Bool :=
  n < 0xD800 || (0xE000 ≤ n && n < 0x110000)

/-- A character between tokens, with the tokens so far in reverse. -/
def betweenStep (done : List Token) (c : Char) : Option (Mode × List Token) :=
  if c = '\n' then some (.between, .newline :: done)
  else if isBlank c then some (.blank [c], done)
  else if c = '#' then some (.comment, done)
  else if c = '"' then some (.opened true, done)
  else if c = '\x27' then some (.opened false, done)
  else if isMark c then some (.between, .mark c :: done)
  else if isWordChar c then some (.word [c], done)
  else none

/-- A character of a quoted text that is not its delimiter. -/
def textStep (q : Quoting) (seen : List Char) (done : List Token) (c : Char) :
    Option (Mode × List Token) :=
  if c = '\\' && q.escapes then some (.escape q seen, done)
  else if c = '\n' then if q.multiline then some (.text q (c :: seen) 0, done) else none
  else if isControl c then none
  else some (.text q (c :: seen) 0, done)

/-- A character of a quoted text. -/
def quotedStep (q : Quoting) (seen : List Char) (quotes : Nat) (done : List Token) (c : Char) :
    Option (Mode × List Token) :=
  let delimiter := q.delimiter
  if !q.multiline then
    if c = delimiter then some (.between, .quoted false seen.reverse :: done)
    else textStep q seen done c
  else if c = delimiter then
    if quotes = 4 then
      some (.between, .quoted true (delimiter :: delimiter :: seen).reverse :: done)
    else some (.text q seen (quotes + 1), done)
  else
    let kept (n : Nat) := List.replicate n delimiter ++ seen
    if 3 ≤ quotes then betweenStep (.quoted true (kept (quotes - 3)).reverse :: done) c
    else textStep q (kept quotes) done c

def modeStep (mode : Mode) (done : List Token) (c : Char) : Option (Mode × List Token) :=
  match mode with
  | .between => betweenStep done c
  | .blank seen =>
    if isBlank c then some (.blank (c :: seen), done)
    else betweenStep (.blank seen.reverse :: done) c
  | .word seen =>
    if isWordChar c then some (.word (c :: seen), done)
    else betweenStep (.word seen.reverse :: done) c
  | .comment =>
    if c = '\n' then betweenStep done c else if isControl c then none else some (.comment, done)
  | .opened escapes =>
    let q : Quoting := ⟨escapes, false⟩
    if c = q.delimiter then some (.openedTwice escapes, done) else quotedStep q [] 0 done c
  | .openedTwice escapes =>
    let q : Quoting := ⟨escapes, true⟩
    if c = q.delimiter then some (.firstOfLines q, done)
    else betweenStep (.quoted false [] :: done) c
  | .firstOfLines q =>
    if c = '\n' then some (.text q [] 0, done) else quotedStep q [] 0 done c
  | .text q seen quotes => quotedStep q seen quotes done c
  | .escape q seen =>
    if c = 'u' then some (.hex q seen 4 0, done)
    else if c = 'U' then some (.hex q seen 8 0, done)
    else
      match shortEscape? c with
      | some e => some (.text q (e :: seen) 0, done)
      | none =>
        if q.multiline && isBlank c then some (.joining q seen false, done)
        else if q.multiline && c = '\n' then some (.joining q seen true, done)
        else none
  | .hex q seen left value =>
    match Text.hexValue? c with
    | none => none
    | some d =>
      let value := 16 * value + d
      if left ≤ 1 then
        if isScalar value then some (.text q (Char.ofNat value :: seen) 0, done) else none
      else some (.hex q seen (left - 1) value, done)
  | .joining q seen brokeLine =>
    if isBlank c then some (.joining q seen brokeLine, done)
    else if c = '\n' then some (.joining q seen true, done)
    else if brokeLine then quotedStep q seen 0 done c
    else none

/-- The tokens at the end of a text, which must not end inside a quoted text. -/
def finishTokens (mode : Mode) (done : List Token) : Option (List Token) :=
  match mode with
  | .between | .comment => some done.reverse
  | .blank seen => some (.blank seen.reverse :: done).reverse
  | .word seen => some (.word seen.reverse :: done).reverse
  | .openedTwice _ => some (.quoted false [] :: done).reverse
  | .text q seen quotes =>
    if q.multiline && 3 ≤ quotes then
      let kept := List.replicate (quotes - 3) q.delimiter ++ seen
      some (.quoted true kept.reverse :: done).reverse
    else none
  | _ => none

/-- Runs the machine to the end of a text. -/
def tokensFrom (mode : Mode) (done : List Token) : List Char → Option (List Token)
  | [] => finishTokens mode done
  | c :: cs =>
    match modeStep mode done c with
    | none => none
    | some (mode', done') => tokensFrom mode' done' cs

/-- Turns line breaks into line feeds; a carriage return elsewhere is an error. -/
def foldLineBreaks (done : List Char) : List Char → Option (List Char)
  | [] => some done.reverse
  | '\r' :: '\n' :: rest => foldLineBreaks ('\n' :: done) rest
  | c :: rest => if c = '\r' then none else foldLineBreaks (c :: done) rest

/-- The tokens of a text; a byte order mark at its start is skipped. -/
def tokens? (text : String) : Option (List Token) :=
  let chars :=
    match text.toList with
    | c :: rest => if c.toNat = 0xFEFF then rest else c :: rest
    | [] => []
  (foldLineBreaks [] chars).bind (tokensFrom .between [])

end SelectionGrowth.Toml
