import SelectionGrowth.Address.Percent
import SelectionGrowth.Text.Split

/-!
# Numeric hosts

A host can be an address of four bytes or of eight 16-bit pieces. Both have
several written forms and one normal form.

## Main definitions

- `Address.v4?`, `Address.renderV4` — four-byte addresses
- `Address.v6?`, `Address.renderV6` — eight-piece addresses
-/

namespace SelectionGrowth.Address

/-- A number of a four-byte address: hexadecimal after `0x`, octal after `0`, else decimal. -/
def v4Number? (part : List Char) : Option Nat :=
  match part with
  | [] => none
  | '0' :: 'x' :: rest => Text.number? 16 rest
  | '0' :: 'X' :: rest => Text.number? 16 rest
  | '0' :: rest => Text.number? 8 rest
  | _ => Text.number? 10 part

/-- The labels of a host, without the empty one after a final dot. -/
def labels (host : List Char) : List (List Char) :=
  let parts := Text.splitOn (· = '.') host
  if 1 < parts.length && parts.getLast? = some [] then parts.dropLast else parts

/-- Whether the last label of a host is a number, so that the host must be a four-byte address. -/
def endsInNumber (host : List Char) : Bool :=
  match (labels host).getLast? with
  | none => false
  | some last =>
    (!last.isEmpty && last.all Char.isDigit) ||
      (match last with
        | '0' :: x :: rest => (x = 'x' || x = 'X') && rest.all Text.isHex
        | _ => false)

/-- The value of a four-byte address, whose last number may span several bytes. -/
def v4? (host : List Char) : Option Nat :=
  let parts := labels host
  if 4 < parts.length then none
  else
    match parts.mapM v4Number? with
    | none => none
    | some numbers =>
      match numbers.getLast? with
      | none => none
      | some last =>
        let leading := numbers.dropLast
        if leading.any (255 < ·) || 1 <<< (8 * (5 - numbers.length)) ≤ last then none
        else
          some (last + ((leading.zipIdx.map fun (n, i) => n <<< (8 * (3 - i))).foldl (· + ·) 0))

def renderV4 (value : Nat) : List Char :=
  let byte (i : Nat) := (toString (value >>> (8 * i) % 256)).toList
  byte 3 ++ '.' :: byte 2 ++ '.' :: byte 1 ++ '.' :: byte 0

def v6Piece? (part : List Char) : Option Nat :=
  if part.isEmpty || 4 < part.length then none else Text.number? 16 part

/-- A byte of the four-byte tail of an eight-piece address. -/
def v6Byte? (part : List Char) : Option Nat :=
  if part.isEmpty || !part.all Char.isDigit || (part.head? = some '0' && 1 < part.length) then none
  else
    match Text.number? 10 part with
    | some n => if n ≤ 255 then some n else none
    | none => none

/-- The pieces of one side of an address; only the last side may end in four bytes. -/
def v6Side? (tailAllowed : Bool) (side : List Char) : Option (List Nat) :=
  if side.isEmpty then some []
  else
    let parts := Text.splitOn (· = ':') side
    match parts.getLast? with
    | none => none
    | some last =>
      if tailAllowed && last.contains '.' then
        match parts.dropLast.mapM v6Piece?, (Text.splitOn (· = '.') last).mapM v6Byte? with
        | some front, some [a, b, c, d] => some (front ++ [256 * a + b, 256 * c + d])
        | _, _ => none
      else parts.mapM v6Piece?

/-- Cuts an address at its first pair of colons. -/
def splitGap : List Char → Option (List Char × List Char)
  | [] => none
  | ':' :: ':' :: rest => some ([], rest)
  | c :: rest => (splitGap rest).map fun cut => (c :: cut.1, cut.2)

/-- The eight pieces of an address; a pair of colons stands for one or more zero pieces. -/
def v6? (text : List Char) : Option (List Nat) :=
  match splitGap text with
  | none =>
    match v6Side? true text with
    | some pieces => if pieces.length = 8 then some pieces else none
    | none => none
  | some (left, right) =>
    match v6Side? false left, v6Side? true right with
    | some before, some after =>
      let missing := 8 - (before.length + after.length)
      if before.length + after.length < 8 then
        some (before ++ List.replicate missing 0 ++ after)
      else none
    | _, _ => none

/-- The longest run of at least two zero pieces, as its start and length; the first of equals. -/
def zeroRun (pieces : List Nat) : Option (Nat × Nat) :=
  let runs := (List.range pieces.length).map fun start =>
    (start, ((pieces.drop start).takeWhile (· = 0)).length)
  runs.foldl (fun best run =>
    if run.2 < 2 then best
    else
      match best with
      | none => some run
      | some b => if b.2 < run.2 then some run else some b) none

/-- The pieces in lower-case hexadecimal, joined by colons. -/
def renderPieces (pieces : List Nat) : List Char :=
  (":".intercalate (pieces.map fun n => String.ofList (Nat.toDigits 16 n))).toList

/-- The normal form of an eight-piece address, its longest run of zeros left out. -/
def renderV6 (pieces : List Nat) : List Char :=
  match zeroRun pieces with
  | none => renderPieces pieces
  | some (start, length) =>
    renderPieces (pieces.take start) ++ "::".toList ++ renderPieces (pieces.drop (start + length))

end SelectionGrowth.Address
