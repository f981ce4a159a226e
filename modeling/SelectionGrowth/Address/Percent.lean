import SelectionGrowth.Text.Digits

/-!
# Percent escapes

In an address a byte can be written as a percent sign and two hexadecimal
digits. Characters that a part of an address must not hold are written so, byte
by byte of their UTF-8 form.

## Main definitions

- `Address.escape` — a text with all but some characters escaped
- `Address.unescape` — the bytes of a text with escapes
- `Address.decodeLossy` — a text from bytes, bad sequences replaced
-/

namespace SelectionGrowth.Address

def escapeByte (b : UInt8) : List Char :=
  ['%', Text.upperHex (b.toNat / 16), Text.upperHex (b.toNat % 16)]

/-- Escapes every character outside a class. -/
def escape (keep : Char → Bool) (cs : List Char) : List Char :=
  cs.flatMap fun c => if keep c then [c] else (String.utf8EncodeChar c).flatMap escapeByte

/-- The bytes of a text in which escapes stand for bytes. -/
def unescape : List Char → List UInt8
  | [] => []
  | '%' :: a :: b :: rest =>
    match Text.hexValue? a, Text.hexValue? b with
    | some high, some low => UInt8.ofNat (16 * high + low) :: unescape rest
    | _, _ => String.utf8EncodeChar '%' ++ unescape (a :: b :: rest)
  | c :: rest => String.utf8EncodeChar c ++ unescape rest

/-- How many bytes follow the first byte of a character, and the bounds of the next one. -/
def leadByte? (b : Nat) : Option (Nat × Nat × Nat) :=
  if 0xC2 ≤ b && b ≤ 0xDF then some (1, 0x80, 0xBF)
  else if b = 0xE0 then some (2, 0xA0, 0xBF)
  else if b = 0xED then some (2, 0x80, 0x9F)
  else if 0xE1 ≤ b && b ≤ 0xEF then some (2, 0x80, 0xBF)
  else if b = 0xF0 then some (3, 0x90, 0xBF)
  else if 0xF1 ≤ b && b ≤ 0xF3 then some (3, 0x80, 0xBF)
  else if b = 0xF4 then some (3, 0x80, 0x8F)
  else none

/-- A character under way: bytes still to come, the bounds of the next one, bits so far. -/
structure Pending where
  left : Nat
  low : Nat
  high : Nat
  bits : Nat

/-- Starts a character at a byte, or replaces the byte. -/
def startChar (done : List Char) (b : Nat) : List Char × Option Pending :=
  if b < 0x80 then (Char.ofNat b :: done, none)
  else
    match leadByte? b with
    | none => ('\uFFFD' :: done, none)
    | some (left, low, high) =>
      let mask := if left = 1 then 0x20 else if left = 2 then 0x10 else 0x08
      (done, some ⟨left, low, high, b % mask⟩)

/-- One byte of lossy decoding. The characters so far are in reverse. -/
def decodeStep (state : List Char × Option Pending) (byte : UInt8) : List Char × Option Pending :=
  let b := byte.toNat
  match state with
  | (done, none) => startChar done b
  | (done, some p) =>
    if p.low ≤ b && b ≤ p.high then
      let bits := p.bits * 64 + b % 64
      if p.left ≤ 1 then (Char.ofNat bits :: done, none)
      else (done, some ⟨p.left - 1, 0x80, 0xBF, bits⟩)
    else startChar ('\uFFFD' :: done) b

/-- The text of bytes in UTF-8; each bad sequence becomes a replacement character. -/
def decodeLossy (bytes : List UInt8) : List Char :=
  match bytes.foldl decodeStep ([], none) with
  | (done, none) => done.reverse
  | (done, some _) => ('\uFFFD' :: done).reverse

end SelectionGrowth.Address
