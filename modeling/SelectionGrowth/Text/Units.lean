/-!
# Bytes and UTF-16 units of a text

Offsets count UTF-8 bytes, columns count UTF-16 code units. Both are sums over
the characters of a text, and a cut at a byte count falls either between two
characters or inside one.

## Main definitions

- `Text.bytes`, `Text.units` — the two lengths of a list of characters
- `Text.takeBytes`, `Text.dropBytes` — the two sides of a cut, rounded down to a character
- `Text.floorBoundary` — the last character boundary not after a byte count
- `Text.IsBoundary` — a byte count at which a text can be cut exactly
-/

namespace SelectionGrowth.Text

/-- The number of UTF-16 code units of a character. -/
def unitSize (c : Char) : Nat :=
  if c.val < 0x10000 then 1 else 2

/-- The number of UTF-8 bytes of a text. -/
def bytes : List Char → Nat
  | [] => 0
  | c :: cs => c.utf8Size + bytes cs

/-- The number of UTF-16 code units of a text. -/
def units : List Char → Nat
  | [] => 0
  | c :: cs => unitSize c + units cs

/-- The longest prefix of whole characters with at most `n` bytes. -/
def takeBytes : Nat → List Char → List Char
  | _, [] => []
  | n, c :: cs => if c.utf8Size ≤ n then c :: takeBytes (n - c.utf8Size) cs else []

/-- What follows the longest prefix of whole characters with at most `n` bytes. -/
def dropBytes : Nat → List Char → List Char
  | _, [] => []
  | n, c :: cs => if c.utf8Size ≤ n then dropBytes (n - c.utf8Size) cs else c :: cs

/-- The largest byte count not above `n` that ends a whole character of the text. -/
def floorBoundary (cs : List Char) (n : Nat) : Nat :=
  bytes (takeBytes n cs)

/-- A text can be cut after `n` bytes without splitting a character. -/
def IsBoundary (cs : List Char) (n : Nat) : Prop :=
  ∃ before after, before ++ after = cs ∧ bytes before = n

/-- The two sides of a cut make up the text. -/
theorem takeBytes_append_dropBytes (n : Nat) (cs : List Char) :
    takeBytes n cs ++ dropBytes n cs = cs := by
  induction cs generalizing n with
  | nil => rfl
  | cons c cs ih =>
    by_cases h : c.utf8Size ≤ n
    · simp [takeBytes, dropBytes, h, ih]
    · simp [takeBytes, dropBytes, h]

@[simp]
theorem bytes_append (as bs : List Char) : bytes (as ++ bs) = bytes as + bytes bs := by
  induction as with
  | nil => simp [bytes]
  | cons a as ih => simp [bytes, ih, Nat.add_assoc]

@[simp]
theorem units_append (as bs : List Char) : units (as ++ bs) = units as + units bs := by
  induction as with
  | nil => simp [units]
  | cons a as ih => simp [units, ih, Nat.add_assoc]

end SelectionGrowth.Text
