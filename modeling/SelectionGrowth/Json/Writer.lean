import SelectionGrowth.Data
import SelectionGrowth.Text.Digits

/-!
# Writing JSON

A value is written on one line. Characters that a JSON text cannot hold as they
are become escapes; all others are written as they are.

## Main definitions

- `Json.quote` — a text as a JSON string
- `Json.write` — a value as a JSON text
-/

namespace SelectionGrowth.Json

def quoteChar (c : Char) : List Char :=
  match c with
  | '"' => ['\\', '"']
  | '\\' => ['\\', '\\']
  | '\n' => ['\\', 'n']
  | '\r' => ['\\', 'r']
  | '\t' => ['\\', 't']
  | _ =>
    if c.toNat < 0x20 then
      ['\\', 'u', '0', '0', Text.lowerHex (c.toNat / 16), Text.lowerHex (c.toNat % 16)]
    else [c]

def quote (text : String) : String :=
  String.ofList ('"' :: text.toList.flatMap quoteChar ++ ['"'])

mutual

def write : Data → String
  | .null => "null"
  | .bool true => "true"
  | .bool false => "false"
  | .int value => toString value
  | .real written => written
  | .time written => quote written
  | .text value => quote value
  | .list items => "[" ++ ",".intercalate (writeItems items) ++ "]"
  | .record fields => "\x7b" ++ ",".intercalate (writeFields fields) ++ "\x7d"

def writeItems : List Data → List String
  | [] => []
  | item :: rest => write item :: writeItems rest

def writeFields : List (String × Data) → List String
  | [] => []
  | (name, value) :: rest => (quote name ++ ":" ++ write value) :: writeFields rest

end

end SelectionGrowth.Json
