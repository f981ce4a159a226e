import SelectionGrowth.Table

/-!
# Grammars

Documents can be parsed in the languages for which a grammar is registered. Two
grammars are bundled.

## Main definitions

- `Grammar` — the bundled grammars
- `Registry` — grammars of language names
- `Registry.bundled` — each grammar under its own name
-/

namespace SelectionGrowth

/-- The bundled grammars. -/
inductive Grammar where
  | java
  | rust
deriving DecidableEq

namespace Grammar

/-- Every grammar, in the order of their names. -/
def all : List Grammar :=
  [java, rust]

def name : Grammar → String
  | java => "java"
  | rust => "rust"

def ofName? (text : String) : Option Grammar :=
  all.find? fun grammar => grammar.name = text

end Grammar

/-- Grammars of language names. -/
abbrev Registry := Table String Grammar

namespace Registry

/-- Each bundled grammar under its own name. -/
def bundled : Registry :=
  Table.ofList (Grammar.all.map fun grammar => (grammar.name, grammar))

/-- The registered names in ascending order. -/
def names (r : Registry) : List String :=
  r.keys.mergeSort fun a b => decide (a ≤ b)

end Registry

end SelectionGrowth
