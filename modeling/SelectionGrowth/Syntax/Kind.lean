import SelectionGrowth.Table

/-!
# Kinds of syntax nodes

Grammars name their nodes freely. Selection growth reasons about a small fixed
vocabulary, and each language has a table from node names to it.

## Main definitions

- `Kind` — the vocabulary
- `Kind.name`, `Kind.ofName?` — its written form, and reading it back
- `KindTable` — kinds of node names; a name without an entry is `Kind.other`
-/

namespace SelectionGrowth

/-- What selection growth knows about a syntax node. -/
inductive Kind where
  | compilationUnit
  | classDeclaration
  | methodDeclaration
  | block
  | statement
  | tryStatement
  | catchClause
  | finallyClause
  | ifStatement
  | elseClause
  | switchStatement
  | switchCase
  | expression
  | other
deriving DecidableEq

namespace Kind

/-- Every kind, once. -/
def all : List Kind :=
  [compilationUnit, classDeclaration, methodDeclaration, block, statement, tryStatement,
    catchClause, finallyClause, ifStatement, elseClause, switchStatement, switchCase,
    expression, other]

/-- The name of a kind in settings and in rendered nodes. -/
def name : Kind → String
  | compilationUnit => "CompilationUnit"
  | classDeclaration => "ClassDeclaration"
  | methodDeclaration => "MethodDeclaration"
  | block => "Block"
  | statement => "Statement"
  | tryStatement => "TryStatement"
  | catchClause => "CatchClause"
  | finallyClause => "FinallyClause"
  | ifStatement => "IfStatement"
  | elseClause => "ElseClause"
  | switchStatement => "SwitchStatement"
  | switchCase => "SwitchCase"
  | expression => "Expression"
  | other => "Other"

def ofName? (text : String) : Option Kind :=
  all.find? (fun kind => kind.name = text)

end Kind

/-- Kinds of node names. -/
abbrev KindTable := Table String Kind

namespace KindTable

def kindOf (kinds : KindTable) (name : String) : Kind :=
  (kinds.get? name).getD .other

end KindTable

end SelectionGrowth
