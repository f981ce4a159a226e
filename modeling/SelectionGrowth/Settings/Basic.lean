import SelectionGrowth.Selection.Group

/-!
# Settings

Settings come in layers: built-in ones, a user file, a workspace file and what
the client sends. Each layer says only what it changes, and later layers win.

## Main definitions

- `Settings` — one layer
- `Settings.merge`, `Settings.mergeAll` — a layer above another, and all layers
- `EffectiveSettings` — the result, with every gap filled
- `Settings.builtIn` — the lowest layer
-/

namespace SelectionGrowth

/-- What a layer says about one language. -/
structure LanguageSettings where
  fileTypes : List String
  kinds : KindTable

/-- An order in which the languages of settings are met. -/
abbrev LanguageOrder :=
  Table.Enumeration String LanguageSettings

/-- One layer of settings. -/
structure Settings where
  languages : Table String LanguageSettings
  siblingGroups : Option SiblingGroups
  allowErrorTrees : Option Bool

/-- Merged settings with every gap filled. -/
structure EffectiveSettings where
  languages : Table String LanguageSettings
  groups : SiblingGroups
  allowErrorTrees : Bool

/--
A language's settings above earlier ones. A nonempty list of file types replaces
the earlier list; kinds are added, and replace earlier kinds of the same name.
-/
def LanguageSettings.above (primary fallback : LanguageSettings) : LanguageSettings where
  fileTypes := if primary.fileTypes.isEmpty then fallback.fileTypes else primary.fileTypes
  kinds := fallback.kinds.insertAll primary.kinds.entries

namespace Settings

/-- Puts one language of a layer above the languages of earlier layers. -/
def addLanguage (languages : Table String LanguageSettings)
    (entry : String × LanguageSettings) : Table String LanguageSettings :=
  languages.insert entry.1
    (match languages.get? entry.1 with
      | none => entry.2
      | some fallback => entry.2.above fallback)

/-- A layer above an earlier one. The group table is replaced as a whole. -/
def above (primary fallback : Settings) : Settings where
  languages := primary.languages.entries.foldl addLanguage fallback.languages
  siblingGroups := primary.siblingGroups.or fallback.siblingGroups
  allowErrorTrees := primary.allowErrorTrees.or fallback.allowErrorTrees

/-- Merges two layers, either of which may be missing. -/
def merge (fallback primary : Option Settings) : Option Settings :=
  match fallback, primary with
  | none, _ => primary
  | some f, none => some f
  | some f, some p => some (p.above f)

/-- Merges all layers, the lowest first. -/
def mergeAll : List (Option Settings) → Option Settings
  | [] => none
  | first :: rest => rest.foldl merge first

/-- Fills the gaps of merged settings. -/
def effective (s : Settings) : EffectiveSettings where
  languages := s.languages
  groups := s.siblingGroups.getD SiblingGroups.standard
  allowErrorTrees := s.allowErrorTrees.getD false

end Settings

namespace EffectiveSettings

/-- The kinds of a language; none are known of a language without settings. -/
def kindsOf (s : EffectiveSettings) (language : String) : KindTable :=
  match s.languages.get? language with
  | some l => l.kinds
  | none => Table.empty

end EffectiveSettings

-- ════════════════════════════════════════════════════════════════════════
-- Built-in settings
-- ════════════════════════════════════════════════════════════════════════

namespace Settings

def javaKinds : List (String × Kind) :=
  [("program", .compilationUnit),
    ("class_declaration", .classDeclaration), ("interface_declaration", .classDeclaration),
    ("enum_declaration", .classDeclaration), ("record_declaration", .classDeclaration),
    ("annotation_type_declaration", .classDeclaration),
    ("method_declaration", .methodDeclaration), ("constructor_declaration", .methodDeclaration),
    ("block", .block), ("constructor_body", .block),
    ("local_variable_declaration", .statement), ("expression_statement", .statement),
    ("return_statement", .statement), ("throw_statement", .statement),
    ("while_statement", .statement), ("do_statement", .statement),
    ("for_statement", .statement), ("enhanced_for_statement", .statement),
    ("labeled_statement", .statement), ("synchronized_statement", .statement),
    ("yield_statement", .statement), ("break_statement", .statement),
    ("continue_statement", .statement),
    ("try_statement", .tryStatement), ("try_with_resources_statement", .tryStatement),
    ("catch_clause", .catchClause), ("finally_clause", .finallyClause),
    ("if_statement", .ifStatement), ("switch_expression", .switchStatement),
    ("switch_block_statement_group", .switchCase), ("switch_rule", .switchCase),
    ("assignment_expression", .expression), ("binary_expression", .expression),
    ("unary_expression", .expression), ("update_expression", .expression),
    ("ternary_expression", .expression), ("cast_expression", .expression),
    ("instanceof_expression", .expression), ("lambda_expression", .expression),
    ("method_invocation", .expression), ("object_creation_expression", .expression),
    ("array_creation_expression", .expression), ("field_access", .expression),
    ("array_access", .expression), ("parenthesized_expression", .expression),
    ("method_reference", .expression)]

def rustKinds : List (String × Kind) :=
  [("source_file", .compilationUnit),
    ("struct_item", .classDeclaration), ("enum_item", .classDeclaration),
    ("trait_item", .classDeclaration), ("impl_item", .classDeclaration),
    ("mod_item", .classDeclaration), ("function_item", .methodDeclaration),
    ("closure_expression", .expression), ("block", .block),
    ("let_declaration", .statement), ("expression_statement", .statement),
    ("return_expression", .statement), ("if_expression", .ifStatement),
    ("else_clause", .elseClause), ("match_expression", .switchStatement),
    ("match_arm", .switchCase),
    ("assignment_expression", .expression), ("binary_expression", .expression),
    ("unary_expression", .expression), ("call_expression", .expression),
    ("field_expression", .expression), ("index_expression", .expression),
    ("reference_expression", .expression), ("try_expression", .expression),
    ("await_expression", .expression), ("macro_invocation", .expression),
    ("parenthesized_expression", .expression), ("struct_expression", .expression)]

/-- The lowest layer. -/
def builtIn : Settings where
  languages := Table.ofList
    [("java", ⟨["java"], Table.ofList javaKinds⟩), ("rust", ⟨["rs"], Table.ofList rustKinds⟩)]
  siblingGroups := none
  allowErrorTrees := some false

end Settings

end SelectionGrowth
