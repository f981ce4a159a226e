import SelectionGrowth.Data
import SelectionGrowth.Settings.Basic

/-!
# Settings as data

A layer of settings arrives as a tree of values. Unknown fields are ignored; a
field of the wrong shape makes the whole layer unusable.

## Main definitions

- `Settings.Dialect` — what the two file formats leave open differently
- `Settings.decode?` — the layer that a value describes

## Design notes

A list may stand in place of a record and gives its fields in order. The kind of
a node is given by its name, or by a record whose only field has that name and
an empty value.
-/

namespace SelectionGrowth.Settings

/-- What a format leaves open: which value is empty, and whether lists may run on. -/
structure Dialect where
  isEmptyValue : Data → Bool
  allowsExtraItems : Bool

/-- In JSON the empty value is `null`, and a list in place of a record has the right length. -/
def Dialect.json : Dialect where
  isEmptyValue
    | .null => true
    | _ => false
  allowsExtraItems := false

/-- In TOML the empty value is a list or table without parts, and further items are ignored. -/
def Dialect.toml : Dialect where
  isEmptyValue
    | .list [] => true
    | .record [] => true
    | _ => false
  allowsExtraItems := true

variable (dialect : Dialect)

/-- The items of a list that stands for a record of `n` fields. -/
def Dialect.itemsFor? (n : Nat) (items : List Data) : Option (List Data) :=
  if items.length ≤ n || dialect.allowsExtraItems then some (items.take n) else none

def decodeKind? : Data → Option Kind
  | .text name => Kind.ofName? name
  | .record [(name, value)] => if dialect.isEmptyValue value then Kind.ofName? name else none
  | _ => none

def decodeGroup? (d : Data) : Option SiblingGroup :=
  match d with
  | .record _ =>
    match d.field? "member", d.field? "group" with
    | some member, some group =>
      match decodeKind? dialect member, decodeKind? dialect group with
      | some m, some g => some ⟨m, g⟩
      | _, _ => none
    | _, _ => none
  | .list items =>
    match dialect.itemsFor? 2 items with
    | some [member, group] =>
      match decodeKind? dialect member, decodeKind? dialect group with
      | some m, some g => some ⟨m, g⟩
      | _, _ => none
    | _ => none
  | _ => none

def decodeKinds? : Data → Option KindTable
  | .record fields =>
    (fields.mapM fun field => (decodeKind? dialect field.2).map (field.1, ·)).map Table.ofList
  | _ => none

def decodeFileTypes? : Data → Option (List String)
  | .list items => items.mapM Data.text?
  | _ => none

/-- File types and kinds, either of which may be missing. -/
def decodeLanguageParts? (fileTypes kinds : Option Data) : Option LanguageSettings :=
  match (fileTypes.map decodeFileTypes?).getD (some []),
      (kinds.map (decodeKinds? dialect)).getD (some Table.empty) with
  | some fileTypes, some kinds => some ⟨fileTypes, kinds⟩
  | _, _ => none

/-- A language. A point in time is a record too, none of whose fields concern a language. -/
def decodeLanguage? (d : Data) : Option LanguageSettings :=
  match d with
  | .record _ => decodeLanguageParts? dialect (d.field? "filetypes") (d.field? "kinds")
  | .list items =>
    match dialect.itemsFor? 2 items with
    | some items => decodeLanguageParts? dialect items[0]? items[1]?
    | none => none
  | .time _ => some ⟨[], Table.empty⟩
  | _ => none

def decodeLanguages? : Data → Option (Table String LanguageSettings)
  | .record fields =>
    (fields.mapM fun field => (decodeLanguage? dialect field.2).map (field.1, ·)).map Table.ofList
  | _ => none

/-- A table of groups, which may be left open. -/
def decodeGroups? : Data → Option (Option SiblingGroups)
  | .null => some none
  | .list items => (items.mapM (decodeGroup? dialect)).map some
  | _ => none

/-- A switch, which may be left open. -/
def decodeSwitch? : Data → Option (Option Bool)
  | .null => some none
  | .bool value => some (some value)
  | _ => none

/-- The three parts of a layer. -/
def decodeParts? (languages groups switch : Option Data) : Option Settings :=
  match (languages.map (decodeLanguages? dialect)).getD (some Table.empty),
      (groups.map (decodeGroups? dialect)).getD (some none),
      (switch.map decodeSwitch?).getD (some none) with
  | some languages, some groups, some switch => some ⟨languages, groups, switch⟩
  | _, _, _ => none

/-- The layer that a value describes. A list must give all three parts. -/
def decode? (d : Data) : Option Settings :=
  match d with
  | .record _ =>
    decodeParts? dialect (d.field? "languages") (d.field? "siblingGroups")
      (d.field? "allowErrorTrees")
  | .list items =>
    match dialect.itemsFor? 3 items with
    | some [languages, groups, switch] =>
      decodeParts? dialect (some languages) (some groups) (some switch)
    | _ => none
  | _ => none

end SelectionGrowth.Settings
