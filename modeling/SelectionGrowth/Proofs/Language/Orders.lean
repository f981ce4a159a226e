import SelectionGrowth.Language.FileTypes
import SelectionGrowth.Proofs.Table.Lookups
import SelectionGrowth.Settings.Load

/-!
# File types and the order of languages

The languages of settings come in no particular order, but the table of file types
is filled in the order in which they are met, and the last language counts. An
extension that two languages list therefore goes to either of them, as the order
has it. The order makes no difference exactly for the extensions that at most one
language lists.

## Main definitions

- `EffectiveSettings.Lists` — a language with an extension among its file types
- `FileTypes.OrderFree` — a question that all orders answer alike

## Main statements

- `Table.exists_entriesIn_last` — any entry is the last one to be met in some order
- `FileTypes.get?_eq_none_iff` — the extensions without a language
- `FileTypes.exists_order_iff` — the languages that an extension can go to
- `FileTypes.orderFree_iff` — questions about one extension that the order leaves alone
- `FileTypes.orderFree_iff_listsOnce` — the extensions and documents that the order leaves alone
- `FileTypes.order_decides_overlap` — settings for which it decides
-/

namespace SelectionGrowth

namespace Table

variable {κ α : Type} {t : Table κ α}

theorem mem_entriesIn_iff {order : Enumeration κ α} {entry : κ × α} :
    entry ∈ t.entriesIn order ↔ entry ∈ t.entries :=
  (order.perm t.entries).mem_iff

/-- Entries may be met in any order. -/
theorem exists_entriesIn_eq {entries : List (κ × α)} (h : entries.Perm t.entries) :
    ∃ order, t.entriesIn order = entries := by
  classical
  let order : Enumeration κ α :=
    { arrange := fun other => if other = t.entries then entries else other
      perm := fun other => by
        split
        · next heq => exact heq ▸ h
        · exact .refl other }
  exact ⟨order, if_pos rfl⟩

/-- Any entry may be met last. -/
theorem exists_entriesIn_last {entry : κ × α} (h : entry ∈ t.entries) :
    ∃ order before, t.entriesIn order = before ++ [entry] := by
  obtain ⟨before, after, hentries⟩ := List.append_of_mem h
  have hperm : (before ++ after ++ [entry]).Perm t.entries := by
    rw [hentries, List.append_assoc]
    exact (List.perm_append_singleton entry after).append_left before
  obtain ⟨order, horder⟩ := exists_entriesIn_eq hperm
  exact ⟨order, before ++ after, horder⟩

end Table

namespace EffectiveSettings

/-- A language has an extension among its file types. -/
def Lists (s : EffectiveSettings) (language extension : String) : Prop :=
  ∃ l, (language, l) ∈ s.languages.entries ∧ extension ∈ l.fileTypes

/-- At most one language lists an extension. -/
def ListsOnce (s : EffectiveSettings) (extension : String) : Prop :=
  ∀ a b, s.Lists a extension → s.Lists b extension → a = b

end EffectiveSettings

namespace FileTypes

variable {s : EffectiveSettings} {order : LanguageOrder} {language extension : String}

/-- All orders of the languages answer a question about file types alike. -/
def OrderFree {α : Type} (s : EffectiveSettings) (question : FileTypes → α) : Prop :=
  ∀ first second, question (ofSettings first s) = question (ofSettings second s)

theorem mem_pairs_iff {languages : List (String × LanguageSettings)} :
    (extension, language) ∈ pairs languages ↔
      ∃ l, (language, l) ∈ languages ∧ extension ∈ l.fileTypes := by
  simp only [pairs, List.mem_flatMap, List.mem_map, Prod.mk.injEq]
  constructor
  · rintro ⟨⟨name, l⟩, hmem, other, hother, rfl, rfl⟩
    exact ⟨l, hmem, hother⟩
  · rintro ⟨l, hmem, hext⟩
    exact ⟨(language, l), hmem, extension, hext, rfl, rfl⟩

theorem mem_pairs_entriesIn_iff :
    (extension, language) ∈ pairs (s.languages.entriesIn order) ↔ s.Lists language extension := by
  simp only [mem_pairs_iff, Table.mem_entriesIn_iff, EffectiveSettings.Lists]

theorem get?_ofSettings (order : LanguageOrder) (s : EffectiveSettings) (extension : String) :
    (ofSettings order s).get? extension =
      Table.find? extension (pairs (s.languages.entriesIn order)).reverse :=
  Table.get?_ofList _ _

/-- An extension goes to a language that lists it, in whatever order. -/
theorem lists_of_get? (h : (ofSettings order s).get? extension = some language) :
    s.Lists language extension := by
  rw [get?_ofSettings] at h
  exact mem_pairs_entriesIn_iff.1 (List.mem_reverse.1 (Table.mem_of_find? h))

/-- An extension goes to no language exactly if none lists it, in whatever order. -/
theorem get?_eq_none_iff :
    (ofSettings order s).get? extension = none ↔ ¬ ∃ language, s.Lists language extension := by
  rw [get?_ofSettings, Table.find?_eq_none_iff]
  refine not_congr ⟨fun hmem => ?_, fun ⟨language, hlists⟩ => ?_⟩
  · obtain ⟨⟨name, language⟩, hpair, rfl⟩ := List.mem_map.1 hmem
    exact ⟨language, mem_pairs_entriesIn_iff.1 (List.mem_reverse.1 hpair)⟩
  · have hpair : (extension, language) ∈ pairs (s.languages.entriesIn order) :=
      mem_pairs_entriesIn_iff.2 hlists
    exact List.mem_map.2 ⟨(extension, language), List.mem_reverse.2 hpair, rfl⟩

theorem find?_of_one_language {extensions : List String} (h : extension ∈ extensions) :
    Table.find? extension (extensions.map fun e => (e, language)).reverse = some language := by
  cases hfind : Table.find? extension (extensions.map fun e => (e, language)).reverse with
  | none =>
    have hkeys : extension ∉ _ := Table.find?_eq_none_iff.1 hfind
    simp [h] at hkeys
  | some other =>
    have hpair := List.mem_reverse.1 (Table.mem_of_find? hfind)
    obtain ⟨e, -, heq⟩ := List.mem_map.1 hpair
    exact congrArg some (Prod.mk.inj heq).2.symm

/-- The language that is met last has all its extensions. -/
theorem get?_of_last {l : LanguageSettings} {before : List (String × LanguageSettings)}
    (hlast : s.languages.entriesIn order = before ++ [(language, l)])
    (h : extension ∈ l.fileTypes) : (ofSettings order s).get? extension = some language := by
  have hpairs : (pairs (s.languages.entriesIn order)).reverse =
      (l.fileTypes.map fun e => (e, language)).reverse ++ (pairs before).reverse := by
    rw [hlast, pairs, List.flatMap_append, List.flatMap_singleton, List.reverse_append]
    rfl
  rw [get?_ofSettings, hpairs, Table.find?_append, find?_of_one_language h]
  rfl

/-- The languages that an extension goes to in some order are those that list it. -/
theorem exists_order_iff :
    (∃ order, (ofSettings order s).get? extension = some language) ↔
      s.Lists language extension := by
  constructor
  · rintro ⟨order, hget⟩
    exact lists_of_get? hget
  · rintro ⟨l, hmem, hext⟩
    obtain ⟨order, before, hlast⟩ := Table.exists_entriesIn_last hmem
    exact ⟨order, get?_of_last hlast hext⟩

theorem get?_eq_of_listsOnce (hs : s.ListsOnce extension) (first second : LanguageOrder) :
    (ofSettings first s).get? extension = (ofSettings second s).get? extension := by
  cases hfirst : (ofSettings first s).get? extension with
  | none => exact (get?_eq_none_iff.2 (get?_eq_none_iff.1 hfirst)).symm
  | some language =>
    have hlists := lists_of_get? hfirst
    cases hsecond : (ofSettings second s).get? extension with
    | none => exact absurd ⟨language, hlists⟩ (get?_eq_none_iff.1 hsecond)
    | some other => exact congrArg some (hs language other hlists (lists_of_get? hsecond))

/-- Whatever is made of the language of an extension, as long as languages can be told apart. -/
theorem orderFree_iff {α : Type} (use : Option String → α)
    (huse : ∀ a b, use (some a) = use (some b) → a = b) :
    OrderFree s (fun types => use (types.get? extension)) ↔ s.ListsOnce extension := by
  constructor
  · intro hfree a b ha hb
    obtain ⟨first, hfirst⟩ := exists_order_iff.2 ha
    obtain ⟨second, hsecond⟩ := exists_order_iff.2 hb
    have heq := hfree first second
    simp only [hfirst, hsecond] at heq
    exact huse a b heq
  · intro hs first second
    exact congrArg use (get?_eq_of_listsOnce hs first second)

theorem resolve_of_none {path : String} (h : extension? path = none) (types : FileTypes)
    (clientId : Option String) : types.resolve path clientId = clientId := by
  rw [resolve, languageOfPath, h, Option.none_or]

theorem resolve_of_some {path : String} (h : extension? path = some extension) (types : FileTypes)
    (clientId : Option String) :
    types.resolve path clientId = (types.get? extension).or clientId := by
  rw [resolve, languageOfPath, h]

/--
The part that the order of the languages plays, for all settings. In some order an
extension goes to a language exactly if the language lists it, and to none exactly
if none does. The order makes no difference to an extension exactly if at most one
language lists it; nor, whatever the client calls it, to a document exactly if this
is so of the extension of its path, if it has one.
-/
theorem orderFree_iff_listsOnce (s : EffectiveSettings) :
    (∀ extension language, (∃ order, (ofSettings order s).get? extension = some language) ↔
      s.Lists language extension) ∧
    (∀ extension, (∃ order, (ofSettings order s).get? extension = none) ↔
      ¬ ∃ language, s.Lists language extension) ∧
    (∀ extension, OrderFree s (fun types => types.get? extension) ↔ s.ListsOnce extension) ∧
    ∀ path clientId, OrderFree s (fun types => types.resolve path clientId) ↔
      ∀ extension, extension? path = some extension → s.ListsOnce extension := by
  refine ⟨fun extension language => exists_order_iff, fun extension => ?_,
    fun extension => orderFree_iff id fun a b h => Option.some.inj h, fun path clientId => ?_⟩
  · constructor
    · rintro ⟨order, hnone⟩
      exact get?_eq_none_iff.1 hnone
    · intro hnone
      exact ⟨.forward, get?_eq_none_iff.2 hnone⟩
  · cases hpath : extension? path with
    | none =>
      refine ⟨fun _ extension h => (nomatch h), fun _ first second => ?_⟩
      simp only [resolve_of_none hpath]
    | some extension =>
      have hfree : OrderFree s (fun types => (types.get? extension).or clientId) ↔ _ :=
        orderFree_iff (·.or clientId) fun a b h => by simpa using h
      simpa only [resolve_of_some hpath, Option.some.injEq, forall_eq'] using hfree

/-- Surroundings in which the workspace file gives a second language the extension `rs`. -/
def overlapping : Surroundings where
  read path :=
    if path = "/w/hirogeru.toml" then .ok "[languages.java]\nfiletypes = [\"java\", \"rs\"]\n"
    else .error .notFound
  current := "/w"
  configHome := none
  home := some "/"
  languageOrder := .forward

/-- The settings that are loaded there. -/
def overlappingSettings : EffectiveSettings :=
  (Settings.load overlapping none (some overlapping.current) none).1

/-- With such a workspace file, the order of the two languages decides on `main.rs`. -/
theorem order_decides_overlap :
    (ofSettings .forward overlappingSettings).get? "rs" = some "rust" ∧
    (ofSettings .backward overlappingSettings).get? "rs" = some "java" ∧
    ¬ OrderFree overlappingSettings (fun types => types.get? "rs") ∧
    ¬ OrderFree overlappingSettings (fun types => types.resolve "/w/main.rs" none) := by
  have hforward : (ofSettings .forward overlappingSettings).get? "rs" = some "rust" := by
    decide +kernel
  have hbackward : (ofSettings .backward overlappingSettings).get? "rs" = some "java" := by
    decide +kernel
  have hpath : extension? "/w/main.rs" = some "rs" := by decide +kernel
  have hdiffer : (ofSettings .forward overlappingSettings).get? "rs" ≠
      (ofSettings .backward overlappingSettings).get? "rs" := by
    rw [hforward, hbackward]
    decide
  refine ⟨hforward, hbackward, fun hfree => hdiffer (hfree .forward .backward), fun hfree => ?_⟩
  have hsame := hfree .forward .backward
  simp only [resolve_of_some hpath, Option.or_none] at hsame
  exact hdiffer hsame

end FileTypes

end SelectionGrowth
