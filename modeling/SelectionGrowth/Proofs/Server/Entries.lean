import Mathlib.Data.List.Induction
import SelectionGrowth.Proofs.Parse.Redoing
import SelectionGrowth.Server.Workspace

/-!
# Entries of a workspace

The text, the revision, the language and the parse of a document are changed by
separate steps of a store, and a handler may leave after any of them. This file
shows what they leave together: the new text with its revision, and the parse that
is made of it, from scratch or from the parse of the old text. The latter is what a
parse from scratch gives if the edits of the change fit the old text.

## Main definitions

- `Entry.parsed` — the entry of a document with the parse that is made of its text
- `Entry.fresh` — the entry of a document with the parse that it should have
- `Workspace.entryAfter` — the effect of a call on one entry
- `Workspace.AllCurrent`, `Workspace.AllFresh` — entries with parses of their revision, and with
  those they should have

## Main statements

- `Workspace.get?_handle` — what every path of every handler leaves
- `Workspace.allCurrent_run` — after every run of calls all parses are of the current revision
- `Workspace.allFresh_handle` — a call whose edits fit leaves fresh entries fresh
-/

namespace SelectionGrowth

-- ════════════════════════════════════════════════════════════════════════
-- Entries
-- ════════════════════════════════════════════════════════════════════════

namespace Entry

variable {settings : EffectiveSettings} {parser : Parser} {base : Option EditedParse}
  {document : Document} {language : Option String} {parse : Parse} {entry : Entry}

/-- The parse that is made of a document, if its language has a grammar and its text a tree. -/
def parseOf? (settings : EffectiveSettings) (parser : Parser) (base : Option EditedParse)
    (document : Document) (language : Option String) : Option Parse :=
  (language.filter Registry.bundled.contains).bind fun language =>
    (Parse.of Registry.bundled parser language (settings.kindsOf language) base document).toOption

/-- The entry of a document with the parse that is made of its text. -/
def parsed (settings : EffectiveSettings) (parser : Parser) (base : Option EditedParse)
    (document : Document) (language : Option String) : Entry :=
  ⟨document, language, parseOf? settings parser base document language⟩

/-- The entry of a document with the parse that it should have: the one from scratch. -/
def fresh (settings : EffectiveSettings) (parser : Parser) (document : Document)
    (language : Option String) : Entry :=
  parsed settings parser none document language

/-- The listing that a change of an entry starts from, with the edits of the change. Nothing is
redone without edits, nor from a parse of another revision. -/
def baseFor (entry : Entry) (edits : List Edit) : Option EditedParse :=
  if edits.isEmpty then none
  else (entry.parse.filter fun parse => parse.tree.revision = entry.document.revision).map
    fun parse => ⟨parse.listing, edits⟩

theorem parseOf?_of_none (h : language.filter Registry.bundled.contains = none) :
    parseOf? settings parser base document language = none := by
  unfold parseOf?
  rw [h]
  rfl

theorem parseOf?_of_some {name : String}
    (h : language.filter Registry.bundled.contains = some name) :
    parseOf? settings parser base document language =
      (Parse.of Registry.bundled parser name (settings.kindsOf name) base document).toOption := by
  unfold parseOf?
  rw [h]
  rfl

theorem parseOf?_eq_some_iff : parseOf? settings parser base document language = some parse ↔
    ∃ name, language = some name ∧ Registry.bundled.contains name = true ∧
      Parse.of Registry.bundled parser name (settings.kindsOf name) base document =
        .ok parse := by
  unfold parseOf?
  rw [Option.bind_eq_some_iff]
  constructor
  · rintro ⟨name, hname, hparse⟩
    obtain ⟨hlanguage, hgrammar⟩ := Option.filter_eq_some_iff.1 hname
    refine ⟨name, hlanguage, hgrammar, ?_⟩
    revert hparse
    cases Parse.of Registry.bundled parser name (settings.kindsOf name) base document with
    | error failure => exact fun hparse => nomatch hparse
    | ok found => exact fun hparse => congrArg Except.ok (Option.some.inj hparse)
  · rintro ⟨name, hlanguage, hgrammar, hparse⟩
    refine ⟨name, Option.filter_eq_some_iff.2 ⟨hlanguage, hgrammar⟩, ?_⟩
    rw [hparse]
    rfl

/-- A fresh entry has a parse exactly when its language has a grammar and its text a tree, and then
the parse from scratch. -/
theorem parse_eq_some_iff_of_fresh
    (h : entry = fresh settings parser entry.document entry.language) :
    entry.parse = some parse ↔ ∃ name, entry.language = some name ∧
      Registry.bundled.contains name = true ∧
      Parse.of Registry.bundled parser name (settings.kindsOf name) none entry.document =
        .ok parse := by
  have hparse := congrArg Entry.parse h
  rw [hparse]
  exact parseOf?_eq_some_iff

/-- The parse of an entry, if it has one, is in a language with a grammar and of the revision of
its document. -/
structure Current (entry : Entry) : Prop where
  parse_eq_none : entry.language.filter Registry.bundled.contains = none → entry.parse = none
  revision_eq : ∀ parse, entry.parse = some parse →
    parse.tree.revision = entry.document.revision

theorem current_parsed (settings : EffectiveSettings) (parser : Parser)
    (base : Option EditedParse) (document : Document) (language : Option String) :
    (parsed settings parser base document language).Current where
  parse_eq_none := parseOf?_of_none
  revision_eq parse hparse := by
    obtain ⟨name, -, -, hmade⟩ := parseOf?_eq_some_iff.1 hparse
    exact Parse.revision_of_ok hmade

/-- A fresh entry whose edits fit is fresh again after the change. -/
theorem parsed_eq_fresh (hparser : parser.Faithful)
    (hfresh : entry = fresh settings parser entry.document entry.language)
    {changes : List Change} (revision : Int)
    (hfits : entry.language.filter Registry.bundled.contains ≠ none →
      Change.EditsFit entry.document.text changes) :
    parsed settings parser (entry.baseFor (Change.applyAll entry.document.text changes).2)
        ⟨(Change.applyAll entry.document.text changes).1, revision⟩ entry.language =
      fresh settings parser ⟨(Change.applyAll entry.document.text changes).1, revision⟩
        entry.language := by
  unfold fresh parsed
  congr 1
  cases hname : entry.language.filter Registry.bundled.contains with
  | none => rw [parseOf?_of_none hname, parseOf?_of_none hname]
  | some name =>
    rw [parseOf?_of_some hname, parseOf?_of_some hname, Parse.of_redo hparser]
    intro grammar found hgrammar hfound
    unfold baseFor at hfound
    split at hfound
    · cases hfound
    · next hedits =>
      obtain ⟨parse, hparse, rfl⟩ := Option.map_eq_some_iff.1 hfound
      obtain ⟨hparse, -⟩ := Option.filter_eq_some_iff.1 hparse
      obtain ⟨other, hother, hcontains, hmade⟩ := (parse_eq_some_iff_of_fresh hfresh).1 hparse
      -- the entry is fresh, so its listing is that of its text
      have hsame : other = name := by
        rw [hother, Option.filter_some_pos hcontains] at hname
        exact Option.some.inj hname
      have hlisting := (Parse.of_eq_ok_iff.1 hmade).1
      rw [hsame, Registry.listing?, hgrammar] at hlisting
      refine ⟨entry.document.text, hlisting, ?_⟩
      rcases hfits (by rw [hname]; exact Option.some_ne_none name) with hnil | hleads
      · rw [hnil] at hedits
        exact absurd rfl hedits
      · exact hleads

/-- A parser that the edits of a change lead astray gives the new text another parse than from
scratch. -/
theorem parsed_ne_fresh {edits : List Edit} {new : String} (hedits : edits ≠ [])
    (hfresh : entry = fresh settings (.astray entry.document.text edits new) entry.document
      entry.language)
    (hgrammar : entry.language.filter Registry.bundled.contains ≠ none) (revision : Int) :
    parsed settings (.astray entry.document.text edits new) (entry.baseFor edits)
        ⟨new, revision⟩ entry.language ≠
      fresh settings (.astray entry.document.text edits new) ⟨new, revision⟩ entry.language := by
  obtain ⟨name, hname⟩ := Option.ne_none_iff_exists'.1 hgrammar
  obtain ⟨grammar, hregistered⟩ := Option.isSome_iff_exists.1 (Option.filter_eq_some_iff.1 hname).2
  have hscratch (text : String) : Registry.bundled.listing? (.astray entry.document.text edits new)
      name none text = some (Parser.spelling false text) := by
    rw [Registry.listing?, hregistered]
    rfl
  -- the parse of the entry spells its text, so it is what the parser is led astray by
  obtain ⟨old, hold, hspells⟩ := Parse.exists_of_spelling (settings.kindsOf name) entry.document
    (hscratch entry.document.text)
  have hparse : entry.parse = some old := by
    rw [hfresh]
    exact (parseOf?_of_some hname).trans (by rw [hold]; rfl)
  have hbase : entry.baseFor edits =
      some ⟨Parser.spelling false entry.document.text, edits⟩ := by
    rw [baseFor, if_neg (by simpa using hedits), hparse,
      Option.filter_some, if_pos (decide_eq_true (Parse.revision_of_ok hold)), ← hspells]
    rfl
  have hredone : Registry.bundled.listing? (.astray entry.document.text edits new) name
      (entry.baseFor edits) new = some (Parser.spelling true new) := by
    rw [hbase, Registry.listing?, hregistered]
    exact Parser.misled_base grammar
  obtain ⟨made, hmade, hwrong⟩ := Parse.exists_of_spelling (settings.kindsOf name)
    ⟨new, revision⟩ hredone
  obtain ⟨right, hright, hspelled⟩ := Parse.exists_of_spelling (settings.kindsOf name)
    ⟨new, revision⟩ (hscratch new)
  intro heq
  have hsame := congrArg Entry.parse heq
  unfold fresh parsed at hsame
  simp only [parseOf?_of_some hname, hmade, hright] at hsame
  cases hsame
  have hmark : true = false := congrArg Listing.hasError (hwrong.symm.trans hspelled)
  cases hmark

end Entry

-- ════════════════════════════════════════════════════════════════════════
-- One call
-- ════════════════════════════════════════════════════════════════════════

namespace Workspace

variable {w : Workspace} {parser : Parser}

theorem settings_reparse (w : Workspace) (parser : Parser) (key : String)
    (base : Option EditedParse) (document : Document) (language : Option String) :
    (w.reparse parser key base document language).1.settings = w.settings ∧
      (w.reparse parser key base document language).1.fileTypes = w.fileTypes := by
  unfold reparse
  split
  · exact ⟨rfl, rfl⟩
  · split <;> exact ⟨rfl, rfl⟩

theorem editedParse?_of_get? {s : Store} {key : String} {entry : Entry}
    (h : s.get? key = some entry) (edits : List Edit) :
    (if edits.isEmpty then none else s.editedParse? key edits) = entry.baseFor edits := by
  unfold Store.editedParse? Entry.baseFor
  simp only [h]
  cases hparse : entry.parse with
  | none => rfl
  | some parse =>
    by_cases hrevision : parse.tree.revision = entry.document.revision <;>
      simp [Option.filter_some, hrevision]

/-- Parsing the current text of a document leaves the entry with the parse that is made of it, if
an entry that cannot be parsed has no parse. -/
theorem get?_reparse {key : String} {document : Document} {language : Option String}
    {old : Option Parse} (hget : w.store.get? key = some ⟨document, language, old⟩)
    (hold : language.filter Registry.bundled.contains = none → old = none)
    (parser : Parser) (base : Option EditedParse) (other : String) :
    (w.reparse parser key base document language).1.store.get? other =
      if key = other then some (Entry.parsed w.settings parser base document language)
      else w.store.get? other := by
  unfold reparse Entry.parsed
  cases hname : language.filter Registry.bundled.contains with
  | none =>
    simp only
    rw [Entry.parseOf?_of_none hname]
    split
    · next heq => rw [← heq, hget, hold hname]
    · rfl
  | some name =>
    simp only
    rw [Entry.parseOf?_of_some hname]
    cases hparse : Parse.of Registry.bundled parser name (w.settings.kindsOf name) base
        document with
    | ok parse => exact Store.get?_setParsed hget (Parse.revision_of_ok hparse) other
    | error failure => exact Store.get?_clearParse hget other

/-- The effect of a call on the entry of one document. -/
def entryAfter (settings : EffectiveSettings) (fileTypes : FileTypes) (parser : Parser)
    (key : String) (entry : Option Entry) : Call → Option Entry
  | .opened address clientId document =>
    if address.key = key then
      some (Entry.fresh settings parser document
        (fileTypes.resolve address.filePath (some clientId)))
    else entry
  | .changed address revision changes =>
    if address.key = key then
      entry.map fun old => Entry.parsed settings parser
        (old.baseFor (Change.applyAll old.document.text changes).2)
        ⟨(Change.applyAll old.document.text changes).1, revision⟩ old.language
    else entry
  | .closed address => if address.key = key then none else entry
  | .expand _ _ => entry
  | .shrink _ _ => entry
  | .ranges _ _ => entry

/-- Entries whose parses are of their revisions. -/
def AllCurrent (w : Workspace) : Prop :=
  ∀ key entry, w.store.get? key = some entry → entry.Current

/-- Entries that have the parse they should have. -/
def AllFresh (w : Workspace) (parser : Parser) : Prop :=
  ∀ key entry, w.store.get? key = some entry →
    entry = Entry.fresh w.settings parser entry.document entry.language

theorem allCurrent_of_empty (h : ∀ key, w.store.get? key = none) : w.AllCurrent :=
  fun key _ hget => nomatch (h key).symm.trans hget

theorem allFresh_of_empty (h : ∀ key, w.store.get? key = none) : w.AllFresh parser :=
  fun key _ hget => nomatch (h key).symm.trans hget

theorem AllFresh.allCurrent (h : w.AllFresh parser) : w.AllCurrent := by
  intro key entry hget
  rw [h key entry hget]
  exact Entry.current_parsed _ _ _ _ _

theorem changed_of_none {address : Url} (h : w.store.get? address.key = none) (revision : Int)
    (changes : List Change) : w.changed parser address revision changes = (w, []) := by
  unfold changed
  simp only [h]

theorem changed_of_some (parser : Parser) {address : Url} {entry : Entry}
    (h : w.store.get? address.key = some entry) (revision : Int) (changes : List Change) :
    w.changed parser address revision changes =
      reparse { w with
          store := (w.store.updateText address.key
            ⟨(Change.applyAll entry.document.text changes).1, revision⟩).2
          history := w.history.clear address.key }
        parser address.key (entry.baseFor (Change.applyAll entry.document.text changes).2)
        ⟨(Change.applyAll entry.document.text changes).1, revision⟩ entry.language := by
  unfold changed
  simp only [h, editedParse?_of_get? h]

/-- A request to grow a range changes no more than the history. -/
theorem exists_history_of_expand (w : Workspace) (address : Url) (range : Range) :
    ∃ history, (w.expand address range).1 = { w with history } := by
  unfold expand
  split
  · exact ⟨_, rfl⟩
  · exact ⟨w.history, rfl⟩

theorem settings_handle (w : Workspace) (parser : Parser) (call : Call) :
    (w.handle parser call).1.settings = w.settings ∧
      (w.handle parser call).1.fileTypes = w.fileTypes := by
  cases call with
  | opened address clientId document => exact settings_reparse _ _ _ _ _ _
  | changed address revision changes =>
    show (w.changed parser address revision changes).1.settings = _ ∧
      (w.changed parser address revision changes).1.fileTypes = _
    cases hget : w.store.get? address.key with
    | none =>
      rw [changed_of_none hget]
      exact ⟨rfl, rfl⟩
    | some entry =>
      rw [changed_of_some parser hget]
      exact settings_reparse _ _ _ _ _ _
  | closed address => exact ⟨rfl, rfl⟩
  | expand address range =>
    show (w.expand address range).1.settings = _ ∧ (w.expand address range).1.fileTypes = _
    obtain ⟨history, hexpand⟩ := w.exists_history_of_expand address range
    rw [hexpand]
    exact ⟨rfl, rfl⟩
  | shrink address range => exact ⟨rfl, rfl⟩
  | ranges address positions => exact ⟨rfl, rfl⟩

/-- What a call does to the documents, on every path of its handler. -/
theorem get?_handle (hcurrent : w.AllCurrent) (parser : Parser) (call : Call) (key : String) :
    (w.handle parser call).1.store.get? key =
      entryAfter w.settings w.fileTypes parser key (w.store.get? key) call := by
  cases call with
  | opened address clientId document =>
    have hget := w.store.get?_put address.key
      ⟨document, w.fileTypes.resolve address.filePath (some clientId), none⟩
    have hreparse := get?_reparse (w := { w with
        store := w.store.insert address.key document
          (w.fileTypes.resolve address.filePath (some clientId))
        history := w.history.clear address.key })
      ((hget address.key).trans (if_pos rfl)) (fun _ => rfl) parser none key
    rw [entryAfter]
    refine hreparse.trans ?_
    split
    · rfl
    · next hne => exact (hget key).trans (if_neg hne)
  | changed address revision changes =>
    show (w.changed parser address revision changes).1.store.get? key = _
    rw [entryAfter]
    cases hget : w.store.get? address.key with
    | none =>
      -- a document that is not open stays closed
      rw [changed_of_none hget]
      split
      · next heq => rw [← heq, hget]; rfl
      · rfl
    | some entry =>
      have hupdated := Store.get?_updateText hget
        ⟨(Change.applyAll entry.document.text changes).1, revision⟩
      rw [changed_of_some parser hget, get?_reparse ((hupdated address.key).trans (if_pos rfl))
        (hcurrent _ _ hget).parse_eq_none]
      split
      · next heq => rw [← heq, hget]; rfl
      · next hne => exact (hupdated key).trans (if_neg hne)
  | closed address => exact w.store.get?_remove address.key key
  | expand address range =>
    show (w.expand address range).1.store.get? key = _
    obtain ⟨history, hexpand⟩ := w.exists_history_of_expand address range
    rw [hexpand]
    rfl
  | shrink address range => rfl
  | ranges address positions => rfl

/-- An entry after a call is the one before, or has the parse that is made of its text: from
scratch, or from the entry before with the edits of changes that the call brings to it. -/
theorem entryAfter_cases {settings : EffectiveSettings} {fileTypes : FileTypes} {key : String}
    {before : Option Entry} {call : Call} {entry : Entry}
    (h : entryAfter settings fileTypes parser key before call = some entry) :
    before = some entry ∨
      entry = Entry.fresh settings parser entry.document entry.language ∨
      ∃ address revision changes old, call = .changed address revision changes ∧
        address.key = key ∧ before = some old ∧ entry = Entry.parsed settings parser
          (old.baseFor (Change.applyAll old.document.text changes).2)
          ⟨(Change.applyAll old.document.text changes).1, revision⟩ old.language := by
  cases call with
  | opened address clientId document =>
    rw [entryAfter] at h
    split at h
    · cases h
      exact Or.inr (Or.inl rfl)
    · exact Or.inl h
  | changed address revision changes =>
    rw [entryAfter] at h
    split at h
    · next hkey =>
      obtain ⟨old, hold, hentry⟩ := Option.map_eq_some_iff.1 h
      exact Or.inr (Or.inr ⟨address, revision, changes, old, rfl, hkey, hold, hentry.symm⟩)
    · exact Or.inl h
  | closed address =>
    rw [entryAfter] at h
    split at h
    · cases h
    · exact Or.inl h
  | expand address range => exact Or.inl h
  | shrink address range => exact Or.inl h
  | ranges address positions => exact Or.inl h

theorem allCurrent_handle (hcurrent : w.AllCurrent) (parser : Parser) (call : Call) :
    (w.handle parser call).1.AllCurrent := by
  intro key entry hget
  rw [get?_handle hcurrent] at hget
  rcases entryAfter_cases hget with hsame | hfresh | ⟨_, _, _, _, -, -, -, hparsed⟩
  · exact hcurrent key entry hsame
  · rw [hfresh]
    exact Entry.current_parsed _ _ _ _ _
  · rw [hparsed]
    exact Entry.current_parsed _ _ _ _ _

/-- A call whose edits fit the stored text leaves fresh entries fresh. -/
theorem allFresh_handle (hparser : parser.Faithful) (hfresh : w.AllFresh parser) {call : Call}
    (hfits : ∀ address revision changes entry, call = .changed address revision changes →
      w.store.get? address.key = some entry →
      entry.language.filter Registry.bundled.contains ≠ none →
      Change.EditsFit entry.document.text changes) :
    (w.handle parser call).1.AllFresh parser := by
  intro key entry hget
  rw [get?_handle hfresh.allCurrent] at hget
  rw [(w.settings_handle parser call).1]
  rcases entryAfter_cases hget with
    hsame | hmade | ⟨address, revision, changes, old, hcall, rfl, hold, rfl⟩
  · exact hfresh key entry hsame
  · exact hmade
  · exact Entry.parsed_eq_fresh hparser (hfresh _ old hold) revision
      (hfits address revision changes old hcall hold)

-- ════════════════════════════════════════════════════════════════════════
-- Runs of calls
-- ════════════════════════════════════════════════════════════════════════

theorem run_append_singleton (w : Workspace) (parser : Parser) (calls : List Call) (call : Call) :
    w.run parser (calls ++ [call]) = ((w.run parser calls).handle parser call).1 :=
  List.foldl_append

theorem settings_run (w : Workspace) (parser : Parser) (calls : List Call) :
    (w.run parser calls).settings = w.settings ∧
      (w.run parser calls).fileTypes = w.fileTypes := by
  induction calls using List.reverseRecOn with
  | nil => exact ⟨rfl, rfl⟩
  | append_singleton calls call ih =>
    obtain ⟨hsettings, htypes⟩ := (w.run parser calls).settings_handle parser call
    rw [run_append_singleton]
    exact ⟨hsettings.trans ih.1, htypes.trans ih.2⟩

/-- After any calls every parse is of the current revision, whatever the parser. -/
theorem allCurrent_run (hcurrent : w.AllCurrent) (parser : Parser) (calls : List Call) :
    (w.run parser calls).AllCurrent := by
  induction calls using List.reverseRecOn with
  | nil => exact hcurrent
  | append_singleton calls call ih =>
    rw [run_append_singleton]
    exact allCurrent_handle ih parser call

end Workspace

end SelectionGrowth
