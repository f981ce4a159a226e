import SelectionGrowth.Parse
import SelectionGrowth.Proofs.Syntax.Conversion
import SelectionGrowth.Proofs.Text.Replay

/-!
# Redoing parses

A grammar may start from the listing of an older text if it is told which bytes
were replaced since. It gives what a parse from scratch gives only if the edits
lead from the text of that listing to the new text. The edits of a list of changes
do, unless the list replaces the whole text and then goes on to change parts of it:
what is left are edits of the replacement.

## Main definitions

- `Edit.LeadsTo` — edits that lead from one text to another
- `Change.EditsFit` — changes whose edits, if any are left, lead from the old text to the new one
- `Parser.Faithful` — what is relied on of a parser
- `Parser.misled` — a parser that one set of edits leads astray
- `Parser.astray` — such a parser, for any edits

## Main statements

- `Change.leadsTo_applyAll` — edits lead from the text of the last full replacement
- `Change.editsFit_of_fullLast` — changes that replace the whole text last, if at all, fit
- `Parse.of_redo` — a parse redone from edits that fit is a parse from scratch
- `Parser.faithful_misled` — a faithful parser may be led astray by edits that do not fit
-/

namespace SelectionGrowth

-- ════════════════════════════════════════════════════════════════════════
-- Edits from one text to another
-- ════════════════════════════════════════════════════════════════════════

namespace Edit

/-- An edit puts some text in place of whole characters, and counts its bytes. Listings speak of
bytes only, so the points of the edit do not matter. -/
def Rewrites (e : Edit) (old new : String) : Prop :=
  ∃ inserted, e.replaceIn? inserted old = some new ∧
    e.newEndByte = e.startByte + Text.bytes inserted.toList

/-- Edits lead from one text to another, each from what the one before it left. -/
def LeadsTo : List Edit → String → String → Prop
  | [], old, new => old = new
  | e :: edits, old, new => ∃ next, e.Rewrites old next ∧ LeadsTo edits next new

theorem LeadsTo.concat {edits : List Edit} {e : Edit} {old middle new : String}
    (h : LeadsTo edits old middle) (he : e.Rewrites middle new) :
    LeadsTo (edits ++ [e]) old new := by
  induction edits generalizing old with
  | nil =>
    cases h
    exact ⟨new, he, rfl⟩
  | cons first edits ih =>
    obtain ⟨next, hfirst, hrest⟩ := h
    exact ⟨next, hfirst, ih hrest⟩

end Edit

namespace Change

theorem leadsTo_apply {base : String × List Change} {state : String × List Edit}
    (h : Edit.LeadsTo state.2 base.1 state.1) (change : Change) :
    Edit.LeadsTo (apply state change).2 (rebaseStep base change).1 (apply state change).1 := by
  unfold rebaseStep
  by_cases hfull : change.IsFull
  · rw [if_pos hfull, apply_of_isFull hfull]
    rfl
  · obtain ⟨e, hedits, hreplace, hnew⟩ := exists_edit_of_not_isFull hfull state
    rw [if_neg hfull, hedits]
    exact h.concat ⟨change.text, hreplace, hnew⟩

/-- Whatever the changes, their edits lead from the text of the last full replacement. -/
theorem leadsTo_applyAll (text : String) (changes : List Change) :
    Edit.LeadsTo (applyAll text changes).2 (rebase text changes).1 (applyAll text changes).1 := by
  suffices hrun : ∀ (base : String × List Change) (state : String × List Edit),
      Edit.LeadsTo state.2 base.1 state.1 →
      Edit.LeadsTo (changes.foldl apply state).2 (changes.foldl rebaseStep base).1
        (changes.foldl apply state).1 from
    hrun (text, []) (text, []) rfl
  induction changes with
  | nil => exact fun _ _ h => h
  | cons change rest ih => exact fun _ _ h => ih _ _ (leadsTo_apply h change)

/-- The edits of changes fit the old text: none are left, or they lead from it to the new text. -/
def EditsFit (text : String) (changes : List Change) : Prop :=
  (applyAll text changes).2 = [] ∨
    Edit.LeadsTo (applyAll text changes).2 text (applyAll text changes).1

/-- Changes that replace the whole text last, if they do so at all. -/
def FullLast (changes : List Change) : Prop :=
  (∃ change ∈ changes, change.IsFull) → ∀ last, changes.getLast? = some last → last.IsFull

theorem editsFit_of_fullLast {changes : List Change} (h : FullLast changes) (text : String) :
    EditsFit text changes := by
  by_cases hfull : ∃ change ∈ changes, change.IsFull
  · exact Or.inl ((applyAll_snd_eq_nil_iff text changes).2 (h hfull))
  · have hnone : ∀ change ∈ changes, ¬ change.IsFull := fun change hmem hchange =>
      hfull ⟨change, hmem, hchange⟩
    have hleads := leadsTo_applyAll text changes
    rw [rebase_of_forall_not_isFull text hnone] at hleads
    exact Or.inr hleads

end Change

-- ════════════════════════════════════════════════════════════════════════
-- Parsers
-- ════════════════════════════════════════════════════════════════════════

namespace Parser

/--
What is relied on of a parser: redoing the listing of a text, with edits that lead
from that text to the new one, gives what a parse from scratch gives; and no parse
from scratch reaches past its text.
-/
structure Faithful (parser : Parser) : Prop where
  redo : ∀ grammar old listing edits text, parser grammar none old = some listing →
    Edit.LeadsTo edits old text →
    parser grammar (some ⟨listing, edits⟩) text = parser grammar none text
  within : ∀ grammar text listing root, parser grammar none text = some listing →
    listing.nodes.head? = some root → root.stop ≤ Text.bytes text.toList

/-- A parser that parses from scratch, but for one text that it redoes from one listing with one
list of edits. -/
def misled (scratch : Grammar → String → Option Listing) (base : EditedParse) (text : String)
    (wrong : Listing) : Parser := fun grammar given new =>
  match given with
  | none => scratch grammar new
  | some found =>
    if found.base = base.base ∧ found.edits = base.edits ∧ new = text then some wrong
    else scratch grammar new

variable {scratch : Grammar → String → Option Listing} {base : EditedParse} {text : String}
  {wrong : Listing}

theorem misled_base (grammar : Grammar) :
    misled scratch base text wrong grammar (some base) text = some wrong :=
  if_pos ⟨rfl, rfl, rfl⟩

/-- Nothing that is relied on says what a parser makes of edits that do not fit. -/
theorem faithful_misled
    (hwithin : ∀ grammar text listing root, scratch grammar text = some listing →
      listing.nodes.head? = some root → root.stop ≤ Text.bytes text.toList)
    (hbase : ∀ grammar old, scratch grammar old = some base.base →
      ¬ Edit.LeadsTo base.edits old text) :
    (misled scratch base text wrong).Faithful where
  redo grammar old listing edits new hold hleads := by
    refine if_neg ?_
    rintro ⟨rfl, rfl, rfl⟩
    exact hbase grammar old hold hleads
  within := hwithin

/-- The listing of a text that has one node, named by the text itself. -/
def spelling (hasError : Bool) (text : String) : Listing :=
  ⟨hasError, [⟨0, text, 0, Text.bytes text.toList⟩]⟩

/-- A parser that spells every text, and finds an error in the new text if it redoes the spelling
of the old one with the edits. -/
def astray (old : String) (edits : List Edit) (new : String) : Parser :=
  misled (fun _ text => some (spelling false text)) ⟨spelling false old, edits⟩ new
    (spelling true new)

theorem faithful_astray {old : String} {edits : List Edit} {new : String}
    (h : ¬ Edit.LeadsTo edits old new) : (astray old edits new).Faithful := by
  refine faithful_misled ?_ ?_
  · rintro grammar text listing root hlisting hroot
    cases hlisting
    cases hroot
    exact Nat.le_refl _
  · -- texts with the same spelling are the same
    intro grammar other hother
    have hnames := congrArg (fun listing => listing.nodes.map ListedNode.name)
      (Option.some.inj hother)
    have hsame : other = old := List.singleton_inj.1 hnames
    rw [hsame]
    exact h

end Parser

-- ════════════════════════════════════════════════════════════════════════
-- Parses
-- ════════════════════════════════════════════════════════════════════════

namespace Parse

variable {registry : Registry} {parser : Parser} {language : String} {kinds : KindTable}
  {base : Option EditedParse} {document : Document} {parse : Parse}

theorem exists_of_spelling (kinds : KindTable) (document : Document) {hasError : Bool}
    (h : registry.listing? parser language base document.text =
      some (Parser.spelling hasError document.text)) :
    ∃ parse, Parse.of registry parser language kinds base document = .ok parse ∧
      parse.listing = Parser.spelling hasError document.text := by
  have htree : ∃ tree, SyntaxTree.ofListing kinds document.length document.revision
      (Parser.spelling hasError document.text) = .ok tree := by
    rw [SyntaxTree.ofListing_eq_build]
    cases hasError <;> exact ⟨_, rfl⟩
  obtain ⟨tree, htree⟩ := htree
  exact ⟨⟨_, tree⟩, Parse.of_eq_ok_iff.2 ⟨h, htree⟩, rfl⟩

/-- A parse redone from the listing of another text, with edits that lead here, is a parse from
scratch. -/
theorem of_redo (hparser : parser.Faithful)
    (hbase : ∀ grammar found, registry.get? language = some grammar → base = some found →
      ∃ old, parser grammar none old = some found.base ∧
        Edit.LeadsTo found.edits old document.text) :
    Parse.of registry parser language kinds base document =
      Parse.of registry parser language kinds none document := by
  unfold Parse.of Registry.listing?
  cases hgrammar : registry.get? language with
  | none => rfl
  | some grammar =>
    cases base with
    | none => rfl
    | some found =>
      obtain ⟨old, hold, hleads⟩ := hbase grammar found hgrammar rfl
      simp only [hparser.redo grammar old found.base found.edits document.text hold hleads]

/-- A parse carries the revision of its document, however it was made. -/
theorem revision_of_ok (h : Parse.of registry parser language kinds base document = .ok parse) :
    parse.tree.revision = document.revision :=
  SyntaxTree.revision_of_build (Parse.of_eq_ok_iff.1 h).2

theorem length_of_ok (hparser : parser.Faithful)
    (h : Parse.of registry parser language kinds none document = .ok parse) :
    parse.tree.length = document.length := by
  obtain ⟨hlisting, htree⟩ := Parse.of_eq_ok_iff.1 h
  simp only [Registry.listing?] at hlisting
  split at hlisting
  · simp at hlisting
  · next grammar _ =>
    obtain ⟨root, hroot⟩ := SyntaxTree.exists_root_of_ofListing htree
    have hwithin := hparser.within grammar document.text parse.listing root hlisting hroot
    rw [SyntaxTree.length_of_ofListing htree hroot]
    exact Nat.max_eq_left hwithin

end Parse

end SelectionGrowth
