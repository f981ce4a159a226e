import SelectionGrowth.CommandLine.Run
import SelectionGrowth.Proofs.Selection.Around
import SelectionGrowth.Proofs.Syntax.Conversion

/-!
# Printed growth

The command `expand` grows a selection in a loop of its own and prints every
range on the way. It does not look at the range before the file is loaded,
parsed and accepted. From then on what it prints is the chain of the selection,
cut off after the number of steps: no growth and no conversion can fail on the
way. Around a position these are the ranges that a client is given.

## Main definitions

- `CommandLine.Loads` — a command that gets as far as its range
- `CommandLine.PrintsChain` — lines that are the start of a chain

## Main statements

- `SyntaxTree.growthsUpTo_eq_take` — stopped growth is the start of the whole chain
- `SyntaxTree.Nested.length_lt_of_chain` — a chain has no more selections than the text has bytes
- `CommandLine.loads_or_error` — a command loads its file, or fails whatever its range is
- `CommandLine.exists_printsChain` — the lines for a range that can be read
- `CommandLine.expandFile_of_loads` — the result for every range
-/

namespace SelectionGrowth

-- ════════════════════════════════════════════════════════════════════════
-- Stopped growth
-- ════════════════════════════════════════════════════════════════════════

namespace SyntaxTree

variable {t : SyntaxTree} {groups : SiblingGroups} {current : Span} {spans : List Span}

/-- Growth that is stopped visits the first selections of the chain, if no visit of them fails. -/
theorem growthsUpTo_eq_take {α : Type} {visit : Span → Except Failure α} {seen : List α}
    (hchain : t.chain groups current = .ok spans)
    (hvisits : List.Forall₂ (fun span a => visit span = .ok a) spans seen) (limit : Nat) :
    t.growthsUpTo groups visit limit current = .ok (seen.take limit) := by
  induction current using chain.induct t groups generalizing spans seen limit with
  | case1 current failure hgrow =>
    rw [chain_of_grow_eq_error hgrow] at hchain
    exact nomatch hchain
  | case2 current hgrow =>
    rw [chain_of_grow_eq_none hgrow] at hchain
    cases hchain
    cases hvisits
    cases limit with
    | zero => rfl
    | succ limit => rw [growthsUpTo, hgrow, List.take_nil]
  | case3 current next hgrow _ ih =>
    rw [chain_of_grow_eq_some hgrow] at hchain
    obtain ⟨rest, hrest, rfl⟩ := exists_of_map_eq_ok hchain
    cases hvisits with
    | @cons _ first _ others hfirst hothers =>
      cases limit with
      | zero => rfl
      | succ limit =>
        rw [growthsUpTo, hgrow]
        simp only [hfirst, ih hrest hothers limit, bind, Except.bind, pure, Except.pure,
          List.take_succ_cons]

/-- Every selection of a chain takes up room that was left around the one before it. -/
theorem Nested.length_lt_of_chain (hn : t.Nested) (hle : current.stop ≤ t.length)
    (hchain : t.chain groups current = .ok spans) :
    spans.length < current.start + (t.length + 1 - current.stop) := by
  induction current using chain.induct t groups generalizing spans with
  | case1 current failure hgrow =>
    rw [chain_of_grow_eq_error hgrow] at hchain
    exact nomatch hchain
  | case2 current hgrow =>
    rw [chain_of_grow_eq_none hgrow] at hchain
    cases hchain
    rw [List.length_nil]
    omega
  | case3 current next hgrow _ ih =>
    rw [chain_of_grow_eq_some hgrow] at hchain
    obtain ⟨rest, hrest, rfl⟩ := exists_of_map_eq_ok hchain
    have hroom := room_lt_of_grow hgrow
    have hlater := ih (hn.stop_le_of_grow hgrow) hrest
    rw [List.length_cons]
    omega

end SyntaxTree

namespace Document

variable {d : Document} {range : Range}

/-- The first end of a range that has no offset is its fault. -/
theorem span_of_missing {p : Position} (h : [range.start, range.stop].find?
      (fun p => (d.offsetOf? p.line p.column).isNone) = some p) :
    d.span range = .error (.outOfRange (.positionOutside p.line p.column d.lineCount)) := by
  cases hstart : d.offsetOf? range.start.line range.start.column with
  | none =>
    simp only [List.find?_cons, hstart, Option.isNone_none, Option.some.injEq] at h
    subst h
    simp [span, offset, hstart, bind, Except.bind]
  | some start =>
    cases hstop : d.offsetOf? range.stop.line range.stop.column with
    | none =>
      simp only [List.find?_cons, hstart, hstop, Option.isNone_none, Option.isNone_some,
        Option.some.injEq] at h
      subst h
      simp [span, offset, hstart, hstop, bind, Except.bind]
    | some stop =>
      simp [hstart, hstop] at h

/-- A range whose ends have offsets is a selection within the text. -/
theorem exists_span (hstart : d.offsetOf? range.start.line range.start.column ≠ none)
    (hstop : d.offsetOf? range.stop.line range.stop.column ≠ none) :
    ∃ s, d.span range = .ok s ∧ s.stop ≤ d.length := by
  obtain ⟨start, hsome⟩ := Option.ne_none_iff_exists'.1 hstart
  obtain ⟨stop, hsome'⟩ := Option.ne_none_iff_exists'.1 hstop
  refine ⟨Span.ofBounds start stop, ?_, ?_⟩
  · simp [span, offset, hsome, hsome', bind, Except.bind, pure, Except.pure]
  · have hle : start ≤ d.length := (isBoundary_of_offsetOf? hsome).le_bytes
    have hle' : stop ≤ d.length := (isBoundary_of_offsetOf? hsome').le_bytes
    exact (Span.ofBounds_of_forall (P := (· ≤ d.length)) hle hle').2

theorem exists_stop_of_range_whole {r : Range} (h : d.range (Span.ofBounds 0 d.length) = .ok r) :
    ∃ stop, d.positionOf? d.length = some stop ∧ r = ⟨⟨0, 0⟩, stop⟩ := by
  have hwhole : Span.ofBounds 0 d.length = ⟨0, d.length, Nat.zero_le _⟩ := dif_pos (Nat.zero_le _)
  obtain ⟨start, stop⟩ := r
  rw [hwhole, range_eq_ok_iff, positionOf?_zero, Option.some.injEq] at h
  obtain ⟨rfl, hstop⟩ := h
  exact ⟨stop, hstop, rfl⟩

end Document

-- ════════════════════════════════════════════════════════════════════════
-- Commands that get as far as their range
-- ════════════════════════════════════════════════════════════════════════

namespace CommandLine

/--
A command gets as far as its range: the settings give the file a language, the
file is read, its text is parsed in that language, and the tree has no errors or
may have some.
-/
structure Loads (s : Surroundings) (parser : Parser) (config : Option String) (file : String)
    (settings : EffectiveSettings) (d : Document) (parse : Parse) : Prop where
  settings_eq : settings = (Settings.load s config (some s.current) none).1
  text_eq : s.read file = .ok d.text
  revision_eq : d.revision = 0
  parse_eq : ∃ language,
    (FileTypes.ofSettings s.languageOrder settings).resolve file none = some language ∧
    Parse.of Registry.bundled parser language (settings.kindsOf language) none d = .ok parse
  accepted : parse.tree.hasError = true → settings.allowErrorTrees = true

variable {s : Surroundings} {parser : Parser} {config : Option String} {file : String}
  {settings : EffectiveSettings} {d : Document} {parse : Parse}

theorem Loads.expandFile_eq (h : Loads s parser config file settings d parse) (range : Range)
    (steps : Nat) : expandFile s parser config file range steps =
      growths d parse.tree settings.groups range steps := by
  obtain ⟨rfl, htext, hrevision, ⟨language, hlanguage, hparse⟩, haccepted⟩ := h
  obtain ⟨text, revision⟩ := d
  obtain rfl : revision = 0 := hrevision
  unfold expandFile
  simp only [hlanguage, htext, hparse, bind, Except.bind]
  rw [if_neg (by simpa using haccepted)]

/-- A command loads its file, or it fails in the same way whatever its range is. -/
theorem loads_or_error (s : Surroundings) (parser : Parser) (config : Option String)
    (file : String) : (∃ settings d parse, Loads s parser config file settings d parse) ∨
      ∃ failure, ∀ range steps, expandFile s parser config file range steps = .error failure := by
  unfold expandFile
  generalize hsettings : (Settings.load s config (some s.current) none).1 = settings
  cases hlanguage : (FileTypes.ofSettings s.languageOrder settings).resolve file none with
  | none => exact Or.inr ⟨.unparseable (.noLanguage file), fun _ _ => by simp only [hlanguage]⟩
  | some language =>
    cases htext : s.read file with
    | error fault => exact Or.inr ⟨.file fault, fun _ _ => by simp only [hlanguage]⟩
    | ok text =>
      cases hparse : Parse.of Registry.bundled parser language (settings.kindsOf language) none
          ⟨text, 0⟩ with
      | error failure =>
        exact Or.inr ⟨failure, fun _ _ => by simp only [hlanguage, hparse, bind, Except.bind]⟩
      | ok parse =>
        by_cases hrefused : (parse.tree.hasError && !settings.allowErrorTrees) = true
        · refine Or.inr ⟨.unparseable (.errorsInFile file), fun _ _ => ?_⟩
          simp only [hlanguage, hparse, bind, Except.bind, if_pos hrefused]
        · refine Or.inl ⟨settings, ⟨text, 0⟩, parse, hsettings.symm, htext, rfl,
            ⟨language, hlanguage, hparse⟩, ?_⟩
          simpa using hrefused

/-- The tree of a loaded file is nested and as long as the text that its listed root ends in. -/
theorem Loads.nested_and_length (h : Loads s parser config file settings d parse)
    (hroot : ∀ root, parse.listing.nodes.head? = some root → root.stop ≤ d.length) :
    parse.tree.Nested ∧ parse.tree.length = d.length := by
  obtain ⟨language, -, hparse⟩ := h.parse_eq
  obtain ⟨-, htree⟩ := Parse.of_eq_ok_iff.1 hparse
  obtain ⟨root, hhead⟩ := SyntaxTree.exists_root_of_ofListing htree
  refine ⟨SyntaxTree.nested_of_build htree, ?_⟩
  rw [SyntaxTree.length_of_ofListing htree hhead]
  exact Nat.max_eq_left (hroot root hhead)

-- ════════════════════════════════════════════════════════════════════════
-- Lines and chains
-- ════════════════════════════════════════════════════════════════════════

/--
Lines that are the start of a chain, for every limit on the number of steps. The
chain grows from the selection of a range, and each of its selections is printed
as the lines and columns of its ends. A higher limit only adds lines, and one not
below the length of the text gives them all: up to the whole document, or none if
the range is the whole document. Around a position of a text that is not empty
they are the ranges that a client is given.
-/
structure PrintsChain (d : Document) (t : SyntaxTree) (groups : SiblingGroups) (range : Range)
    (output : Nat → Except Failure (List String)) (start : Span) (spans : List Span)
    (ranges : List Range) : Prop where
  span_eq : d.span range = .ok start
  chain_eq : t.chain groups start = .ok spans
  images : List.Forall₂ (fun span r => d.range span = .ok r) spans ranges
  output_eq : ∀ steps, output steps = .ok ((ranges.take steps).map fun r =>
    toString r.start.line ++ ":" ++ toString r.start.column ++ "-" ++
      (toString r.stop.line ++ ":" ++ toString r.stop.column))
  isPrefix : ∀ few many, few ≤ many → ∃ lines more,
    output few = .ok lines ∧ output many = .ok more ∧ lines <+: more
  unlimited : ∀ steps, d.length ≤ steps → output steps = .ok (ranges.map renderRange)
  eq_nil : start = Span.ofBounds 0 d.length → ranges = []
  outermost : start ≠ Span.ofBounds 0 d.length → ∃ stop, d.positionOf? d.length = some stop ∧
    ranges.getLast? = some ⟨⟨0, 0⟩, stop⟩
  around : ∀ p, range = ⟨p, p⟩ → 0 < d.length → ∀ source key,
    Source.snapshot source key = .ok (d, t) → ∃ selection : SelectionRange,
      source.selectionRanges groups key [p] = .ok [selection] ∧ selection.ranges = ranges

section

variable {t : SyntaxTree} {groups : SiblingGroups} {range : Range} {start : Span}
  {spans : List Span} {ranges : List Range} (hn : t.Nested) (hlength : t.length = d.length)

theorem growths_eq_take (hspan : d.span range = .ok start)
    (hchain : t.chain groups start = .ok spans)
    (himages : List.Forall₂ (fun span r => d.range span = .ok r) spans ranges) (steps : Nat) :
    growths d t groups range steps = .ok ((ranges.take steps).map renderRange) := by
  have hvisits : List.Forall₂ (fun span line => (d.range span).map renderRange = .ok line) spans
      (ranges.map renderRange) := by
    rw [List.forall₂_map_right_iff]
    exact himages.imp fun span r hr => by rw [hr]; rfl
  unfold growths
  simp only [hspan, bind, Except.bind]
  rw [SyntaxTree.growthsUpTo_eq_take hchain hvisits, List.map_take]

include hn hlength

theorem root_span_eq : t.root.span = Span.ofBounds 0 d.length := by
  have hstop : t.root.span.stop = d.length := hlength
  rw [← Span.ofBounds_start_stop t.root.span, hn.root_start, hstop]

/-- The ranges that a client is given around a position are those of its chain. -/
theorem exists_selection_of_images (hbound : ∀ id, t.Reachable id → d.OnBoundaries (t.span id))
    {p : Position} (hspan : d.span ⟨p, p⟩ = .ok start) (hchain : t.chain groups start = .ok spans)
    (himages : List.Forall₂ (fun span r => d.range span = .ok r) spans ranges)
    (hpos : 0 < d.length) {source : Source} {key : String}
    (hsnap : source.snapshot key = .ok (d, t)) : ∃ selection : SelectionRange,
      source.selectionRanges groups key [p] = .ok [selection] ∧ selection.ranges = ranges := by
  cases hoffset : d.offsetOf? p.line p.column with
  | none =>
    rw [Document.span_self_of_none hoffset] at hspan
    exact nomatch hspan
  | some offset =>
    rw [Document.span_self_of_some hoffset] at hspan
    obtain rfl := Except.ok.inj hspan
    obtain ⟨selection, hselection, offset', spans', hoffset', hchain', hnil, hsurrounds⟩ :=
      Source.exists_rangesAround hn hlength hbound groups hoffset
    -- both sides grow the same caret
    obtain rfl := Option.some.inj (hoffset.symm.trans hoffset')
    obtain rfl := Except.ok.inj (hchain.symm.trans hchain')
    have hne : spans ≠ [] := fun heq => Nat.ne_of_gt hpos (hnil.1 heq)
    have himages' := hsurrounds.images
    rw [if_neg hne] at himages'
    refine ⟨selection, ?_, ?_⟩
    · simp [Source.selectionRanges, hsnap, hselection, bind, Except.bind, pure, Except.pure]
    · refine List.right_unique_forall₂' (fun span r r' hr hr' => ?_) himages' himages
      exact Except.ok.inj (hr.symm.trans hr')

/-- The lines of a range that can be read are the start of its chain. -/
theorem exists_printsChain (hbound : ∀ id, t.Reachable id → d.OnBoundaries (t.span id))
    (groups : SiblingGroups) (hstart : d.offsetOf? range.start.line range.start.column ≠ none)
    (hstop : d.offsetOf? range.stop.line range.stop.column ≠ none) :
    ∃ start spans ranges,
      PrintsChain d t groups range (growths d t groups range) start spans ranges := by
  obtain ⟨start, hspan, hle⟩ := Document.exists_span hstart hstop
  obtain ⟨spans, hchain, hgrowth⟩ := hn.exists_chain groups start (hlength ▸ hle)
  have hreached : ∀ span ∈ spans, d.OnBoundaries span := by
    intro span hspan
    obtain ⟨id, hid, rfl⟩ := hgrowth.reachable span hspan
    exact hbound id hid
  obtain ⟨nested, -, himages⟩ := SelectionRange.exists_ofSpans? hreached
  have houtput := growths_eq_take hspan hchain himages
  have hroot := root_span_eq hn hlength
  have hempty := hgrowth.eq_nil_iff hn
  rw [hroot] at hempty
  refine ⟨start, spans, _, hspan, hchain, himages, houtput, ?_, ?_, ?_, ?_, ?_⟩
  · intro few many hfew
    refine ⟨_, _, houtput few, houtput many, ?_⟩
    exact (List.take_prefix_take_left hfew).map renderRange
  · intro steps hsteps
    have hroom := hn.length_lt_of_chain (hlength ▸ hle) hchain
    have hordered := start.ordered
    rw [houtput, List.take_of_length_le]
    rw [← himages.length_eq]
    omega
  · intro hwhole
    rw [hempty.2 hwhole] at himages
    exact List.forall₂_nil_left_iff.1 himages
  · intro hinside
    have hlast : spans.getLast? = some t.root.span := by
      cases hlast : spans.getLast? with
      | none => exact absurd (hempty.1 (List.getLast?_eq_none_iff.1 hlast)) hinside
      | some last => rw [hgrowth.getLast_eq_root hlast]
    obtain ⟨outermost, houtermost, himage⟩ := exists_getLast?_of_forall₂ himages hlast
    rw [hroot] at himage
    obtain ⟨stop, hend, rfl⟩ := Document.exists_stop_of_range_whole himage
    exact ⟨stop, hend, houtermost⟩
  · rintro p rfl hpos source key hsnap
    exact exists_selection_of_images hn hlength hbound hspan hchain himages hpos hsnap

end

/--
For every file, range, limit and settings with which the command gets as far as
its range, in a text that the listed root ends in and whose boundaries the nodes
of the tree keep to: an end of the range without an offset is the result, the
start before the end; with both offsets the lines are the start of the chain of
the range.
-/
theorem expandFile_of_loads (h : Loads s parser config file settings d parse)
    (hroot : ∀ root, parse.listing.nodes.head? = some root → root.stop ≤ d.length)
    (hbound : ∀ id, parse.tree.Reachable id → d.OnBoundaries (parse.tree.span id))
    (range : Range) :
    (∀ p steps, [range.start, range.stop].find?
        (fun p => (d.offsetOf? p.line p.column).isNone) = some p →
      expandFile s parser config file range steps =
        .error (.outOfRange (.positionOutside p.line p.column d.lineCount))) ∧
    (d.offsetOf? range.start.line range.start.column ≠ none →
      d.offsetOf? range.stop.line range.stop.column ≠ none →
      ∃ start spans ranges, PrintsChain d parse.tree settings.groups range
        (expandFile s parser config file range) start spans ranges) := by
  obtain ⟨hn, hlength⟩ := h.nested_and_length hroot
  have hexpand : expandFile s parser config file range =
      growths d parse.tree settings.groups range := funext (h.expandFile_eq range)
  rw [hexpand]
  refine ⟨fun p steps hmissing => ?_, exists_printsChain hn hlength hbound settings.groups⟩
  simp [growths, Document.span_of_missing hmissing, bind, Except.bind]

/-- A class on the third line of a text of its own. -/
def classDocument : Document :=
  ⟨"\n\n  class A { }\n\n", 0⟩

/-- A parser that knows the class. -/
def classParser : Parser := fun grammar _ text =>
  if grammar = .java ∧ text = classDocument.text then
    some ⟨false, [⟨0, "program", 4, 17⟩, ⟨1, "class_declaration", 4, 15⟩, ⟨2, "class", 4, 9⟩,
      ⟨2, "identifier", 10, 11⟩, ⟨2, "class_body", 12, 15⟩, ⟨3, "\x7b", 12, 13⟩,
      ⟨3, "\x7d", 14, 15⟩]⟩
  else none

/-- A folder with the class in its only file. -/
def classFolder : Surroundings :=
  ⟨fun path => if path = "A.java" then .ok classDocument.text else .error .notFound, "/", none,
    some "/", .forward⟩

/-- The closing brace, selected backwards, grows up to the whole file; a line after the last one is
a fault. -/
theorem expandFile_of_classFolder : ∃ settings parse,
    Loads classFolder classParser none "A.java" settings classDocument parse ∧
    (∀ root, parse.listing.nodes.head? = some root → root.stop ≤ classDocument.length) ∧
    (∀ id, parse.tree.Reachable id → classDocument.OnBoundaries (parse.tree.span id)) ∧
    expandFile classFolder classParser none "A.java" ⟨⟨2, 12⟩, ⟨5, 0⟩⟩ 3 =
      .error (.outOfRange (.positionOutside 5 0 5)) ∧
    ∃ start spans ranges, PrintsChain classDocument parse.tree settings.groups
      ⟨⟨2, 13⟩, ⟨2, 12⟩⟩ (expandFile classFolder classParser none "A.java" ⟨⟨2, 13⟩, ⟨2, 12⟩⟩)
      start spans ranges := by
  let settings := (Settings.load classFolder none (some classFolder.current) none).1
  have hlanguage :
      (FileTypes.ofSettings .forward settings).resolve "A.java" none = some "java" := by
    decide +kernel
  have hcheck : (Parse.of Registry.bundled classParser "java" (settings.kindsOf "java") none
      classDocument).map (fun parse => decide (parse.tree.hasError = false ∧
        (∀ root ∈ parse.listing.nodes.head?, root.stop ≤ classDocument.length) ∧
        ∀ id ∈ List.range parse.tree.nodeCount,
          classDocument.OnBoundaries (parse.tree.span id))) = .ok true := by
    decide +kernel
  obtain ⟨parse, hparse, hchecked⟩ := exists_of_map_eq_ok hcheck
  obtain ⟨herror, hroot, hnodes⟩ := of_decide_eq_true hchecked
  have hloads : Loads classFolder classParser none "A.java" settings classDocument parse :=
    ⟨rfl, rfl, rfl, ⟨"java", hlanguage, hparse⟩, fun h => absurd (herror.symm.trans h) (by decide)⟩
  have hbound : ∀ id, parse.tree.Reachable id → classDocument.OnBoundaries (parse.tree.span id) :=
    fun id hid => hnodes id (List.mem_range.2 hid.lt_nodeCount)
  exact ⟨settings, parse, hloads, hroot, hbound,
    (expandFile_of_loads hloads hroot hbound ⟨⟨2, 12⟩, ⟨5, 0⟩⟩).1 ⟨5, 0⟩ 3 (by decide +kernel),
    (expandFile_of_loads hloads hroot hbound ⟨⟨2, 13⟩, ⟨2, 12⟩⟩).2 (by decide +kernel)
      (by decide +kernel)⟩

example : (expandFile classFolder classParser none "A.java" ⟨⟨2, 13⟩, ⟨2, 12⟩⟩ 2).toOption =
    some ["2:10-2:13", "2:2-2:13"] := by
  decide +kernel

end CommandLine

end SelectionGrowth
