import SelectionGrowth.Proofs.Selection.Faults
import SelectionGrowth.Proofs.Server.Entries
import SelectionGrowth.Proofs.Server.Openings
import SelectionGrowth.Proofs.Server.Runs
import SelectionGrowth.Proofs.Table.Lookups

/-!
# Documents of a session

What a session stores of a document is what the client has sent for it, whatever
the parser. Its parse is the one that the text has from scratch as long as the
edits of all changes fit. Beyond that nothing keeps a parse and a text together:
a text that is replaced as a whole and then changed in part, by one message, may
keep nodes of the text before.

## Main statements

- `Workspace.get?_run_iff` — which documents a run of calls leaves
- `Workspace.allFresh_run`, `Workspace.exists_not_allFresh` — parses are those from scratch as
  long as edits fit, and no longer
- `Workspace.snapshot_ne_mismatch` — when texts and trees agree
- `Session.documents_after_run` — the documents of a session after any messages about documents
- `Session.field_kept_after_commentField` — a text that keeps nodes of the text before
-/

namespace SelectionGrowth

namespace Workspace

variable {w : Workspace} {parser : Parser}

theorem entryAfter_of_spares {settings : EffectiveSettings} {fileTypes : FileTypes} {key : String}
    {call : Call} (h : call.Spares key) (before : Option Entry) :
    entryAfter settings fileTypes parser key before call = before := by
  obtain ⟨hreset, -, hrevision⟩ := h
  cases call with
  | opened address clientId document => exact if_neg hreset
  | changed address revision changes =>
    refine if_neg fun hkey => ?_
    rw [Call.revisionOf?, if_pos hkey] at hrevision
    cases hrevision
  | closed address => exact if_neg hreset
  | expand address range => rfl
  | shrink address range => rfl
  | ranges address positions => rfl

/--
A run of calls leaves an entry exactly for the documents that were opened and
not closed since: the document as it was opened with all changes since, in the
language it was opened in.
-/
theorem get?_run_iff (hempty : ∀ key, w.store.get? key = none) (parser : Parser)
    (calls : List Call) (key : String) (document : Document) (language : Option String) :
    (∃ parse, (w.run parser calls).store.get? key = some ⟨document, language, parse⟩) ↔
      ∃ address clientId opened later, Call.OpenSince key calls address clientId opened later ∧
        document = Call.received key opened later ∧
        language = w.fileTypes.resolve address.filePath (some clientId) := by
  induction calls using List.reverseRecOn generalizing document language with
  | nil =>
    constructor
    · rintro ⟨parse, hget⟩
      cases (hempty key).symm.trans hget
    · rintro ⟨address, clientId, opened, later, ⟨-, ⟨earlier, hcalls⟩, -⟩, -⟩
      exact absurd hcalls.symm (by simp)
  | append_singleton calls call ih =>
    obtain ⟨hsettings, htypes⟩ := w.settings_run parser calls
    have hcurrent := allCurrent_run (allCurrent_of_empty hempty) parser calls
    rw [run_append_singleton, get?_handle hcurrent, hsettings, htypes]
    rcases call.cases_of_key key with hspares | ⟨address, clientId, opened, rfl, hkey⟩ |
      ⟨address, revision, changes, rfl, hkey⟩ | ⟨address, rfl, hkey⟩
    · rw [entryAfter_of_spares hspares, ih, Call.exists_openSince_concat_iff hspares.not_resets
        (P := fun address clientId received => document = received ∧
          language = w.fileTypes.resolve address.filePath (some clientId))]
      simp only [Call.received_concat_of_ne hspares.changesOf_eq hspares.revisionOf?_eq]
    · -- an opening starts anew, whatever was there
      rw [entryAfter, if_pos hkey]
      constructor
      · rintro ⟨parse, hentry⟩
        cases hentry
        exact ⟨address, clientId, _, [],
          Call.openSince_concat_iff.2 (Or.inl ⟨rfl, hkey, rfl⟩), rfl, rfl⟩
      · rintro ⟨address', clientId', opened', later, hopen, rfl, rfl⟩
        rcases Call.openSince_concat_iff.1 hopen with ⟨hcall, -, rfl⟩ | ⟨hreset, -⟩
        · cases hcall
          exact ⟨_, rfl⟩
        · exact absurd hkey hreset
    · -- changes are applied to what the calls before have left
      have hreset : ¬ (Call.changed address revision changes).Resets key := id
      rw [entryAfter, if_pos hkey, Call.exists_openSince_concat_iff hreset
        (P := fun address clientId received => document = received ∧
          language = w.fileTypes.resolve address.filePath (some clientId))]
      simp only [Call.received_concat_changed hkey, Option.map_eq_some_iff]
      constructor
      · rintro ⟨parse, old, hold, hentry⟩
        cases hentry
        obtain ⟨opened, clientId, first, later, hopen, hdocument, hlanguage⟩ :=
          (ih old.document old.language).1 ⟨old.parse, hold⟩
        exact ⟨opened, clientId, first, later, hopen, by rw [hdocument], hlanguage⟩
      · rintro ⟨opened, clientId, first, later, hopen, rfl, rfl⟩
        obtain ⟨parse, hold⟩ := (ih _ _).2 ⟨opened, clientId, first, later, hopen, rfl, rfl⟩
        exact ⟨_, _, hold, rfl⟩
    · rw [entryAfter, if_pos hkey]
      constructor
      · rintro ⟨parse, hentry⟩
        cases hentry
      · rintro ⟨address', clientId', opened, later, hopen, -⟩
        rcases Call.openSince_concat_iff.1 hopen with ⟨hcall, -⟩ | ⟨hreset, -⟩
        · cases hcall
        · exact absurd hkey hreset

/-- As long as edits fit, every parse is the one from scratch. -/
theorem allFresh_run (hparser : parser.Faithful) (hempty : ∀ key, w.store.get? key = none)
    {calls : List Call} (hfits : Call.EditsFit w.fileTypes calls) :
    (w.run parser calls).AllFresh parser := by
  induction calls using List.reverseRecOn with
  | nil => exact allFresh_of_empty hempty
  | append_singleton calls call ih =>
    rw [run_append_singleton]
    refine allFresh_handle hparser (ih hfits.of_append) ?_
    rintro address revision changes ⟨document, language, parse⟩ rfl hget hgrammar
    obtain ⟨opened, clientId, first, later, hopen, rfl, rfl⟩ :=
      (get?_run_iff hempty parser calls address.key document language).1 ⟨parse, hget⟩
    exact hfits calls address revision changes [] rfl opened clientId first later hopen hgrammar

/-- Where edits do not fit, there is a faithful parser that does not keep every parse the one from
scratch. -/
theorem exists_not_allFresh (hempty : ∀ key, w.store.get? key = none) {calls : List Call}
    (h : ¬ Call.EditsFit w.fileTypes calls) :
    ∃ parser : Parser, parser.Faithful ∧ ∃ earlier, earlier <+: calls ∧
      ¬ (w.run parser earlier).AllFresh parser := by
  unfold Call.EditsFit at h
  push Not at h
  obtain ⟨earlier, address, revision, changes, rest, rfl, opened, clientId, document, later,
    hopen, hgrammar, hfits⟩ := h
  obtain ⟨hedits, hleads⟩ := not_or.1 hfits
  refine ⟨.astray _ _ _, Parser.faithful_astray hleads, ?_⟩
  generalize hparser : Parser.astray _ _ _ = parser
  by_cases hbefore : (w.run parser earlier).AllFresh parser
  · refine ⟨earlier ++ [.changed address revision changes], ⟨rest, by simp⟩, fun hafter => ?_⟩
    obtain ⟨parse, hget⟩ := (get?_run_iff hempty parser earlier address.key _ _).2
      ⟨opened, clientId, document, later, hopen, rfl, rfl⟩
    have hentry := hbefore _ _ hget
    have hnext := hafter address.key
    rw [run_append_singleton, get?_handle hbefore.allCurrent, hget, entryAfter, if_pos rfl,
      Option.map_some, (settings_handle _ _ _).1] at hnext
    subst hparser
    exact Entry.parsed_ne_fresh hedits hentry hgrammar revision (hnext _ rfl)
  · exact ⟨earlier, List.prefix_append _ _, hbefore⟩

/-- Texts and trees agree in revision, so a mismatch is one of lengths. -/
theorem lengths_of_snapshot (hcurrent : w.AllCurrent) {key : String} {fault : Mismatch}
    (h : w.store.source.snapshot key = .error (.mismatch fault)) :
    ∃ entry parse, w.store.get? key = some entry ∧ entry.parse = some parse ∧
      fault = .lengths parse.tree.length entry.document.length ∧
      parse.tree.length ≠ entry.document.length := by
  unfold Source.snapshot Store.source at h
  simp only at h
  cases hget : w.store.get? key with
  | none =>
    rw [hget] at h
    exact nomatch h
  | some entry =>
    simp only [Option.map_some, Store.tree, hget] at h
    cases hparse : entry.parse with
    | none =>
      rw [hparse] at h
      exact nomatch h
    | some parse =>
      have hrevision := (hcurrent key entry hget).revision_eq parse hparse
      simp only [hparse, hrevision, ne_eq, not_true_eq_false, if_false] at h
      split at h
      · exact nomatch h
      · simp only [bind, Except.bind, hrevision, not_true_eq_false, if_false] at h
        split at h
        · next hlength =>
          cases h
          exact ⟨entry, parse, rfl, hparse, rfl, hlength⟩
        · exact nomatch h

theorem snapshot_ne_revisions (hcurrent : w.AllCurrent) (key : String) (tree document : Int) :
    w.store.source.snapshot key ≠ .error (.mismatch (.revisions tree document)) := by
  intro h
  obtain ⟨entry, parse, -, -, hfault, -⟩ := lengths_of_snapshot hcurrent h
  cases hfault

/-- Texts agree with their parses from scratch in every respect. -/
theorem snapshot_ne_mismatch (hparser : parser.Faithful) (hfresh : w.AllFresh parser)
    (key : String) (fault : Mismatch) :
    w.store.source.snapshot key ≠ .error (.mismatch fault) := by
  intro h
  obtain ⟨entry, parse, hget, hparse, -, hlength⟩ := lengths_of_snapshot hfresh.allCurrent h
  obtain ⟨name, -, -, hmade⟩ := (Entry.parse_eq_some_iff_of_fresh (hfresh key entry hget)).1 hparse
  exact hlength (Parse.length_of_ok hparser hmade)

theorem expand_snd (w : Workspace) (address : Url) (range : Range) :
    (w.expand address range).2 = w.store.source.expand w.settings.groups address.key range := by
  unfold expand
  split
  · next heq => exact heq.symm
  · rfl

theorem replyOf_handle_ne_mismatch {fault : Mismatch}
    (hsnap : ∀ key, w.store.source.snapshot key ≠ .error (.mismatch fault)) (parser : Parser)
    (call : Call) :
    Session.replyOf (w.handle parser call).2.1 ≠ .failure (.mismatch fault) := by
  cases call with
  | opened address clientId document => exact fun h => nomatch h
  | changed address revision changes => exact fun h => nomatch h
  | closed address => exact fun h => nomatch h
  | expand address range =>
    show Session.replyOf (.range (w.expand address range).2) ≠ _
    rw [expand_snd]
    cases hresult : w.store.source.expand w.settings.groups address.key range with
    | ok next => cases next <;> exact fun h => nomatch h
    | error failure =>
      intro h
      cases h
      rcases Source.snapshot_or_outOfRange_of_expand hresult with hmismatch | ⟨_, hrange⟩
      · exact hsnap _ hmismatch
      · exact nomatch hrange
  | shrink address range =>
    show Session.replyOf (.range (.ok (w.shrink address range).2)) ≠ _
    cases (w.shrink address range).2 <;> exact fun h => nomatch h
  | ranges address positions =>
    show Session.replyOf (.ranges (w.store.source.selectionRanges w.settings.groups address.key
      positions)) ≠ _
    cases hresult : w.store.source.selectionRanges w.settings.groups address.key positions with
    | ok selections => exact fun h => nomatch h
    | error failure =>
      intro h
      cases h
      rcases Source.snapshot_or_outOfRange_of_selectionRanges hresult with hmismatch | ⟨_, hrange⟩
      · exact hsnap _ hmismatch
      · exact nomatch hrange

end Workspace

-- ════════════════════════════════════════════════════════════════════════
-- Runs of a session
-- ════════════════════════════════════════════════════════════════════════

namespace Session

/--
After `initialize` and any messages about documents, whatever the parser: a
document is stored exactly when it was opened and not closed since. Its text is
that of the opening with all changes since, in whatever groups they came, and its
revision is that of the last message that opened or changed it. Its tree, if it has
one, is of that revision, and no message is answered with a mismatch of revisions.

If the parser is faithful and the edits of all changes fit, then a document has a
parse exactly when its language has a grammar and the listing of its text makes a
tree, which is then its tree, made with the kinds in force; and no message is
answered with any mismatch of text and tree. If some edits do not fit, this fails
for some faithful parser after some of the messages.
-/
theorem documents_after_run {order : LanguageOrder} {config : Option String}
    {atStart surroundings : Surroundings} {parser : Parser} {hello : Message}
    {messages : List Message}
    (hstart : ((Session.new order config).receive atStart parser hello).1.phase = .serving)
    (hmessages : ∀ message ∈ messages, message.IsAboutDocument) {s : Session}
    (hs : s = ((Session.new order config).receive atStart parser hello).1.run surroundings parser
      messages) (key : String) :
    (∀ document language,
      (∃ parse, s.workspace.store.get? key = some ⟨document, language, parse⟩) ↔
      ∃ address clientId opened later,
        Call.OpenSince key (messages.filterMap Message.call?) address clientId opened later ∧
        document = Call.received key opened later ∧
        language = s.workspace.fileTypes.resolve address.filePath (some clientId)) ∧
    (∀ entry parse, s.workspace.store.get? key = some entry → entry.parse = some parse →
      parse.tree.revision = entry.document.revision) ∧
    (∀ message tree document, message.IsAboutDocument →
      (s.receive surroundings parser message).2.1 ≠
        .failure (.mismatch (.revisions tree document))) ∧
    (parser.Faithful →
      Call.EditsFit s.workspace.fileTypes (messages.filterMap Message.call?) →
      (∀ entry parse, s.workspace.store.get? key = some entry →
        (entry.parse = some parse ↔ ∃ language, entry.language = some language ∧
          Registry.bundled.contains language = true ∧
          Parse.of Registry.bundled parser language (s.workspace.settings.kindsOf language) none
            entry.document = .ok parse)) ∧
      ∀ message fault, message.IsAboutDocument →
        (s.receive surroundings parser message).2.1 ≠ .failure (.mismatch fault)) ∧
    (¬ Call.EditsFit s.workspace.fileTypes (messages.filterMap Message.call?) →
      ∃ other : Parser, other.Faithful ∧ ∃ earlier, earlier <+: messages ∧
        ¬ (((Session.new order config).receive atStart other hello).1.run surroundings other
          earlier).workspace.AllFresh other) := by
  obtain ⟨settings, hloaded⟩ := workspace_of_start hstart
  obtain ⟨hphase, hworkspace⟩ := workspace_run surroundings parser hstart hmessages
  rw [hloaded, ← hs] at hworkspace
  rw [← hs] at hphase
  set started := (Workspace.initial order).configure atStart.languageOrder settings
  have hempty : ∀ key, started.store.get? key = none := fun key => Table.get?_empty key
  have hcurrent : s.workspace.AllCurrent := by
    rw [hworkspace]
    exact Workspace.allCurrent_run (Workspace.allCurrent_of_empty hempty) parser _
  have htypes : s.workspace.fileTypes = started.fileTypes := by
    rw [hworkspace]
    exact (started.settings_run parser _).2
  have hreply : ∀ message fault, message.IsAboutDocument →
      (∀ key, s.workspace.store.source.snapshot key ≠ .error (.mismatch fault)) →
      (s.receive surroundings parser message).2.1 ≠ .failure (.mismatch fault) := by
    intro message fault hmessage hsnap
    rcases receive_cases surroundings parser hphase hmessage with ⟨call, -, hserve⟩ | ⟨-, -, hnone⟩
    · rw [hserve]
      exact Workspace.replyOf_handle_ne_mismatch hsnap parser call
    · exact hnone _
  refine ⟨fun document language => ?_, fun entry parse hget hparse => ?_,
    fun message tree document hmessage => ?_, fun hparser hfits => ?_, fun hfits => ?_⟩
  · rw [htypes, hworkspace]
    exact Workspace.get?_run_iff hempty parser _ key document language
  · exact (hcurrent key entry hget).revision_eq parse hparse
  · exact hreply message _ hmessage fun other =>
      Workspace.snapshot_ne_revisions hcurrent other tree document
  · rw [htypes] at hfits
    have hfresh : s.workspace.AllFresh parser := by
      rw [hworkspace]
      exact Workspace.allFresh_run hparser hempty hfits
    refine ⟨fun entry parse hget => ?_, fun message fault hmessage => ?_⟩
    · exact Entry.parse_eq_some_iff_of_fresh (hfresh key entry hget)
    · exact hreply message fault hmessage fun other =>
        Workspace.snapshot_ne_mismatch hparser hfresh other fault
  · -- calls up to some point are the calls of the messages up to some point
    rw [htypes] at hfits
    obtain ⟨other, hfaithful, calls, ⟨rest, hcalls⟩, hstale⟩ :=
      Workspace.exists_not_allFresh hempty hfits
    obtain ⟨earlier, later, rfl, rfl, -⟩ := List.filterMap_eq_append_iff.1 hcalls.symm
    refine ⟨other, hfaithful, earlier, List.prefix_append _ _, ?_⟩
    rw [receive_new order config atStart other parser]
    rw [(workspace_run surroundings other hstart fun message hmem =>
      hmessages message (List.mem_append_left _ hmem)).2, hloaded]
    exact hstale

/-- Listings from a table end where their texts do, or before, if all of the table do. -/
theorem stop_le_of_find? {entries : List (String × Listing)}
    (hentries : ∀ pair ∈ entries,
      pair.2.nodes.head?.all (fun root => root.stop ≤ Text.bytes pair.1.toList) = true)
    {text : String} {listing : Listing} {root : ListedNode}
    (h : Table.find? text entries = some listing) (hroot : listing.nodes.head? = some root) :
    root.stop ≤ Text.bytes text.toList := by
  have hall := hentries _ (Table.mem_of_find? h)
  rw [hroot] at hall
  exact of_decide_eq_true hall

/-- A parser that knows a comment, and the same comment behind a blank. -/
def commentParser : Parser := fun grammar _ text =>
  match grammar with
  | .rust => none
  | .java => Table.find? text
    [("// c\n", ⟨false, [⟨0, "program", 0, 5⟩, ⟨1, "line_comment", 0, 4⟩]⟩),
      (" // c\n", ⟨false, [⟨0, "program", 1, 6⟩, ⟨1, "line_comment", 1, 5⟩]⟩)]

theorem commentParser_faithful : commentParser.Faithful where
  redo _ _ _ _ _ _ _ := rfl
  within grammar text listing root h hroot := by
    cases grammar with
    | rust => cases h
    | java => exact stop_le_of_find? (by decide) h hroot

def noFiles : Surroundings :=
  ⟨fun _ => .error .notFound, "/", none, some "/", .forward⟩

def hello : Message :=
  ⟨"initialize", some (.record [("capabilities", .record [])]), false⟩

def openComment : Message :=
  ⟨"textDocument/didOpen", some (.record [("textDocument", .record
    [("uri", .text "file:///A.java"), ("languageId", .text "java"), ("version", .int 1),
      ("text", .text "// c\n")])]), true⟩

/-- A message that puts a blank before the comment. -/
def indentComment : Message :=
  let start := Data.record [("line", .int 0), ("character", .int 0)]
  ⟨"textDocument/didChange", some (.record
    [("textDocument", .record [("uri", .text "file:///A.java"), ("version", .int 2)]),
      ("contentChanges", .list [.record
        [("range", .record [("start", start), ("end", start)]), ("text", .text " ")]])]), true⟩

def commentSession : Session :=
  ((Session.new .forward none).receive noFiles commentParser hello).1.run noFiles commentParser
    [openComment, indentComment]

/-- The indented comment is stored at its second revision, with the tree that it has from scratch,
which is of that revision. -/
theorem documents_after_indentComment :
    ((Session.new .forward none).receive noFiles commentParser hello).1.phase = .serving ∧
    (∀ message ∈ [openComment, indentComment], message.IsAboutDocument) ∧
    commentParser.Faithful ∧
    Call.EditsFit commentSession.workspace.fileTypes
      ([openComment, indentComment].filterMap Message.call?) ∧
    ∃ entry parse, commentSession.workspace.store.get? "file:///A.java" = some entry ∧
      entry.document = ⟨" // c\n", 2⟩ ∧ entry.language = some "java" ∧
      entry.parse = some parse ∧ parse.tree.revision = 2 ∧
      Parse.of Registry.bundled commentParser "java"
        (commentSession.workspace.settings.kindsOf "java") none entry.document = .ok parse := by
  have hstart :
      ((Session.new .forward none).receive noFiles commentParser hello).1.phase = .serving := by
    decide +kernel
  have hmessages : ∀ message ∈ [openComment, indentComment], message.IsAboutDocument := by
    intro message hmem
    rcases List.mem_pair.1 hmem with rfl | rfl
    · exact ⟨.opened, rfl⟩
    · exact ⟨.changed, rfl⟩
  have hs : commentSession = ((Session.new .forward none).receive noFiles commentParser
      hello).1.run noFiles commentParser [openComment, indentComment] := rfl
  obtain ⟨hstored, hrevision, -, hparses, -⟩ :=
    documents_after_run hstart hmessages hs "file:///A.java"
  let address : Url := ⟨"file".toList, some [], "/A.java".toList, none, none⟩
  let indent : Call := .changed address 2 [⟨some ⟨⟨0, 0⟩, ⟨0, 0⟩⟩, " "⟩]
  have hcalls : [openComment, indentComment].filterMap Message.call? =
      [.opened address "java" ⟨"// c\n", 1⟩, indent] := by
    decide +kernel
  have hopen : Call.OpenSince "file:///A.java"
      ([openComment, indentComment].filterMap Message.call?) address "java" ⟨"// c\n", 1⟩
      [indent] := by
    refine ⟨by decide +kernel, ⟨[], hcalls⟩, fun call hmem => ?_⟩
    rw [List.mem_singleton.1 hmem]
    exact id
  have hreceived : (⟨" // c\n", 2⟩ : Document) = Call.received "file:///A.java" ⟨"// c\n", 1⟩
      [indent] := by
    decide +kernel
  have hresolved : some "java" =
      commentSession.workspace.fileTypes.resolve address.filePath (some "java") := by
    decide +kernel
  have hfits : Call.EditsFit commentSession.workspace.fileTypes
      ([openComment, indentComment].filterMap Message.call?) := by
    -- the only change is of a part of the text
    refine Call.editsFit_of_fullLast fun other revision changes hmem => ?_
    rw [hcalls] at hmem
    rcases List.mem_pair.1 hmem with hcall | hcall
    · cases hcall
    · obtain ⟨-, -, hchanges⟩ := Call.changed.inj hcall
      rw [hchanges]
      rintro ⟨change, hchange, hfull⟩
      rw [List.mem_singleton.1 hchange] at hfull
      cases hfull
  have hmade : (Parse.of Registry.bundled commentParser "java"
      (commentSession.workspace.settings.kindsOf "java") none ⟨" // c\n", 2⟩).isOk = true := by
    decide +kernel
  cases hparse : Parse.of Registry.bundled commentParser "java"
      (commentSession.workspace.settings.kindsOf "java") none ⟨" // c\n", 2⟩ with
  | error failure =>
    rw [hparse] at hmade
    cases hmade
  | ok parse =>
    obtain ⟨found, hget⟩ := (hstored ⟨" // c\n", 2⟩ (some "java")).2
      ⟨address, "java", _, _, hopen, hreceived, hresolved⟩
    have hfound := ((hparses commentParser_faithful hfits).1 _ parse hget).2
      ⟨"java", rfl, by decide +kernel, hparse⟩
    exact ⟨hstart, hmessages, commentParser_faithful, hfits, _, parse, hget, rfl, rfl, hfound,
      hrevision _ parse hget hfound, hparse⟩

-- ════════════════════════════════════════════════════════════════════════
-- A text replaced as a whole, then changed in part
-- ════════════════════════════════════════════════════════════════════════

def fieldText : String :=
  "class A \x7b int x; \x7d\n"

/-- The class with a comment over most of its field, one column further to the right. -/
def commentedText : String :=
  " class A \x7b /*t x*/\x7d\n"

def fieldListing : Listing :=
  ⟨false, [⟨0, "program", 0, 19⟩, ⟨1, "class_declaration", 0, 18⟩, ⟨2, "class", 0, 5⟩,
    ⟨2, "identifier", 6, 7⟩, ⟨2, "class_body", 8, 18⟩, ⟨3, "\x7b", 8, 9⟩,
    ⟨3, "field_declaration", 10, 16⟩, ⟨4, "integral_type", 10, 13⟩, ⟨5, "int", 10, 13⟩,
    ⟨4, "variable_declarator", 14, 15⟩, ⟨5, "identifier", 14, 15⟩, ⟨4, ";", 15, 16⟩,
    ⟨3, "\x7d", 17, 18⟩]⟩

def commentedListing : Listing :=
  ⟨false, [⟨0, "program", 1, 20⟩, ⟨1, "class_declaration", 1, 19⟩, ⟨2, "class", 1, 6⟩,
    ⟨2, "identifier", 7, 8⟩, ⟨2, "class_body", 9, 19⟩, ⟨3, "\x7b", 9, 10⟩,
    ⟨3, "block_comment", 11, 18⟩, ⟨3, "\x7d", 18, 19⟩]⟩

/-- The nodes of the field, one column further to the right. -/
def movedListing : Listing where
  hasError := false
  nodes := fieldListing.nodes.map fun n => { n with start := n.start + 1, stop := n.stop + 1 }

def classListing? (grammar : Grammar) (text : String) : Option Listing :=
  match grammar with
  | .rust => none
  | .java => Table.find? text [(fieldText, fieldListing), (commentedText, commentedListing)]

/-- The insertion of a blank at the start of a text. -/
def indentEdit : Edit :=
  ⟨0, 0, 1, ⟨0, 0⟩, ⟨0, 0⟩, ⟨0, 1⟩⟩

/-- A parser that moves the nodes of the field when it is told that its text was indented. -/
def movingParser : Parser :=
  .misled classListing? ⟨fieldListing, [indentEdit]⟩ commentedText movedListing

/-- Indenting the field does not give the comment. -/
theorem not_leadsTo_commentedText : ¬ Edit.LeadsTo [indentEdit] fieldText commentedText := by
  rintro ⟨next, ⟨inserted, hreplace, -⟩, hnext⟩
  rw [Edit.replaceIn?, hnext] at hreplace
  split at hreplace
  · have hchars := congrArg String.toList (Option.some.inj hreplace)
    rw [String.toList_ofList] at hchars
    have hsuffix : fieldText.toList <:+ commentedText.toList := ⟨_, hchars⟩
    revert hsuffix
    decide
  · cases hreplace

theorem faithful_movingParser : movingParser.Faithful := by
  refine Parser.faithful_misled ?_ ?_
  · intro grammar text listing root h hroot
    cases grammar with
    | rust => cases h
    | java => exact stop_le_of_find? (by decide) h hroot
  · intro grammar old h
    cases grammar with
    | rust => cases h
    | java =>
      simp only [classListing?] at h
      rcases List.mem_pair.1 (Table.mem_of_find? h) with hpair | hpair
      · have htext : old = fieldText := congrArg Prod.fst hpair
        rw [htext]
        exact not_leadsTo_commentedText
      · have hlisting : fieldListing = commentedListing := congrArg Prod.snd hpair
        exact absurd hlisting (by decide)

def openField : Message :=
  ⟨"textDocument/didOpen", some (.record [("textDocument", .record
    [("uri", .text "file:///A.java"), ("languageId", .text "java"), ("version", .int 1),
      ("text", .text fieldText)])]), true⟩

/-- A message that puts a comment over the field, and then a blank before the class. -/
def commentField : Message :=
  let start := Data.record [("line", .int 0), ("character", .int 0)]
  ⟨"textDocument/didChange", some (.record
    [("textDocument", .record [("uri", .text "file:///A.java"), ("version", .int 2)]),
      ("contentChanges", .list [.record [("text", .text "class A \x7b /*t x*/\x7d\n")], .record
        [("range", .record [("start", start), ("end", start)]), ("text", .text " ")]])]), true⟩

def fieldSession : Session :=
  ((Session.new .forward none).receive noFiles movingParser hello).1.run noFiles movingParser
    [openField, commentField]

/-- After one message that replaces a text as a whole and then indents it, the nodes of the text
before are still there, and requests are answered from them. -/
theorem field_kept_after_commentField :
    movingParser.Faithful ∧
    ((Session.new .forward none).receive noFiles movingParser hello).1.phase = .serving ∧
    (∀ message ∈ [openField, commentField], message.IsAboutDocument) ∧
    ∃ entry kept made, fieldSession.workspace.store.get? "file:///A.java" = some entry ∧
      entry.document = ⟨commentedText, 2⟩ ∧ entry.language = some "java" ∧
      entry.parse = some kept ∧ kept.listing = movedListing ∧
      Parse.of Registry.bundled movingParser "java"
        (fieldSession.workspace.settings.kindsOf "java") none entry.document = .ok made ∧
      made.listing = commentedListing ∧ kept ≠ made ∧
      (fieldSession.workspace.store.source.expand fieldSession.workspace.settings.groups
        "file:///A.java" ⟨⟨0, 15⟩, ⟨0, 15⟩⟩).toOption = some (some ⟨⟨0, 15⟩, ⟨0, 16⟩⟩) := by
  have hstart :
      ((Session.new .forward none).receive noFiles movingParser hello).1.phase = .serving := by
    decide +kernel
  have hmessages : ∀ message ∈ [openField, commentField], message.IsAboutDocument := by
    intro message hmem
    rcases List.mem_pair.1 hmem with rfl | rfl
    · exact ⟨.opened, rfl⟩
    · exact ⟨.changed, rfl⟩
  have hgrown : (fieldSession.workspace.store.source.expand
      fieldSession.workspace.settings.groups "file:///A.java" ⟨⟨0, 15⟩, ⟨0, 15⟩⟩).toOption =
        some (some ⟨⟨0, 15⟩, ⟨0, 16⟩⟩) := by
    decide +kernel
  have hstored : (fieldSession.workspace.store.get? "file:///A.java").map (fun entry =>
      (entry.document, entry.language, entry.parse.map Parse.listing)) =
        some (⟨commentedText, 2⟩, some "java", some movedListing) := by
    decide +kernel
  have hscratch : (Parse.of Registry.bundled movingParser "java"
      (fieldSession.workspace.settings.kindsOf "java") none ⟨commentedText, 2⟩).map Parse.listing =
        .ok commentedListing := by
    decide +kernel
  have hdiffer : movedListing ≠ commentedListing := by decide
  obtain ⟨entry, hentry, hfields⟩ := Option.map_eq_some_iff.1 hstored
  simp only [Prod.mk.injEq, Option.map_eq_some_iff] at hfields
  obtain ⟨hdocument, hlanguage, kept, hparse, hkept⟩ := hfields
  obtain ⟨made, hmade, hlisting⟩ := exists_of_map_eq_ok hscratch
  refine ⟨faithful_movingParser, hstart, hmessages, entry, kept, made, hentry, hdocument,
    hlanguage, hparse, hkept, hdocument ▸ hmade, hlisting, fun hsame => ?_, hgrown⟩
  rw [← hkept, ← hlisting, hsame] at hdiffer
  exact hdiffer rfl

end Session

end SelectionGrowth
