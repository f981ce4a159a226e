import SelectionGrowth.Proofs.Selection.Histories
import SelectionGrowth.Proofs.Server.Documents

/-!
# Growing and shrinking retrace each other

A session remembers the steps by which a selection grew and retraces them when it
shrinks. The steps are kept apart from the documents they were made in, so each
handler has to forget them when it changes a document. This file says once what a
call can do to documents and steps together, and draws from it that the steps of
every reachable session are still the answers that their documents give.

## Main definitions

- `Store.AgreesOff` — stores that differ in one document at most
- `Workspace.ForgetsAt` — one document has changed, and its steps are forgotten
- `Workspace.Retraceable` — all remembered steps are linked and still hold

## Main statements

- `Workspace.handle_cases` — what a call can do to documents and steps
- `Workspace.Retraceable.run` — after every run of calls all steps can be retraced
- `Workspace.Retraceable.expand_shrink`, `Workspace.shrink_expand` — growing and shrinking undo
  each other
- `Session.steps_after_run` — the steps of a session after any messages about documents
-/

namespace SelectionGrowth

-- ════════════════════════════════════════════════════════════════════════
-- Stores
-- ════════════════════════════════════════════════════════════════════════

namespace Store

variable {key : String} {s t u : Store}

/-- Stores that differ in one document at most. -/
structure AgreesOff (key : String) (s t : Store) : Prop where
  allowErrors : t.allowErrors = s.allowErrors
  elsewhere : ∀ other, other ≠ key → t.get? other = s.get? other

namespace AgreesOff

theorem refl (key : String) (s : Store) : s.AgreesOff key s :=
  ⟨rfl, fun _ _ => rfl⟩

theorem trans (hst : s.AgreesOff key t) (htu : t.AgreesOff key u) : s.AgreesOff key u :=
  ⟨htu.allowErrors.trans hst.allowErrors,
    fun other hne => (htu.elsewhere other hne).trans (hst.elsewhere other hne)⟩

theorem put (key : String) (s : Store) (entry : Entry) : s.AgreesOff key (s.put key entry) :=
  ⟨rfl, fun other hne => (s.get?_put key entry other).trans (if_neg hne.symm)⟩

theorem remove (key : String) (s : Store) : s.AgreesOff key (s.remove key).2 :=
  ⟨rfl, fun other hne => (s.get?_remove key other).trans (if_neg hne.symm)⟩

theorem updateText (key : String) (s : Store) (document : Document) :
    s.AgreesOff key (s.updateText key document).2 := by
  unfold Store.updateText
  split
  · exact refl key s
  · exact put key s _

theorem setParsed (key : String) (s : Store) (parse : Parse) :
    s.AgreesOff key (s.setParsed key parse).2 := by
  unfold Store.setParsed
  split
  · exact refl key s
  · split
    · exact put key s _
    · exact refl key s

theorem clearParse (key : String) (s : Store) (revision : Int) :
    s.AgreesOff key (s.clearParse key revision) := by
  unfold Store.clearParse
  split
  · exact refl key s
  · split
    · exact put key s _
    · exact refl key s

/-- Stores that agree on a document give the same answers about it. -/
theorem expand_eq (h : s.AgreesOff key t) {other : String} (hne : other ≠ key)
    (groups : SiblingGroups) (range : Range) :
    t.source.expand groups other range = s.source.expand groups other range := by
  have hget := h.elsewhere other hne
  have hsnapshot : t.source.snapshot other = s.source.snapshot other := by
    simp only [Source.snapshot, source, tree, hget, h.allowErrors]
  unfold Source.expand
  rw [hsnapshot]

end AgreesOff

/-- An answer is given about open documents only. -/
theorem exists_of_expand {groups : SiblingGroups} {range : Range} {answer : Option Range}
    (h : s.source.expand groups key range = .ok answer) : ∃ entry, s.get? key = some entry := by
  cases hget : s.get? key with
  | some entry => exact ⟨entry, rfl⟩
  | none =>
    simp only [Source.expand, Source.snapshot, source, hget] at h
    exact nomatch h

end Store

-- ════════════════════════════════════════════════════════════════════════
-- Calls
-- ════════════════════════════════════════════════════════════════════════

namespace Workspace

variable {w w' : Workspace} {parser : Parser} {key : String} {address address' : Url}
  {range source target : Range}

/-- One document has changed in some way, and its steps are forgotten. -/
structure ForgetsAt (key : String) (w w' : Workspace) : Prop where
  settings : w'.settings = w.settings
  store : w.store.AgreesOff key w'.store
  history : w'.history = w.history.clear key

/-- Parsing a document anew touches that document only. -/
theorem ForgetsAt.reparse (h : w.ForgetsAt key w') (parser : Parser) (base : Option EditedParse)
    (document : Document) (language : Option String) :
    w.ForgetsAt key (w'.reparse parser key base document language).1 := by
  obtain ⟨hsettings, hstore, hhistory⟩ := h
  unfold Workspace.reparse
  split
  · exact ⟨hsettings, hstore, hhistory⟩
  · split
    · exact ⟨hsettings, hstore.trans (.setParsed key _ _), hhistory⟩
    · exact ⟨hsettings, hstore.trans (.clearParse key _ _), hhistory⟩

theorem forgetsAt_opened (w : Workspace) (parser : Parser) (address : Url) (clientId : String)
    (document : Document) :
    w.ForgetsAt address.key (w.opened parser address clientId document).1 := by
  have hinserted : w.ForgetsAt address.key { w with
      store := w.store.insert address.key document
        (w.fileTypes.resolve address.filePath (some clientId))
      history := w.history.clear address.key } :=
    ⟨rfl, .put address.key w.store _, rfl⟩
  exact hinserted.reparse parser none document _

theorem forgetsAt_changed {entry : Entry} (h : w.store.get? address.key = some entry)
    (revision : Int) (changes : List Change) :
    w.ForgetsAt address.key (w.changed parser address revision changes).1 := by
  have hupdated : w.ForgetsAt address.key { w with
      store := (w.store.updateText address.key
        ⟨(Change.applyAll entry.document.text changes).1, revision⟩).2
      history := w.history.clear address.key } :=
    ⟨rfl, .updateText address.key w.store _, rfl⟩
  rw [changed_of_some parser h]
  exact hupdated.reparse parser _ _ _

theorem forgetsAt_closed (w : Workspace) (address : Url) :
    w.ForgetsAt address.key (w.closed address) :=
  ⟨rfl, .remove address.key w.store, rfl⟩

/-- A request to grow a range remembers the step that it answers, or changes nothing. -/
theorem expand_cases (w : Workspace) (address : Url) (range : Range) :
    (∃ next, w.store.source.expand w.settings.groups address.key range = .ok (some next) ∧
      w.expand address range =
        ({ w with history := w.history.record address.key range next }, .ok (some next))) ∨
    (∀ next, (w.expand address range).2 ≠ .ok (some next)) ∧ (w.expand address range).1 = w := by
  unfold expand
  split
  · next next hnext => exact Or.inl ⟨next, hnext, rfl⟩
  · next hnone => exact Or.inr ⟨fun next heq => hnone next heq, rfl⟩

/-- A request to shrink a range takes back the step that it answers, or changes nothing. -/
theorem shrink_cases (w : Workspace) (address : Url) (range : Range) :
    (∃ source earlier, w.history.stepsOf address.key = ⟨source, range⟩ :: earlier ∧
      w.shrink address range =
        ({ w with history := ⟨w.history.steps.insert address.key earlier⟩ }, some source)) ∨
    w.shrink address range = (w, none) := by
  unfold shrink
  rcases w.history.shrink_cases address.key range with
    ⟨source, earlier, hsteps, hshrink⟩ | ⟨-, hsame⟩
  · rw [hshrink]
    exact Or.inl ⟨source, earlier, hsteps, rfl⟩
  · rw [hsame]
    exact Or.inr rfl

/-- What a call can do: nothing, change one document and forget its steps, remember a step that its
document answers, or take back the latest step. -/
theorem handle_cases (w : Workspace) (parser : Parser) (call : Call) :
    (w.handle parser call).1 = w ∨
    w.ForgetsAt call.address.key (w.handle parser call).1 ∨
    (∃ source target,
      w.store.source.expand w.settings.groups call.address.key source = .ok (some target) ∧
      (w.handle parser call).1 =
        { w with history := w.history.record call.address.key source target }) ∨
    ∃ step earlier, w.history.stepsOf call.address.key = step :: earlier ∧
      (w.handle parser call).1 =
        { w with history := ⟨w.history.steps.insert call.address.key earlier⟩ } := by
  cases call with
  | opened address clientId document =>
    exact Or.inr (Or.inl (w.forgetsAt_opened parser address clientId document))
  | changed address revision changes =>
    show (w.changed parser address revision changes).1 = w ∨
      w.ForgetsAt address.key (w.changed parser address revision changes).1 ∨ _
    cases hget : w.store.get? address.key with
    | none =>
      rw [changed_of_none hget]
      exact Or.inl rfl
    | some entry => exact Or.inr (Or.inl (forgetsAt_changed hget revision changes))
  | closed address => exact Or.inr (Or.inl (w.forgetsAt_closed address))
  | expand address range =>
    rcases w.expand_cases address range with ⟨next, hnext, hexpand⟩ | ⟨-, hsame⟩
    · exact Or.inr (Or.inr (Or.inl ⟨range, next, hnext, congrArg Prod.fst hexpand⟩))
    · exact Or.inl hsame
  | shrink address range =>
    rcases w.shrink_cases address range with ⟨source, earlier, hsteps, hshrink⟩ | hsame
    · exact Or.inr (Or.inr (Or.inr ⟨_, earlier, hsteps, congrArg Prod.fst hshrink⟩))
    · exact Or.inl (congrArg Prod.fst hsame)
  | ranges address positions => exact Or.inl rfl

/-- All remembered steps are linked, and each is what its document still answers. -/
structure Retraceable (w : Workspace) : Prop where
  linked : ∀ key, GrowthStep.Linked (w.history.stepsOf key)
  grown : ∀ key, ∀ step ∈ w.history.stepsOf key,
    w.store.source.expand w.settings.groups key step.source = .ok (some step.target)

namespace Retraceable

theorem of_empty (h : ∀ key, w.history.stepsOf key = []) : w.Retraceable where
  linked key := by
    rw [h key]
    exact List.isChain_nil
  grown key step hstep := by
    rw [h key] at hstep
    exact absurd hstep List.not_mem_nil

/-- Whatever changes in a document, forgetting its steps is enough. -/
theorem of_forgetsAt (h : w.Retraceable) (hforgets : w.ForgetsAt key w') : w'.Retraceable := by
  have hsteps : ∀ other, w'.history.stepsOf other =
      if key = other then [] else w.history.stepsOf other := by
    intro other
    rw [hforgets.history, History.stepsOf_clear]
  refine ⟨fun other => ?_, fun other step hstep => ?_⟩
  · rw [hsteps]
    split
    · exact List.isChain_nil
    · exact h.linked other
  · rw [hsteps] at hstep
    split at hstep
    · exact absurd hstep List.not_mem_nil
    · next hne =>
      rw [hforgets.settings, hforgets.store.expand_eq fun heq => hne heq.symm]
      exact h.grown other step hstep

/-- Steps of one document may be replaced by linked ones that its document answers. -/
theorem of_insert (h : w.Retraceable) {steps : List GrowthStep}
    (hlinked : GrowthStep.Linked steps)
    (hgrown : ∀ step ∈ steps,
      w.store.source.expand w.settings.groups key step.source = .ok (some step.target)) :
    Retraceable { w with history := ⟨w.history.steps.insert key steps⟩ } := by
  refine ⟨fun other => ?_, fun other step hstep => ?_⟩
  · rw [History.stepsOf_insert]
    split
    · exact hlinked
    · exact h.linked other
  · rw [History.stepsOf_insert] at hstep
    split at hstep
    · next heq => exact heq ▸ hgrown step hstep
    · exact h.grown other step hstep

/-- Every call leaves steps that can be retraced. -/
theorem handle (h : w.Retraceable) (parser : Parser) (call : Call) :
    (w.handle parser call).1.Retraceable := by
  rcases w.handle_cases parser call with hsame | hforgets | ⟨source, target, hanswer, hrecords⟩ |
    ⟨step, earlier, hsteps, hpops⟩
  · rw [hsame]
    exact h
  · exact h.of_forgetsAt hforgets
  · rw [hrecords]
    refine h.of_insert ((h.linked _).cons_continued source target) fun step hstep => ?_
    rcases List.mem_cons.1 hstep with rfl | hearlier
    · exact hanswer
    · exact h.grown _ step (History.mem_of_mem_continued hearlier)
  · rw [hpops]
    have hlinked := h.linked call.address.key
    rw [hsteps] at hlinked
    refine h.of_insert (List.isChain_cons.1 hlinked).2 fun other hother => ?_
    refine h.grown _ other ?_
    rw [hsteps]
    exact List.mem_cons_of_mem step hother

/-- After every run of calls the steps can be retraced. -/
theorem run (h : w.Retraceable) (parser : Parser) (calls : List Call) :
    (w.run parser calls).Retraceable := by
  induction calls using List.reverseRecOn with
  | nil => exact h
  | append_singleton calls call ih =>
    rw [run_append_singleton]
    exact ih.handle parser call

/-- Growing the range that a shrinking has answered gives the range back, and the steps too. -/
theorem expand_shrink (h : w.Retraceable) (haddress : address'.key = address.key)
    (hshrink : (w.shrink address range).2 = some source) :
    (w.shrink address range).1.expand address' source = (w, .ok (some range)) := by
  rcases w.shrink_cases address range with ⟨found, earlier, hsteps, heq⟩ | heq
  · rw [heq] at hshrink ⊢
    cases hshrink
    have hgrown := h.grown address.key ⟨source, range⟩ (hsteps ▸ List.mem_cons_self)
    have hlinked := h.linked address.key
    rw [hsteps] at hlinked
    have hrestored : History.record ⟨w.history.steps.insert address.key earlier⟩ address.key source
        range = w.history := by
      unfold History.record
      rw [History.stepsOf_insert, if_pos rfl, hlinked.continued_eq, Table.insert_insert,
        Table.insert_eq_self (History.get?_of_stepsOf hsteps)]
    unfold Workspace.expand
    simp only [haddress, hgrown, hrestored]
  · rw [heq] at hshrink
    exact nomatch hshrink

end Retraceable

/-- Shrinking the range that a growing has answered gives the range back. -/
theorem shrink_expand (haddress : address'.key = address.key)
    (hexpand : (w.expand address source).2 = .ok (some range)) :
    ((w.expand address source).1.shrink address' range).2 = some source := by
  rcases w.expand_cases address source with ⟨next, -, heq⟩ | ⟨hnone, -⟩
  · rw [heq] at hexpand ⊢
    cases hexpand
    show ((w.history.record address.key source range).shrink address'.key range).1 = some source
    rw [haddress]
    exact (w.history.shrink_record address.key source range).1
  · exact absurd hexpand (hnone range)

end Workspace

-- ════════════════════════════════════════════════════════════════════════
-- Sessions
-- ════════════════════════════════════════════════════════════════════════

namespace Session

variable {s : Session} {surroundings : Surroundings} {parser : Parser} {message : Message}

/-- A message that makes a call is about a document. -/
theorem isAboutDocument_of_call? {call : Call} (h : message.call? = some call) :
    message.IsAboutDocument := by
  unfold Message.call? at h
  split at h
  · next method hmethod => exact ⟨method, hmethod⟩
  · exact nomatch h

theorem receive_of_call? (surroundings : Surroundings) (parser : Parser)
    (hphase : s.phase = .serving) {call : Call} (hcall : message.call? = some call) :
    s.receive surroundings parser message = s.serve parser call := by
  rcases receive_cases surroundings parser hphase (isAboutDocument_of_call? hcall) with
    ⟨other, hother, hserve⟩ | ⟨hnone, -⟩
  · cases hcall.symm.trans hother
    exact hserve
  · exact nomatch hcall.symm.trans hnone

theorem replyOf_eq_range_iff {result : Except Failure (Option Range)} {range : Range} :
    replyOf (.range result) = .range range ↔ result = .ok (some range) := by
  cases result with
  | error failure => simp [replyOf]
  | ok found => cases found <;> simp [replyOf]

theorem serve_expand (s : Session) (parser : Parser) (address : Url) (range : Range) :
    s.serve parser (.expand address range) =
      ({ s with workspace := (s.workspace.expand address range).1 },
        replyOf (.range (s.workspace.expand address range).2), []) :=
  rfl

theorem serve_shrink (s : Session) (parser : Parser) (address : Url) (range : Range) :
    s.serve parser (.shrink address range) =
      ({ s with workspace := (s.workspace.shrink address range).1 },
        replyOf (.range (.ok (s.workspace.shrink address range).2)), []) :=
  rfl

/-- A message to grow a range makes no other call. -/
theorem exists_of_call?_of_expand (hmethod : Method.ofName message.method = .call .expand)
    {call : Call} (hcall : message.call? = some call) :
    ∃ address range, call = .expand address range := by
  unfold Message.call? at hcall
  rw [hmethod] at hcall
  simp only at hcall
  split at hcall
  · exact nomatch hcall
  · obtain ⟨params, -, hdecoded⟩ := Option.bind_eq_some_iff.1 (Option.join_eq_some_iff.1 hcall)
    obtain ⟨selection, -, hselection⟩ := Option.map_eq_some_iff.1 hdecoded
    obtain ⟨⟨address, range⟩, -, heq⟩ := Option.map_eq_some_iff.1 hselection
    exact ⟨address, range, heq.symm⟩

/-- A request to grow a range that is not answered with a range changes nothing. -/
theorem receive_of_expand (hphase : s.phase = .serving)
    (hmethod : message.method = "selection/expand")
    (hreply : ∀ range, (s.receive surroundings parser message).2.1 ≠ .range range) :
    (s.receive surroundings parser message).1 = s := by
  have hname : Method.ofName message.method = .call .expand := by
    rw [hmethod]
    rfl
  rcases receive_cases surroundings parser hphase ⟨.expand, hname⟩ with
    ⟨call, hcall, hserve⟩ | ⟨-, hsame, -⟩
  · obtain ⟨address, range, rfl⟩ := exists_of_call?_of_expand hname hcall
    rw [hserve, serve_expand] at hreply ⊢
    rcases s.workspace.expand_cases address range with ⟨next, -, hexpand⟩ | ⟨-, hsame⟩
    · exact absurd (replyOf_eq_range_iff.2 (congrArg Prod.snd hexpand)) (hreply next)
    · rw [hsame]
  · exact hsame

/--
After `initialize` and any messages about documents: a document with remembered
steps is open, each step starts where the one before it ended, and each is what
the document answers now. Shrinking and growing undo each other: growing the range
that a shrinking has answered answers the first range and leaves the session as it
was, and shrinking the range that a growing has answered answers the first range.
A request to grow a range that is not answered with a range changes nothing.
-/
theorem steps_after_run {order : LanguageOrder} {config : Option String}
    {atStart surroundings : Surroundings} {parser : Parser} {hello : Message}
    {messages : List Message}
    (hstart : ((Session.new order config).receive atStart parser hello).1.phase = .serving)
    (hmessages : ∀ message ∈ messages, message.IsAboutDocument) {s : Session}
    (hs : s = ((Session.new order config).receive atStart parser hello).1.run surroundings parser
      messages) :
    (∀ key, s.workspace.history.stepsOf key ≠ [] →
      (∃ entry, s.workspace.store.get? key = some entry) ∧
      GrowthStep.Linked (s.workspace.history.stepsOf key) ∧
      ∀ step ∈ s.workspace.history.stepsOf key,
        s.workspace.store.source.expand s.workspace.settings.groups key step.source =
          .ok (some step.target)) ∧
    (∀ shrinking growing address address' current previous, address'.key = address.key →
      shrinking.call? = some (.shrink address current) →
      growing.call? = some (.expand address' previous) →
      (s.receive surroundings parser shrinking).2.1 = .range previous →
      (s.receive surroundings parser shrinking).1.receive surroundings parser growing =
        (s, .range current, [])) ∧
    (∀ growing shrinking address address' current next, address'.key = address.key →
      growing.call? = some (.expand address current) →
      shrinking.call? = some (.shrink address' next) →
      (s.receive surroundings parser growing).2.1 = .range next →
      ((s.receive surroundings parser growing).1.receive surroundings parser shrinking).2.1 =
        .range current) ∧
    ∀ message, message.method = "selection/expand" →
      (∀ range, (s.receive surroundings parser message).2.1 ≠ .range range) →
      (s.receive surroundings parser message).1 = s := by
  obtain ⟨settings, hloaded⟩ := workspace_of_start hstart
  obtain ⟨hphase, hworkspace⟩ := workspace_run surroundings parser hstart hmessages
  rw [hloaded, ← hs] at hworkspace
  rw [← hs] at hphase
  have hinitial :
      ((Workspace.initial order).configure atStart.languageOrder settings).Retraceable :=
    Workspace.Retraceable.of_empty fun key => rfl
  have hretraceable : s.workspace.Retraceable := by
    rw [hworkspace]
    exact hinitial.run parser _
  refine ⟨fun key hsteps => ?_, ?_, ?_, fun message => receive_of_expand hphase⟩
  · obtain ⟨step, hstep⟩ := List.exists_mem_of_ne_nil _ hsteps
    exact ⟨Store.exists_of_expand (hretraceable.grown key step hstep), hretraceable.linked key,
      hretraceable.grown key⟩
  · intro shrinking growing address address' current previous haddress hshrink hgrow hreply
    rw [receive_of_call? surroundings parser hphase hshrink, serve_shrink] at hreply ⊢
    have hanswer := Except.ok.inj (replyOf_eq_range_iff.1 hreply)
    have hundone := hretraceable.expand_shrink haddress hanswer
    have hserve := receive_of_call? surroundings parser (s := { s with
      workspace := (s.workspace.shrink address current).1 }) hphase hgrow
    rw [hserve, serve_expand, hundone]
    rfl
  · intro growing shrinking address address' current next haddress hgrow hshrink hreply
    rw [receive_of_call? surroundings parser hphase hgrow, serve_expand] at hreply ⊢
    have hundone := Workspace.shrink_expand haddress (replyOf_eq_range_iff.1 hreply)
    have hserve := receive_of_call? surroundings parser (s := { s with
      workspace := (s.workspace.expand address current).1 }) hphase hshrink
    rw [hserve, serve_shrink, hundone]
    rfl

def caretRange : Range :=
  ⟨⟨0, 1⟩, ⟨0, 1⟩⟩

def commentRange : Range :=
  ⟨⟨0, 0⟩, ⟨0, 4⟩⟩

def wholeRange : Range :=
  ⟨⟨0, 0⟩, ⟨1, 0⟩⟩

/-- A message that asks to grow or to shrink a range of the comment. -/
def selectComment (method : String) (range : Range) : Message :=
  let place (p : Position) := Data.record [("line", .int p.line), ("character", .int p.column)]
  ⟨method, some (.record [("textDocument", .record [("uri", .text "file:///A.java")]),
    ("range", .record [("start", place range.start), ("end", place range.stop)])]), false⟩

/-- The messages that open a comment and grow a caret in it twice. -/
def growComment : List Message :=
  [openComment, selectComment "selection/expand" caretRange,
    selectComment "selection/expand" commentRange]

def shrinkWhole : Message :=
  selectComment "selection/shrink" wholeRange

def growAgain : Message :=
  selectComment "selection/expand" commentRange

def grownSession : Session :=
  ((Session.new .forward none).receive noFiles commentParser hello).1.run noFiles commentParser
    growComment

/-- Both steps are remembered. Shrinking the whole text answers the comment, and growing the comment
again leaves the session as it was. -/
theorem steps_after_growComment :
    ((Session.new .forward none).receive noFiles commentParser hello).1.phase = .serving ∧
    (∀ message ∈ growComment, message.IsAboutDocument) ∧
    grownSession.workspace.history.stepsOf "file:///A.java" =
      [⟨commentRange, wholeRange⟩, ⟨caretRange, commentRange⟩] ∧
    (∃ entry, grownSession.workspace.store.get? "file:///A.java" = some entry) ∧
    (grownSession.receive noFiles commentParser shrinkWhole).2.1 = .range commentRange ∧
    (grownSession.receive noFiles commentParser shrinkWhole).1.receive noFiles commentParser
      growAgain = (grownSession, .range wholeRange, []) := by
  have hstart :
      ((Session.new .forward none).receive noFiles commentParser hello).1.phase = .serving := by
    decide +kernel
  have hmessages : ∀ message ∈ growComment, message.IsAboutDocument := by
    intro message hmem
    rcases List.mem_cons.1 hmem with rfl | hmem
    · exact ⟨.opened, rfl⟩
    · rcases List.mem_pair.1 hmem with rfl | rfl <;> exact ⟨.expand, rfl⟩
  have hs : grownSession = ((Session.new .forward none).receive noFiles commentParser hello).1.run
      noFiles commentParser growComment := rfl
  obtain ⟨hsteps, hundoes, -, -⟩ := steps_after_run hstart hmessages hs
  have hremembered : grownSession.workspace.history.stepsOf "file:///A.java" =
      [⟨commentRange, wholeRange⟩, ⟨caretRange, commentRange⟩] := by
    decide +kernel
  let address : Url := ⟨"file".toList, some [], "/A.java".toList, none, none⟩
  have hshrink : shrinkWhole.call? = some (.shrink address wholeRange) := by
    decide +kernel
  have hgrow : growAgain.call? = some (.expand address commentRange) := by
    decide +kernel
  have hphase : grownSession.phase = .serving := by decide +kernel
  have hshrunk : (grownSession.workspace.shrink address wholeRange).2 =
      some commentRange := by
    decide +kernel
  have hreply : (grownSession.receive noFiles commentParser shrinkWhole).2.1 =
      .range commentRange := by
    rw [receive_of_call? noFiles commentParser hphase hshrink, serve_shrink]
    exact replyOf_eq_range_iff.2 (congrArg Except.ok hshrunk)
  refine ⟨hstart, hmessages, hremembered, (hsteps _ ?_).1, hreply,
    hundoes _ _ address address _ _ rfl hshrink hgrow hreply⟩
  rw [hremembered]
  exact List.cons_ne_nil _ _

end Session

end SelectionGrowth
