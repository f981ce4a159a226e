import SelectionGrowth.Proofs.Server.Retracing
import SelectionGrowth.Proofs.Store.Runs

/-!
# Independence of documents

All documents of a session live in the same tables, as do their remembered
steps. This file shows that a message about one document reads and writes the
entries of that document only, so that the answers about a document depend on
nothing but the messages about it.

Two runs are compared by what they hold of one document. A message about that
document takes sessions that agree on it to sessions that agree on it again, with
the same answer; a message about another document leaves a session that agrees
with the one before it.

## Main definitions

- `Store.AgreesAt`, `Workspace.AgreesAt`, `Session.AgreesAt` — the same is held of one document
- `Session.exchanges` — the messages of a run with their answers
- `Message.PicksOut` — a choice of messages that takes the calls about one document
- `Message.Apart` — messages whose calls are about different documents

## Main statements

- `Workspace.AgreesAt.handle`, `Workspace.agreesAt_handle` — what a call reads and writes
- `Session.filter_exchanges` — the answers about a document, in a whole run
- `Session.exchanges_independent` — documents do not influence each other
-/

namespace SelectionGrowth

-- ════════════════════════════════════════════════════════════════════════
-- Stores
-- ════════════════════════════════════════════════════════════════════════

namespace Store

variable {key : String} {s t : Store}

/-- Stores that hold the same of one document. -/
structure AgreesAt (key : String) (s t : Store) : Prop where
  allowErrors : t.allowErrors = s.allowErrors
  entry : t.get? key = s.get? key

theorem allowErrors_modify (s : Store) (key : String) (f : Entry → Entry) :
    (s.modify key f).allowErrors = s.allowErrors := by
  unfold modify
  split <;> rfl

namespace AgreesAt

/-- An operation does the same to a document in stores that hold the same of it. -/
theorem apply (h : s.AgreesAt key t) (step : StoreStep) :
    (s.apply step).AgreesAt key (t.apply step) := by
  refine ⟨?_, by rw [get?_apply, get?_apply, h.entry]⟩
  cases step with
  | insert other document language => exact h.allowErrors
  | updateText other document =>
    simp only [Store.apply, updateText_snd, allowErrors_modify, h.allowErrors]
  | setParsed other parse =>
    simp only [Store.apply, setParsed_snd, allowErrors_modify, h.allowErrors]
  | clearParse other revision =>
    simp only [Store.apply, clearParse_eq, allowErrors_modify, h.allowErrors]
  | remove other => exact h.allowErrors
  | allowErrors allow => rfl

theorem snapshot_eq (h : s.AgreesAt key t) : t.source.snapshot key = s.source.snapshot key := by
  simp only [Source.snapshot, source, tree, h.entry, h.allowErrors]

theorem editedParse?_eq (h : s.AgreesAt key t) (edits : List Edit) :
    t.editedParse? key edits = s.editedParse? key edits := by
  simp only [editedParse?, h.entry]

end AgreesAt

end Store

-- ════════════════════════════════════════════════════════════════════════
-- Calls
-- ════════════════════════════════════════════════════════════════════════

namespace Workspace

variable {key : String} {w w' w'' : Workspace} {address : Url}

/-- Workspaces that hold the same of one document, and have the same settings. -/
structure AgreesAt (key : String) (w w' : Workspace) : Prop where
  settings : w'.settings = w.settings
  fileTypes : w'.fileTypes = w.fileTypes
  store : w.store.AgreesAt key w'.store
  steps : w'.history.stepsOf key = w.history.stepsOf key

namespace AgreesAt

theorem refl (key : String) (w : Workspace) : w.AgreesAt key w :=
  ⟨rfl, rfl, ⟨rfl, rfl⟩, rfl⟩

theorem symm (h : w.AgreesAt key w') : w'.AgreesAt key w :=
  ⟨h.settings.symm, h.fileTypes.symm, ⟨h.store.allowErrors.symm, h.store.entry.symm⟩, h.steps.symm⟩

theorem trans (h : w.AgreesAt key w') (h' : w'.AgreesAt key w'') : w.AgreesAt key w'' :=
  ⟨h'.settings.trans h.settings, h'.fileTypes.trans h.fileTypes,
    ⟨h'.store.allowErrors.trans h.store.allowErrors, h'.store.entry.trans h.store.entry⟩,
    h'.steps.trans h.steps⟩

/-- A document is changed in the same way, and its steps are forgotten. -/
theorem forget (h : w.AgreesAt key w') (step : StoreStep) :
    AgreesAt key { w with store := w.store.apply step, history := w.history.clear key }
      { w' with store := w'.store.apply step, history := w'.history.clear key } :=
  ⟨h.settings, h.fileTypes, h.store.apply step, by simp [History.stepsOf_clear]⟩

theorem withSteps (h : w.AgreesAt key w') (steps : List GrowthStep) :
    AgreesAt key { w with history := ⟨w.history.steps.insert key steps⟩ }
      { w' with history := ⟨w'.history.steps.insert key steps⟩ } :=
  ⟨h.settings, h.fileTypes, h.store, by simp [History.stepsOf_insert]⟩

theorem reparse (h : w.AgreesAt key w') (parser : Parser) (base : Option EditedParse)
    (document : Document) (language : Option String) :
    (w'.reparse parser key base document language).2 =
        (w.reparse parser key base document language).2 ∧
      (w.reparse parser key base document language).1.AgreesAt key
        (w'.reparse parser key base document language).1 := by
  simp only [Workspace.reparse, h.settings]
  split
  · exact ⟨rfl, h⟩
  · split
    · next parse _ =>
      exact ⟨rfl, rfl, h.fileTypes, h.store.apply (.setParsed key parse), h.steps⟩
    · exact ⟨rfl, rfl, h.fileTypes, h.store.apply (.clearParse key document.revision), h.steps⟩

theorem opened (h : w.AgreesAt address.key w') (parser : Parser) (clientId : String)
    (document : Document) :
    (w'.opened parser address clientId document).2 =
        (w.opened parser address clientId document).2 ∧
      (w.opened parser address clientId document).1.AgreesAt address.key
        (w'.opened parser address clientId document).1 := by
  have hlanguage : w'.fileTypes.resolve address.filePath (some clientId) =
      w.fileTypes.resolve address.filePath (some clientId) := by
    rw [h.fileTypes]
  rw [Workspace.opened, hlanguage]
  exact (h.forget (.insert address.key document _)).reparse parser none document _

theorem changed (h : w.AgreesAt address.key w') (parser : Parser) (revision : Int)
    (changes : List Change) :
    (w'.changed parser address revision changes).2 =
        (w.changed parser address revision changes).2 ∧
      (w.changed parser address revision changes).1.AgreesAt address.key
        (w'.changed parser address revision changes).1 := by
  cases hget : w.store.get? address.key with
  | none =>
    rw [changed_of_none hget, changed_of_none (h.store.entry.trans hget)]
    exact ⟨rfl, h⟩
  | some entry =>
    simp only [Workspace.changed, hget, h.store.entry.trans hget, h.store.editedParse?_eq]
    exact (h.forget (.updateText address.key _)).reparse parser _ _ entry.language

theorem expand (h : w.AgreesAt address.key w') (range : Range) :
    (w'.expand address range).2 = (w.expand address range).2 ∧
      (w.expand address range).1.AgreesAt address.key (w'.expand address range).1 := by
  have hanswer : w'.store.source.expand w'.settings.groups address.key range =
      w.store.source.expand w.settings.groups address.key range := by
    simp only [Source.expand, h.store.snapshot_eq, h.settings]
  simp only [Workspace.expand, hanswer]
  split
  · refine ⟨rfl, ?_⟩
    simp only [History.record, h.steps]
    exact h.withSteps _
  · exact ⟨rfl, h⟩

theorem shrink (h : w.AgreesAt address.key w') (range : Range) :
    (w'.shrink address range).2 = (w.shrink address range).2 ∧
      (w.shrink address range).1.AgreesAt address.key (w'.shrink address range).1 := by
  simp only [Workspace.shrink, History.shrink, h.steps]
  cases w.history.stepsOf address.key with
  | nil => exact ⟨rfl, h⟩
  | cons latest earlier =>
    simp only
    split
    · exact ⟨rfl, h.withSteps earlier⟩
    · exact ⟨rfl, h⟩

/-- A call reads no more than its document, and does the same to it wherever the same is held
of it. -/
theorem handle {call : Call} (h : w.AgreesAt call.address.key w') (parser : Parser) :
    (w'.handle parser call).2 = (w.handle parser call).2 ∧
      (w.handle parser call).1.AgreesAt call.address.key (w'.handle parser call).1 := by
  cases call with
  | opened address clientId document =>
    obtain ⟨hevents, hafter⟩ := h.opened parser clientId document
    exact ⟨congrArg (Prod.mk CallAnswer.none) hevents, hafter⟩
  | changed address revision changes =>
    obtain ⟨hevents, hafter⟩ := h.changed parser revision changes
    exact ⟨congrArg (Prod.mk CallAnswer.none) hevents, hafter⟩
  | closed address => exact ⟨rfl, h.forget (.remove address.key)⟩
  | expand address range =>
    obtain ⟨hanswer, hafter⟩ := h.expand range
    exact ⟨congrArg (fun answer => (CallAnswer.range answer, [])) hanswer, hafter⟩
  | shrink address range =>
    obtain ⟨hanswer, hafter⟩ := h.shrink range
    exact ⟨congrArg (fun answer => (CallAnswer.range (.ok answer), [])) hanswer, hafter⟩
  | ranges address positions =>
    refine ⟨?_, h⟩
    simp only [Workspace.handle, Source.selectionRanges, Call.address] at h ⊢
    rw [h.store.snapshot_eq, h.settings]

end AgreesAt

/-- A call writes no more than its document. -/
theorem agreesAt_handle (w : Workspace) (parser : Parser) {call : Call}
    (hkey : call.address.key ≠ key) : w.AgreesAt key (w.handle parser call).1 := by
  have htypes := (w.settings_handle parser call).2
  obtain hsame | hforgets | ⟨source, target, -, hrecords⟩ | ⟨step, earlier, -, hpops⟩ :=
    w.handle_cases parser call
  · rw [hsame]
    exact .refl key w
  · refine ⟨hforgets.settings, htypes, ?_, ?_⟩
    · exact ⟨hforgets.store.allowErrors, hforgets.store.elsewhere key hkey.symm⟩
    · rw [hforgets.history, History.stepsOf_clear, if_neg hkey]
  · rw [hrecords]
    refine ⟨rfl, rfl, ⟨rfl, rfl⟩, ?_⟩
    simp only [History.record, History.stepsOf_insert, if_neg hkey]
  · rw [hpops]
    refine ⟨rfl, rfl, ⟨rfl, rfl⟩, ?_⟩
    simp only [History.stepsOf_insert, if_neg hkey]

end Workspace

-- ════════════════════════════════════════════════════════════════════════
-- Messages
-- ════════════════════════════════════════════════════════════════════════

namespace Message

/-- Whether a message makes a call about a document. -/
def isAt (key : String) (message : Message) : Bool :=
  message.call?.any fun call => call.address.key = key

/-- A choice of messages that takes exactly the calls about one document. Messages that make no call
may be taken or not. -/
def PicksOut (key : String) (about : Message → Bool) : Prop :=
  ∀ message call, message.call? = some call → (about message = true ↔ call.address.key = key)

theorem picksOut_isAt (key : String) : PicksOut key (isAt key) := by
  intro message call hcall
  simp [isAt, hcall]

/-- Messages that do not make calls about the same document. -/
def Apart (first second : Message) : Prop :=
  ∀ call call', first.call? = some call → second.call? = some call' →
    call.address.key ≠ call'.address.key

theorem Apart.symm {first second : Message} (h : first.Apart second) : second.Apart first :=
  fun call call' hcall hcall' heq => h call' call hcall' hcall heq.symm

end Message

namespace Session

variable {key : String} {s t u : Session} {surroundings : Surroundings} {parser : Parser}
  {message : Message}

/-- Serving sessions that hold the same of one document. -/
structure AgreesAt (key : String) (s t : Session) : Prop where
  serving : s.phase = .serving
  serving' : t.phase = .serving
  workspace : s.workspace.AgreesAt key t.workspace

namespace AgreesAt

theorem symm (h : s.AgreesAt key t) : t.AgreesAt key s :=
  ⟨h.serving', h.serving, h.workspace.symm⟩

theorem trans (h : s.AgreesAt key t) (h' : t.AgreesAt key u) : s.AgreesAt key u :=
  ⟨h.serving, h'.serving', h.workspace.trans h'.workspace⟩

end AgreesAt

/-- A message that makes no call is answered the same in every session that serves. -/
theorem receive_snd_of_call?_eq_none (hs : s.phase = .serving) (ht : t.phase = .serving)
    (hmessage : message.IsAboutDocument) (hcall : message.call? = none) :
    (t.receive surroundings parser message).2 = (s.receive surroundings parser message).2 := by
  obtain ⟨method, hmethod⟩ := hmessage
  simp only [Message.call?, hmethod] at hcall
  simp only [receive, receiveOpen, hmethod, hs, ht, reduceCtorEq, if_false]
  by_cases hsort : method.isRequest = message.isNotification
  · unfold receiveServing
    rw [hs, ht, hsort]
    cases message.isNotification <;> rfl
  · rw [if_neg hsort] at hcall
    rw [receiveServing_of_right_sort hs hsort, receiveServing_of_right_sort ht hsort]
    cases hparams : message.params.bind method.decode? with
    | none => rfl
    | some decoded =>
      obtain rfl : decoded = none := by simpa [hparams] using hcall
      rfl

/-- A message about another document leaves what is held of this one. -/
theorem agreesAt_receive (hphase : s.phase = .serving) (surroundings : Surroundings)
    (parser : Parser) (hmessage : message.IsAboutDocument)
    (hkey : ∀ call, message.call? = some call → call.address.key ≠ key) :
    s.AgreesAt key (s.receive surroundings parser message).1 := by
  refine ⟨hphase, phase_receive hphase hmessage, ?_⟩
  obtain ⟨call, hcall, hserve⟩ | ⟨-, hsame, -⟩ :=
    receive_cases surroundings parser hphase hmessage
  · rw [hserve]
    exact s.workspace.agreesAt_handle parser (hkey call hcall)
  · rw [hsame]
    exact .refl key s.workspace

namespace AgreesAt

theorem receive_of_ne (h : s.AgreesAt key t) (surroundings : Surroundings) (parser : Parser)
    (hmessage : message.IsAboutDocument)
    (hkey : ∀ call, message.call? = some call → call.address.key ≠ key) :
    (s.receive surroundings parser message).1.AgreesAt key
      (t.receive surroundings parser message).1 := by
  have hs := agreesAt_receive h.serving surroundings parser hmessage hkey
  have ht := agreesAt_receive h.serving' surroundings parser hmessage hkey
  exact (hs.symm.trans h).trans ht

/-- A message about a document is answered the same wherever the same is held of it. -/
theorem receive (h : s.AgreesAt key t) (surroundings : Surroundings) (parser : Parser)
    (hmessage : message.IsAboutDocument)
    (hkey : ∀ call, message.call? = some call → call.address.key = key) :
    (t.receive surroundings parser message).2 = (s.receive surroundings parser message).2 ∧
      (s.receive surroundings parser message).1.AgreesAt key
        (t.receive surroundings parser message).1 := by
  cases hcall : message.call? with
  | none =>
    refine ⟨receive_snd_of_call?_eq_none h.serving h.serving' hmessage hcall, ?_⟩
    exact h.receive_of_ne surroundings parser hmessage (by simp [hcall])
  | some call =>
    obtain rfl := hkey call hcall
    obtain ⟨hanswer, hafter⟩ := h.workspace.handle parser
    rw [receive_of_call? surroundings parser h.serving hcall,
      receive_of_call? surroundings parser h.serving' hcall]
    refine ⟨?_, h.serving, h.serving', hafter⟩
    exact congrArg (fun answer => (replyOf answer.1, answer.2)) hanswer

/-- The same message takes sessions that agree on a document to sessions that do. -/
theorem receive_both (h : s.AgreesAt key t) (surroundings : Surroundings) (parser : Parser)
    (hmessage : message.IsAboutDocument) :
    (s.receive surroundings parser message).1.AgreesAt key
      (t.receive surroundings parser message).1 := by
  by_cases hkey : ∀ call, message.call? = some call → call.address.key = key
  · exact (h.receive surroundings parser hmessage hkey).2
  · refine h.receive_of_ne surroundings parser hmessage fun call hcall heq => ?_
    refine hkey fun call' hcall' => ?_
    rw [hcall, Option.some.injEq] at hcall'
    exact hcall' ▸ heq

end AgreesAt

-- ════════════════════════════════════════════════════════════════════════
-- Runs
-- ════════════════════════════════════════════════════════════════════════

/-- A message with its answer and the events that are told. -/
abbrev Exchange := Message × Reply × List Event

/-- The exchanges of a run. -/
def exchanges (s : Session) (surroundings : Surroundings) (parser : Parser) :
    List Message → List Exchange
  | [] => []
  | message :: rest =>
    (message, (s.receive surroundings parser message).2) ::
      (s.receive surroundings parser message).1.exchanges surroundings parser rest

theorem exchanges_append (s : Session) (surroundings : Surroundings) (parser : Parser)
    (first second : List Message) :
    s.exchanges surroundings parser (first ++ second) =
      s.exchanges surroundings parser first ++
        (s.run surroundings parser first).exchanges surroundings parser second := by
  induction first generalizing s with
  | nil => rfl
  | cons message rest ih =>
    simp only [List.cons_append, exchanges, ih]
    rfl

/-- The answers about a document are those of the run with the messages about it only. -/
theorem filter_exchanges (h : s.AgreesAt key t) (surroundings : Surroundings) (parser : Parser)
    {about : Message → Bool} (habout : Message.PicksOut key about) {messages : List Message}
    (hmessages : ∀ message ∈ messages, message.IsAboutDocument) :
    (s.exchanges surroundings parser messages).filter (fun exchange => about exchange.1) =
      t.exchanges surroundings parser (messages.filter about) := by
  induction messages generalizing s t with
  | nil => rfl
  | cons message rest ih =>
    have hmessage := hmessages message List.mem_cons_self
    have hrest := fun other hmem => hmessages other (List.mem_cons_of_mem message hmem)
    cases hpicked : about message with
    | true =>
      obtain ⟨hanswer, hafter⟩ := h.receive surroundings parser hmessage
        fun call hcall => (habout message call hcall).1 hpicked
      simp only [exchanges, List.filter_cons, hpicked, if_true, hanswer, ih hafter hrest]
    | false =>
      have hkey : ∀ call, message.call? = some call → call.address.key ≠ key := by
        intro call hcall heq
        simp [(habout message call hcall).2 heq] at hpicked
      have hother := agreesAt_receive h.serving surroundings parser hmessage hkey
      simp only [exchanges, List.filter_cons, hpicked, Bool.false_eq_true, if_false,
        ih (hother.symm.trans h) hrest]

theorem receive_snd_of_forall (h : ∀ key, s.AgreesAt key t) (surroundings : Surroundings)
    (parser : Parser) (hmessage : message.IsAboutDocument) :
    (t.receive surroundings parser message).2 = (s.receive surroundings parser message).2 := by
  cases hcall : message.call? with
  | none => exact ((h "").receive surroundings parser hmessage (by simp [hcall])).1
  | some call =>
    exact ((h call.address.key).receive surroundings parser hmessage (by simp [hcall])).1

/-- Sessions that hold the same of every document have the same exchanges. -/
theorem exchanges_eq_of_forall (h : ∀ key, s.AgreesAt key t) (surroundings : Surroundings)
    (parser : Parser) {messages : List Message}
    (hmessages : ∀ message ∈ messages, message.IsAboutDocument) :
    t.exchanges surroundings parser messages = s.exchanges surroundings parser messages := by
  induction messages generalizing s t with
  | nil => rfl
  | cons message rest ih =>
    have hmessage := hmessages message List.mem_cons_self
    have hafter := fun key => (h key).receive_both surroundings parser hmessage
    have hrest := fun other hmem => hmessages other (List.mem_cons_of_mem message hmem)
    simp only [exchanges, receive_snd_of_forall h surroundings parser hmessage, ih hafter hrest]

section Swap

variable {first second : Message}

/-- A message is answered the same after a message about another document. -/
theorem receive_snd_of_apart (hphase : s.phase = .serving) (surroundings : Surroundings)
    (parser : Parser) (hfirst : first.IsAboutDocument) (hsecond : second.IsAboutDocument)
    (h : first.Apart second) :
    ((s.receive surroundings parser first).1.receive surroundings parser second).2 =
      (s.receive surroundings parser second).2 := by
  cases hcall : second.call? with
  | none =>
    exact receive_snd_of_call?_eq_none hphase (phase_receive hphase hfirst) hsecond hcall
  | some call =>
    have hbefore : s.AgreesAt call.address.key (s.receive surroundings parser first).1 :=
      agreesAt_receive hphase surroundings parser hfirst
        fun call' hcall' => h call' call hcall' hcall
    exact (hbefore.receive surroundings parser hsecond (by simp [hcall])).1

/-- The order of two messages about different documents makes no difference to any document. -/
theorem agreesAt_swap (hphase : s.phase = .serving) (surroundings : Surroundings)
    (parser : Parser) (hfirst : first.IsAboutDocument) (hsecond : second.IsAboutDocument)
    (h : first.Apart second) (key : String) :
    ((s.receive surroundings parser first).1.receive surroundings parser second).1.AgreesAt key
      ((s.receive surroundings parser second).1.receive surroundings parser first).1 := by
  have hphase₁ : (s.receive surroundings parser first).1.phase = .serving :=
    phase_receive hphase hfirst
  have hphase₂ : (s.receive surroundings parser second).1.phase = .serving :=
    phase_receive hphase hsecond
  by_cases hkey : ∀ call, first.call? = some call → call.address.key ≠ key
  · -- the first message leaves the document alone, before and after the second
    have hbefore := agreesAt_receive hphase surroundings parser hfirst hkey
    have hafter := agreesAt_receive hphase₂ surroundings parser hfirst hkey
    exact (hbefore.receive_both surroundings parser hsecond).symm.trans hafter
  · -- the first message is about the document, so the second leaves it alone
    have hother : ∀ call, second.call? = some call → call.address.key ≠ key := by
      intro call' hcall' heq
      exact hkey fun call hcall heq' => h call call' hcall hcall' (heq'.trans heq.symm)
    have hbefore := agreesAt_receive hphase surroundings parser hsecond hother
    have hafter := agreesAt_receive hphase₁ surroundings parser hsecond hother
    exact hafter.symm.trans (hbefore.receive_both surroundings parser hfirst)

/-- Two messages about different documents may be exchanged. -/
theorem exchanges_swap (hphase : s.phase = .serving) (surroundings : Surroundings)
    (parser : Parser) (hfirst : first.IsAboutDocument) (hsecond : second.IsAboutDocument)
    (h : first.Apart second) {after : List Message}
    (hafter : ∀ message ∈ after, message.IsAboutDocument) :
    ∃ one two rest, one.1 = first ∧ two.1 = second ∧
      s.exchanges surroundings parser (first :: second :: after) = one :: two :: rest ∧
      s.exchanges surroundings parser (second :: first :: after) = two :: one :: rest := by
  have hsecondLater := receive_snd_of_apart hphase surroundings parser hfirst hsecond h
  have hfirstLater := receive_snd_of_apart hphase surroundings parser hsecond hfirst h.symm
  have hrest := exchanges_eq_of_forall
    (agreesAt_swap hphase surroundings parser hfirst hsecond h) surroundings parser hafter
  refine ⟨(first, (s.receive surroundings parser first).2),
    (second, (s.receive surroundings parser second).2),
    ((s.receive surroundings parser first).1.receive surroundings parser second).1.exchanges
      surroundings parser after, rfl, rfl, ?_, ?_⟩
  · simp only [exchanges, hsecondLater]
  · simp only [exchanges, hfirstLater, hrest]

end Swap

/--
In a session that serves, documents do not influence each other. For any messages
about documents, the answers to those about one document are the answers of the
run with only those messages, in the same order, however messages that make no
call are counted. Two neighbouring messages about different documents may be
exchanged: all messages before, between and after them are answered the same.
-/
theorem exchanges_independent (hphase : s.phase = .serving) (surroundings : Surroundings)
    (parser : Parser) :
    (∀ key about messages, Message.PicksOut key about →
      (∀ message ∈ messages, message.IsAboutDocument) →
      (s.exchanges surroundings parser messages).filter (fun exchange => about exchange.1) =
        s.exchanges surroundings parser (messages.filter about)) ∧
    ∀ before first second after,
      (∀ message ∈ before ++ first :: second :: after, message.IsAboutDocument) →
      first.Apart second →
      ∃ one two rest, one.1 = first ∧ two.1 = second ∧
        s.exchanges surroundings parser (before ++ first :: second :: after) =
          s.exchanges surroundings parser before ++ one :: two :: rest ∧
        s.exchanges surroundings parser (before ++ second :: first :: after) =
          s.exchanges surroundings parser before ++ two :: one :: rest := by
  refine ⟨fun key about messages habout hmessages => ?_, ?_⟩
  · have hsame : s.AgreesAt key s := ⟨hphase, hphase, .refl key s.workspace⟩
    exact filter_exchanges hsame surroundings parser habout hmessages
  · intro before first second after hmessages hapart
    simp only [List.forall_mem_append, List.forall_mem_cons] at hmessages
    obtain ⟨hbefore, hfirst, hsecond, hafter⟩ := hmessages
    have hserving := (workspace_run surroundings parser hphase hbefore).1
    obtain ⟨one, two, rest, hone, htwo, hinOrder, hswapped⟩ :=
      exchanges_swap hserving surroundings parser hfirst hsecond hapart hafter
    refine ⟨one, two, rest, hone, htwo, ?_, ?_⟩
    · rw [exchanges_append, hinOrder]
    · rw [exchanges_append, hswapped]

/-- A session that has just started. -/
def started : Session :=
  ((Session.new .forward none).receive noFiles commentParser hello).1

/-- A message that opens the comment under an address. -/
def openAt (uri : String) : Message :=
  ⟨"textDocument/didOpen", some (.record [("textDocument", .record
    [("uri", .text uri), ("languageId", .text "java"), ("version", .int 1),
      ("text", .text "// c\n")])]), true⟩

/-- A message that asks to grow a caret in the comment. -/
def growAt (uri : String) : Message :=
  let caret := Data.record [("line", .int 0), ("character", .int 1)]
  ⟨"selection/expand", some (.record [("textDocument", .record [("uri", .text uri)]),
    ("range", .record [("start", caret), ("end", caret)])]), false⟩

def closeAt (uri : String) : Message :=
  ⟨"textDocument/didClose", some (.record [("textDocument", .record [("uri", .text uri)])]), true⟩

/-- Two comments are open, and one is closed after a request about the other. -/
def twoComments : List Message :=
  [openAt "file:///A.java", openAt "file:///B.java", growAt "file:///A.java",
    closeAt "file:///B.java"]

/-- The caret in the first comment grows as if the other comment had never been opened, and as if it
had been closed before. -/
theorem exchanges_of_twoComments :
    started.phase = .serving ∧ (∀ message ∈ twoComments, message.IsAboutDocument) ∧
    (growAt "file:///A.java").Apart (closeAt "file:///B.java") ∧
    (started.exchanges noFiles commentParser twoComments).filter
        (fun exchange => exchange.1.isAt "file:///A.java") =
      started.exchanges noFiles commentParser
        [openAt "file:///A.java", growAt "file:///A.java"] ∧
    ∃ one two rest, one.1 = growAt "file:///A.java" ∧ two.1 = closeAt "file:///B.java" ∧
      started.exchanges noFiles commentParser twoComments =
        started.exchanges noFiles commentParser
          [openAt "file:///A.java", openAt "file:///B.java"] ++ one :: two :: rest ∧
      started.exchanges noFiles commentParser
          ([openAt "file:///A.java", openAt "file:///B.java"] ++ closeAt "file:///B.java" ::
            [growAt "file:///A.java"]) =
        started.exchanges noFiles commentParser
          [openAt "file:///A.java", openAt "file:///B.java"] ++ two :: one :: rest := by
  have hphase : started.phase = .serving := by decide +kernel
  have hmessages : ∀ message ∈ twoComments, message.IsAboutDocument := by
    simp only [twoComments, List.forall_mem_cons]
    exact ⟨⟨.opened, rfl⟩, ⟨.opened, rfl⟩, ⟨.expand, rfl⟩, ⟨.closed, rfl⟩, by simp⟩
  have hpicked : twoComments.map (Message.isAt "file:///A.java") = [true, false, true, false] := by
    decide +kernel
  have hfilter : twoComments.filter (Message.isAt "file:///A.java") =
      [openAt "file:///A.java", growAt "file:///A.java"] := by
    simp only [twoComments, List.map_cons, List.map_nil, List.cons.injEq] at hpicked
    simp [twoComments, List.filter, hpicked]
  have hgrow : (growAt "file:///A.java").call?.map (fun call => call.address.key) =
      some "file:///A.java" := by
    decide +kernel
  have hclose : (closeAt "file:///B.java").call?.map (fun call => call.address.key) =
      some "file:///B.java" := by
    decide +kernel
  have hapart : (growAt "file:///A.java").Apart (closeAt "file:///B.java") := by
    intro call call' hcall hcall' heq
    simp only [hcall, hcall', Option.map_some, Option.some.injEq] at hgrow hclose
    simp [hgrow, hclose] at heq
  obtain ⟨hanswers, hswaps⟩ := exchanges_independent hphase noFiles commentParser
  refine ⟨hphase, hmessages, hapart, ?_, ?_⟩
  · rw [← hfilter]
    exact hanswers _ _ _ (Message.picksOut_isAt _) hmessages
  · exact hswaps [openAt "file:///A.java", openAt "file:///B.java"] _ _ [] hmessages hapart

end Session

end SelectionGrowth
