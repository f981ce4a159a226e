import SelectionGrowth.Server.Session

/-!
# Runs of a session

Between `initialize` and `shutdown` the messages about documents are served as
calls. A message whose parameters do not say what to do, or that is sent as the
wrong sort, is no call and changes nothing. The workspace of a session is
therefore what the calls of its messages leave.

## Main definitions

- `Message.IsAboutDocument` — a message with one of the methods that make calls
- `Message.call?` — the call that a message makes
- `Session.run` — a session after some messages

## Main statements

- `Session.receive_cases` — a message is served as its call, or changes nothing
- `Session.workspace_run` — the workspace after some messages
- `Session.workspace_of_start` — the workspace of a session that has just started
-/

namespace SelectionGrowth

/-- A message with one of the methods that make calls. -/
def Message.IsAboutDocument (message : Message) : Prop :=
  ∃ method, Method.ofName message.method = .call method

/-- The call that a message makes; none if its parameters do not describe one, or if it is a
notification sent as a request or a request sent as a notification. -/
def Message.call? (message : Message) : Option Call :=
  match Method.ofName message.method with
  | .call method =>
    if method.isRequest = message.isNotification then none
    else (message.params.bind method.decode?).join
  | _ => none

namespace Session

variable {s : Session} {surroundings : Surroundings} {parser : Parser} {message : Message}

/-- A session after some messages, each handled before the next. -/
def run (s : Session) (surroundings : Surroundings) (parser : Parser) (messages : List Message) :
    Session :=
  messages.foldl (fun s message => (s.receive surroundings parser message).1) s

/-- A message that a serving session does not serve leaves it as it is, and is not answered with
the failure of a call. -/
def Unserved (s : Session) (effect : Effect) : Prop :=
  effect.1 = s ∧ ∀ failure, effect.2.1 ≠ .failure failure

theorem unserved_refuse (s : Session) (message : Message) (refusal : Refusal) :
    s.Unserved (s.refuse message refusal) := by
  refine ⟨rfl, fun failure => ?_⟩
  unfold refuse
  split <;> exact fun h => nomatch h

theorem unserved_of_wrong_sort {isRequest : Bool} (hphase : s.phase = .serving)
    (hsort : isRequest = message.isNotification) (serve : Effect) :
    s.Unserved (s.receiveServing message isRequest serve) := by
  unfold receiveServing
  rw [hphase, hsort]
  cases message.isNotification with
  | true => exact ⟨rfl, fun failure h => nomatch h⟩
  | false => exact unserved_refuse s message .invalidRequest

theorem receiveServing_of_right_sort {isRequest : Bool} (hphase : s.phase = .serving)
    (hsort : isRequest ≠ message.isNotification) (serve : Effect) :
    s.receiveServing message isRequest serve = serve := by
  have hnote : message.isNotification = !isRequest := Bool.eq_not_of_ne hsort.symm
  unfold receiveServing
  rw [hphase, hnote]
  cases isRequest <;> rfl

/-- A serving session serves a message about a document as its call, if it makes one. -/
theorem receive_cases (surroundings : Surroundings) (parser : Parser)
    (hphase : s.phase = .serving) (hmessage : message.IsAboutDocument) :
    (∃ call, message.call? = some call ∧
        s.receive surroundings parser message = s.serve parser call) ∨
      message.call? = none ∧ s.Unserved (s.receive surroundings parser message) := by
  obtain ⟨method, hmethod⟩ := hmessage
  have hcall : message.call? = if method.isRequest = message.isNotification then none
      else (message.params.bind method.decode?).join := by
    unfold Message.call?
    rw [hmethod]
  have hopen : s.phase ≠ .exited := by
    rw [hphase]
    decide
  unfold receive receiveOpen
  rw [hcall, if_neg hopen, hmethod]
  simp only
  by_cases hsort : method.isRequest = message.isNotification
  · rw [if_pos hsort]
    exact Or.inr ⟨rfl, unserved_of_wrong_sort hphase hsort _⟩
  · rw [if_neg hsort, receiveServing_of_right_sort hphase hsort]
    split
    · next hparams =>
      rw [hparams]
      exact Or.inr ⟨rfl, unserved_refuse s message .invalidParams⟩
    · next hparams =>
      rw [hparams]
      refine Or.inr ⟨rfl, rfl, fun failure => ?_⟩
      split <;> exact fun h => nomatch h
    · next call hparams =>
      rw [hparams]
      exact Or.inl ⟨call, rfl, rfl⟩

theorem phase_receive (hphase : s.phase = .serving) (hmessage : message.IsAboutDocument) :
    (s.receive surroundings parser message).1.phase = .serving := by
  rcases receive_cases surroundings parser hphase hmessage with ⟨call, -, hserve⟩ | ⟨-, hsame, -⟩
  · rw [hserve]
    exact hphase
  · rw [hsame]
    exact hphase

/-- After messages about documents a session still serves, and its workspace is what their calls
leave. -/
theorem workspace_run (surroundings : Surroundings) (parser : Parser)
    (hphase : s.phase = .serving) {messages : List Message}
    (hmessages : ∀ message ∈ messages, message.IsAboutDocument) :
    (s.run surroundings parser messages).phase = .serving ∧
      (s.run surroundings parser messages).workspace =
        s.workspace.run parser (messages.filterMap Message.call?) := by
  induction messages generalizing s with
  | nil => exact ⟨hphase, rfl⟩
  | cons message messages ih =>
    have hfirst := hmessages message List.mem_cons_self
    have hrest := ih (s := (s.receive surroundings parser message).1)
      (phase_receive hphase hfirst) fun other hmem => hmessages other (List.mem_cons_of_mem _ hmem)
    refine ⟨hrest.1, hrest.2.trans ?_⟩
    rcases receive_cases surroundings parser hphase hfirst with
      ⟨call, hcall, hserve⟩ | ⟨hcall, hsame, -⟩
    · rw [List.filterMap_cons_some hcall, hserve]
      rfl
    · rw [List.filterMap_cons_none hcall, hsame]

theorem phase_receiveServing_of_starting {isRequest : Bool} {serve : Effect}
    (hphase : s.phase = .starting) :
    (s.receiveServing message isRequest serve).1.phase = .starting := by
  unfold receiveServing
  rw [hphase]
  exact hphase

/-- A first message is received in the same way whatever the parser. -/
theorem receive_new (order : LanguageOrder) (config : Option String)
    (surroundings : Surroundings) (parser other : Parser) (hello : Message) :
    (Session.new order config).receive surroundings parser hello =
      (Session.new order config).receive surroundings other hello := by
  unfold receive receiveOpen
  split
  · rfl
  · split <;> rfl

/-- A session that a first message has made serve has its settings loaded and no document. -/
theorem workspace_of_start {order : LanguageOrder} {config : Option String} {hello : Message}
    (h : ((Session.new order config).receive surroundings parser hello).1.phase = .serving) :
    ∃ settings, ((Session.new order config).receive surroundings parser hello).1.workspace =
      (Workspace.initial order).configure surroundings.languageOrder settings := by
  have hnew : (Session.new order config).phase = .starting := rfl
  have hopen : (Session.new order config).phase ≠ .exited := fun hexited => nomatch hexited
  unfold receive at h ⊢
  rw [if_neg hopen] at h ⊢
  unfold receiveOpen at h ⊢
  split at h
  · split at h <;> exact nomatch h
  · exact nomatch h
  · rw [if_neg (not_not_intro hnew)] at h ⊢
    split at h
    · exact nomatch h
    · next hnote =>
      rw [if_neg hnote]
      split at h
      · exact nomatch h
      · exact ⟨_, rfl⟩
  all_goals exact nomatch h.symm.trans (phase_receiveServing_of_starting hnew)

end Session

end SelectionGrowth
