import TopicBroker.MainLoop

/-!
Which handler a message reaches. The flag `receiveID` says only that some
connection was accepted since the last message, so messages reach the right
handlers exactly in the runs in which IDs come in turn: a message is its
connection's first if and only if the event before it is an accept.
-/
namespace TopicBroker.Handshakes

open ByteBlocks Message Registry Requests Publish Identify MainLoop Runs

/-- What connections see: they are numbered in the order of their acceptance, and a
message is given with the handler it reached and the ID field of the buffer. -/
inductive Event
  | accepted (conn : ℕ)
  | message (conn : ℕ) (handler : Handler) (id : Bytes)
deriving DecidableEq

/-- The string in the ID field once a message has been received. -/
def presentedId (s : Server) (bytes : Bytes) : Bytes :=
  cstr ((s.sendBuffer.receive bytes).bytes.take idLen)

def eventOf (s : Server) (i : Input) : Option Event :=
  match i, s.pc with
  | .connection _ _, _ => some (.accepted s.accepted)
  | .read bytes _, .scan _ fd =>
    if bytes = [] then none
    else (s.peer fd).map fun conn =>
      .message conn (dispatch s.receiveID bytes.length) (presentedId s bytes)
  | _, _ => none

def log (tr : List (Server × Input)) : List Event := tr.filterMap fun e => eventOf e.1 e.2

theorem log_append (tr : List (Server × Input)) (s : Server) (i : Input) :
    log (tr ++ [(s, i)]) = log tr ++ (eventOf s i).toList := by
  rw [log, log, List.filterMap_append]
  cases h : eventOf s i <;> simp [h]

/-- An accept and no message since. -/
def Awaiting (events : List Event) : Prop := ∃ conn, events.getLast? = some (.accepted conn)

/-- The connection has sent no message. -/
def Silent (conn : ℕ) (events : List Event) : Prop := ∀ handler id, .message conn handler id ∉ events

/-- First messages, and no others, are handled as IDs. -/
def Attributed (events : List Event) : Prop :=
  ∀ pre conn handler id post, events = pre ++ .message conn handler id :: post →
    (handler = .idClient ↔ Silent conn pre)

/-- First messages, and no others, come directly after an accept. -/
def InTurn (events : List Event) : Prop :=
  ∀ pre conn handler id post, events = pre ++ .message conn handler id :: post →
    (Awaiting pre ↔ Silent conn pre)

theorem InTurn.of_append {events rest : List Event} (h : InTurn (events ++ rest)) :
    InTurn events := by
  intro pre conn handler id post hsplit
  apply h pre conn handler id (post ++ rest)
  rw [hsplit, List.append_assoc, List.cons_append]

theorem inTurn_nil : InTurn [] := by
  intro pre conn handler id post hsplit
  exact absurd hsplit.symm (List.append_ne_nil_of_right_ne_nil _ (List.cons_ne_nil _ _))

/-- Turns are kept one event at a time. -/
theorem InTurn.concat {events : List Event} (h : InTurn events) {e : Event}
    (he : ∀ conn handler id, e = .message conn handler id → (Awaiting events ↔ Silent conn events)) :
    InTurn (events ++ [e]) := by
  intro pre conn handler id post hsplit
  rcases List.eq_nil_or_concat post with rfl | ⟨post', last, rfl⟩
  · obtain ⟨rfl, hlast⟩ := List.append_inj' hsplit rfl
    exact he conn handler id (List.cons.inj hlast).1
  · rw [List.concat_eq_append, ← List.cons_append, ← List.append_assoc] at hsplit
    exact h pre conn handler id post' (List.append_inj' hsplit rfl).1

section Flag

variable {cfg : Config} {tr : List (Server × Input)} {s : Server}

private theorem not_awaiting_message (events : List Event) (conn : ℕ) (handler : Handler)
    (id : Bytes) : ¬ Awaiting (events ++ [.message conn handler id]) := by
  rintro ⟨c, h⟩
  rw [List.getLast?_concat] at h
  cases h

/-- The event of a read with something in it. -/
theorem eventOf_read {curr : Finset ℕ} {fd : ℕ} {bytes : Bytes} (locals : ReadLocals) {conn : ℕ}
    (hvisit : Visits s curr fd) (hne : bytes ≠ []) (hpeer : s.peer fd = some conn) :
    eventOf s (.read bytes locals) =
      some (.message conn (dispatch s.receiveID bytes.length) (presentedId s bytes)) := by
  simp only [eventOf, hvisit.pc_eq, if_neg hne, hpeer, Option.map_some]

theorem eventOf_close {curr : Finset ℕ} {fd : ℕ} (locals : ReadLocals) (hvisit : Visits s curr fd) :
    eventOf s (.read [] locals) = none := by
  simp only [eventOf, hvisit.pc_eq, if_true]

/-- The flag is set exactly while an accepted connection is waited for. -/
theorem receiveID_iff (h : Run cfg tr s) : s.receiveID = true ↔ Awaiting (log tr) := by
  refine run_invariant (fun tr s => s.receiveID = true ↔ Awaiting (log tr)) ?_ ?_ h
  · constructor
    · intro h
      cases h
    · rintro ⟨conn, h⟩
      cases h
  · intro tr s i t sends _ ih hstep _
    rw [log_append]
    cases hstep with
    | reuse word => simpa [eventOf] using ih
    | select ready hpc hopen hready => simpa [eventOf] using ih
    | wrap curr fd hpc hend => simpa [eventOf] using ih
    | skip curr fd hpc hle hclear => simpa [eventOf] using ih
    | accept curr new hvisit hfresh =>
      exact ⟨fun _ => ⟨s.accepted, List.getLast?_concat⟩, fun _ => rfl⟩
    | publish curr bytes addr locals p hvisit hp => simpa [eventOf] using ih
    | disconnect curr fd locals hvisit hfd hpeer =>
      rw [eventOf_close locals hvisit, Option.toList_none, List.append_nil]
      exact ih
    | identify curr fd bytes locals r hvisit hfd hpeer hne hlen hflag hr =>
      obtain ⟨conn, hconn⟩ := Option.ne_none_iff_exists'.mp hpeer
      rw [eventOf_read locals hvisit hne hconn]
      constructor
      · intro h
        cases h
      · exact fun h => absurd h (not_awaiting_message _ _ _ _)
    | request curr fd bytes locals clients hvisit hfd hpeer hne hlen hflag hr =>
      obtain ⟨conn, hconn⟩ := Option.ne_none_iff_exists'.mp hpeer
      rw [eventOf_read locals hvisit hne hconn]
      constructor
      · intro h
        change s.receiveID = true at h
        rw [hflag] at h
        cases h
      · exact fun h => absurd h (not_awaiting_message _ _ _ _)

end Flag

/-- An event of the log happened in a step of the run. -/
theorem log_split {cfg : Config} {tr : List (Server × Input)} {s : Server} (h : Run cfg tr s)
    {pre post : List Event} {e : Event} (hlog : log tr = pre ++ e :: post) :
    ∃ tr₁ s₁ i, Run cfg tr₁ s₁ ∧ log tr₁ = pre ∧ eventOf s₁ i = some e := by
  obtain ⟨front, back, rfl, hfront, hback⟩ := List.filterMap_eq_append_iff.mp hlog
  obtain ⟨quiet, ⟨s₁, i⟩, rest, rfl, hquiet, he, _⟩ := List.filterMap_eq_cons_iff.mp hback
  rw [← List.append_assoc] at h
  obtain ⟨_, hrun, _, _⟩ := Path.split h
  refine ⟨front ++ quiet, s₁, i, hrun, ?_, he⟩
  have hnone : quiet.filterMap (fun e => eventOf e.1 e.2) = [] :=
    List.filterMap_eq_nil_iff.mpr hquiet
  rw [log, List.filterMap_append, hnone, hfront, List.append_nil]

/-- A message is handled as an ID exactly when an accept came last. -/
theorem handler_iff {cfg : Config} {tr : List (Server × Input)} {s : Server} (h : Run cfg tr s)
    {pre post : List Event} {conn : ℕ} {handler : Handler} {id : Bytes}
    (hlog : log tr = pre ++ .message conn handler id :: post) :
    handler = .idClient ↔ Awaiting pre := by
  obtain ⟨tr₁, s₁, i, hrun, hpre, hevent⟩ := log_split h hlog
  rw [← hpre, ← receiveID_iff hrun]
  cases i with
  | read bytes locals =>
    cases hpc : s₁.pc with
    | select => simp [eventOf, hpc] at hevent
    | scan curr fd =>
      simp only [eventOf, hpc] at hevent
      split_ifs at hevent with hne
      obtain ⟨conn', _, hmessage⟩ := Option.map_eq_some_iff.mp hevent
      cases hmessage
      have hcount : ¬ bytes.length = 0 := fun hz => hne (List.eq_nil_of_length_eq_zero hz)
      rw [dispatch, if_neg hcount]
      cases s₁.receiveID <;> simp
  | connection fd nodelay => simp [eventOf] at hevent
  | _ => simp [eventOf] at hevent

/-- The dispatch is right in exactly the runs in which every connection sends its ID
before another connection is accepted and before any other message. -/
theorem attributed_iff_inTurn {cfg : Config} {tr : List (Server × Input)} {s : Server}
    (h : Run cfg tr s) : Attributed (log tr) ↔ InTurn (log tr) := by
  constructor
  · intro hattr pre conn handler id post hlog
    rw [← handler_iff h hlog]
    exact hattr pre conn handler id post hlog
  · intro hturn pre conn handler id post hlog
    rw [handler_iff h hlog]
    exact hturn pre conn handler id post hlog

/-- One client connects, identifies itself and sends a request. -/
def soloInputs : List Input :=
  roundInputs 5 [(3, .connection 5 true)] ++ roundInputs 5 [(5, readInput (idMessage 97))] ++
  roundInputs 5 [(5, readInput (117 :: List.replicate topicLen 0))]

theorem attributed_iff_inTurn_solo :
    ∃ tr s, Run usual tr s ∧
      log tr = [.accepted 0, .message 0 .idClient [97], .message 0 .request [117]] ∧
      (Attributed (log tr) ↔ InTurn (log tr)) := by
  obtain ⟨tr, s, hrun, hs⟩ := run_of_inputs usual (fun tr _ => decide (log tr =
    [.accepted 0, .message 0 .idClient [97], .message 0 .request [117]])) soloInputs
    (by decide +kernel)
  exact ⟨tr, s, hrun, of_decide_eq_true hs, attributed_iff_inTurn hrun⟩

/-- Two clients connect before either sends its ID. -/
def overlappingInputs : List Input :=
  roundInputs 5 [(3, .connection 5 true)] ++ roundInputs 6 [(3, .connection 6 true)] ++
  roundInputs 6 [(5, readInput (idMessage 97)), (6, readInput (idMessage 98))]

/-- The second ID is taken for a request. -/
theorem overlapping_not_attributed : ∃ tr s, Run usual tr s ∧ ¬ Attributed (log tr) := by
  obtain ⟨tr, s, hrun, hs⟩ := run_of_inputs usual (fun tr _ => decide (log tr =
    [.accepted 0, .accepted 1, .message 0 .idClient [97], .message 1 .request [98]]))
    overlappingInputs (by decide +kernel)
  refine ⟨tr, s, hrun, ?_⟩
  rw [of_decide_eq_true hs]
  intro hattr
  have hsecond := hattr [.accepted 0, .accepted 1, .message 0 .idClient [97]] 1 .request [98] [] rfl
  have hsilent : Silent 1 [.accepted 0, .accepted 1, .message 0 .idClient [97]] := by
    intro handler id hmem
    simp at hmem
  exact absurd (hsecond.mpr hsilent) (by decide)

end TopicBroker.Handshakes
