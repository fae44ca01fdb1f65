import TopicBroker.Descriptors
import TopicBroker.Handshakes
import TopicBroker.Identity
import TopicBroker.Persistence
import TopicBroker.StoreForward

/-!
Records and connections. As long as IDs come in turn, the socket of a record is
its own, is open, and belongs to the connection that presented the record's ID.
-/
namespace TopicBroker.Binding

open ByteBlocks Message Frames Registry Requests Publish Identify Identity MainLoop Runs Handshakes
  Descriptors Persistence StoreForward

/-- The connection sent the ID of the record and was handled by it. -/
def PresentedBy (tr : List (Server × Input)) (conn : ℕ) (c : Client) : Prop :=
  .message conn .idClient (idOf c) ∈ log tr

/-- Two records share a socket only while both are offline. -/
def Apart (c d : Client) : Prop := c.sock = d.sock → c.sock = -1

theorem apart_symm {c d : Client} (h : Apart c d) : Apart d c := fun heq =>
  heq.trans (h heq.symm)

structure Bound (tr : List (Server × Input)) (s : Server) : Prop where
  apart : s.clients.Pairwise Apart
  presented : ∀ c ∈ s.clients, c.sock ≠ -1 →
    ∃ fd conn : ℕ, c.sock = fd ∧ s.peer fd = some conn ∧ PresentedBy tr conn c

/-- What a step may do to the binding of a record without making a new one. -/
def Loosened (c c' : Client) : Prop := c'.ID = c.ID ∧ (c'.sock = c.sock ∨ c'.sock = -1)

private theorem apart_loosened {xs ys : List Client} (h : List.Forall₂ Loosened xs ys)
    (hapart : xs.Pairwise Apart) : ys.Pairwise Apart := by
  induction h with
  | nil => exact List.Pairwise.nil
  | @cons c c' xs ys hc htail ih =>
    rw [List.pairwise_cons] at hapart ⊢
    refine ⟨?_, ih hapart.2⟩
    intro d' hd' heq
    obtain ⟨j, hj⟩ := List.mem_iff_getElem?.mp hd'
    obtain ⟨d, hd, hdd⟩ := getElem?_of_forall₂ htail.flip hj
    rcases hc.2 with hsame | hoff
    · rcases hdd.2 with hsame' | hoff'
      · rw [hsame] at heq ⊢
        rw [hsame'] at heq
        exact hapart.1 d (List.mem_of_getElem? hd) heq
      · exact heq.trans hoff'
    · exact hoff

section Steps

variable {cfg : Config} {tr : List (Server × Input)} {s t : Server} {i : Input}

/-- A step without a handshake, which leaves the connections of its records alone. -/
theorem Bound.loosen (h : Bound tr s) (hclients : List.Forall₂ Loosened s.clients t.clients)
    (hpeer : ∀ c ∈ t.clients, ∀ fd : ℕ, c.sock = fd → t.peer fd = s.peer fd) :
    Bound (tr ++ [(s, i)]) t := by
  refine ⟨apart_loosened hclients h.apart, ?_⟩
  intro c' hc' honline
  obtain ⟨j, hj⟩ := List.mem_iff_getElem?.mp hc'
  obtain ⟨c, hc, hID, hsock⟩ := getElem?_of_forall₂ hclients.flip hj
  have hsame : c'.sock = c.sock := hsock.resolve_right honline
  obtain ⟨fd, conn, hfd, hconn, hpresented⟩ :=
    h.presented c (List.mem_of_getElem? hc) (by rw [← hsame]; exact honline)
  refine ⟨fd, conn, hsame.trans hfd, ?_, ?_⟩
  · rw [hpeer c' hc' fd (hsame.trans hfd)]
    exact hconn
  · unfold PresentedBy idOf at hpresented ⊢
    rw [hID, log_append]
    exact List.mem_append_left _ hpresented

private theorem loosened_refl (clients : List Client) : List.Forall₂ Loosened clients clients :=
  List.forall₂_same.mpr fun _ _ => ⟨rfl, Or.inl rfl⟩

/-- A connection that has sent no message is named by no record. -/
theorem Bound.fresh (h : Bound tr s) {fd conn : ℕ} (hpeer : s.peer fd = some conn)
    (hsilent : Silent conn (log tr)) : ∀ c ∈ s.clients, c.sock ≠ fd := by
  intro c hc hsock
  obtain ⟨fd', conn', hfd', hconn', hpresented⟩ := h.presented c hc (by omega)
  have hsame : fd' = fd := by omega
  subst hsame
  rw [hpeer] at hconn'
  cases hconn'
  exact hsilent _ _ hpresented

/-- The ID of a record that is found, or made, is the one in the message. -/
theorem idOf_of_carries {bytes : Bytes} {c : Client}
    (h : Carries (s.sendBuffer.receive bytes) c) : idOf c = presentedId s bytes := by
  have htake := congrArg (List.take idLen) h
  rw [← cstr_take, ← cstr_take, List.take_left' c.ID.size] at htake
  exact htake

/-- A record that gets the socket of a connection in its handshake. -/
theorem Bound.bind (h : Bound tr s) {fd conn : ℕ} (hpeer : s.peer fd = some conn)
    (hsilent : Silent conn (log tr)) (pre post : List Client) {d : Client} (hsock : d.sock = fd)
    (hsub : List.Sublist (pre ++ post) s.clients) (hclients : t.clients = pre ++ d :: post)
    (hpeer' : t.peer = s.peer) (hevent : eventOf s i = some (.message conn .idClient (idOf d))) :
    Bound (tr ++ [(s, i)]) t := by
  have hfresh : ∀ c ∈ pre ++ post, c.sock ≠ fd := fun c hc =>
    h.fresh hpeer hsilent c (hsub.subset hc)
  have hlog : log (tr ++ [(s, i)]) = log tr ++ [.message conn .idClient (idOf d)] := by
    rw [log_append, hevent, Option.toList_some]
  constructor
  · rw [hclients, List.pairwise_middle (fun h => apart_symm h), List.pairwise_cons]
    refine ⟨?_, h.apart.sublist hsub⟩
    intro c hc heq
    exact absurd (heq.symm.trans hsock) (hfresh c hc)
  · intro c hc honline
    rw [hclients, List.mem_append, List.mem_cons] at hc
    by_cases hcd : c = d
    · subst hcd
      refine ⟨fd, conn, hsock, by rw [hpeer']; exact hpeer, ?_⟩
      unfold PresentedBy
      rw [hlog]
      exact List.mem_append_right _ (List.mem_singleton_self _)
    · have hold : c ∈ pre ++ post := by
        rcases hc with hc | rfl | hc
        · exact List.mem_append_left _ hc
        · exact absurd rfl hcd
        · exact List.mem_append_right _ hc
      obtain ⟨fd', conn', hfd', hconn', hpresented⟩ := h.presented c (hsub.subset hold) honline
      refine ⟨fd', conn', hfd', by rw [hpeer']; exact hconn', ?_⟩
      unfold PresentedBy
      rw [hlog]
      exact List.mem_append_left _ hpresented

/-- Under the turns an ID message comes from a connection that was silent. -/
theorem silent_of_inTurn (hrun : Run cfg tr s) (hturn : InTurn (log (tr ++ [(s, i)])))
    {curr : Finset ℕ} {fd conn : ℕ} {bytes : Bytes} {locals : ReadLocals} (hi : i = .read bytes locals)
    (hvisit : Visits s curr fd) (hne : bytes ≠ []) (hpeer : s.peer fd = some conn)
    (hflag : s.receiveID = true) : Silent conn (log tr) := by
  subst hi
  have hevent := eventOf_read locals hvisit hne hpeer
  have hsplit := log_append tr s (.read bytes locals)
  rw [hevent, Option.toList_some] at hsplit
  exact (hturn _ _ _ _ _ hsplit).mp ((receiveID_iff hrun).mp hflag)

/-- An ID message from a silent connection keeps the records bound. -/
theorem Bound.identify (h : Bound tr s) {curr : Finset ℕ} {fd conn : ℕ} {bytes : Bytes}
    {locals : ReadLocals} {r : Handled} (hvisit : Visits s curr fd) (hne : bytes ≠ [])
    (hpeer : s.peer fd = some conn) (hflag : s.receiveID = true) (hsilent : Silent conn (log tr))
    (hr : Handshake fd (s.sendBuffer.receive bytes) locals.following ⟨s.stack, locals.calls⟩
      s.clients r) :
    Bound (tr ++ [(s, .read bytes locals)])
      { settle (filled s curr fd bytes) fd r.clients r.closes with
          receiveID := false, stack := r.stack } := by
  have hlen : ¬ bytes.length = 0 := fun hz => hne (List.eq_nil_of_length_eq_zero hz)
  have hevent : ∀ d : Client, idOf d = presentedId s bytes →
      eventOf s (.read bytes locals) = some (.message conn .idClient (idOf d)) := by
    intro d hd
    rw [eventOf_read locals hvisit hne hpeer, hflag, hd]
    simp [dispatch, hlen]
  generalize hclients : s.clients = clients at hr
  cases hr with
  | refused pre c post hpre hc honline =>
    apply h.loosen
    · rw [hclients]
      exact loosened_refl _
    · intro d hd fd' hfd'
      have hne' : fd' ≠ fd := by
        rintro rfl
        exact h.fresh hpeer hsilent d (by rw [hclients]; exact hd) hfd'
      exact Function.update_of_ne hne' _ _
  | resumed pre c post hpre hc hoffline =>
    have hid : idOf (resumed fd c) = presentedId s bytes := idOf_of_carries hc
    refine h.bind hpeer hsilent pre post rfl ?_ rfl rfl (hevent _ hid)
    rw [hclients]
    exact List.Sublist.append_left (List.sublist_cons_self c post) pre
  | appended _ hnone =>
    refine h.bind hpeer hsilent clients [] rfl ?_ rfl rfl (hevent _ rfl)
    rw [hclients, List.append_nil]

theorem step_bound (hrun : Run cfg tr s) (h : Bound tr s) (hstep : Step cfg s i t sends)
    (hturn : InTurn (log (tr ++ [(s, i)]))) : Bound (tr ++ [(s, i)]) t := by
  cases hstep with
  | reuse word => exact h.loosen (loosened_refl _) (fun _ _ _ _ => rfl)
  | select ready hpc hopen hready => exact h.loosen (loosened_refl _) (fun _ _ _ _ => rfl)
  | wrap curr fd hpc hend => exact h.loosen (loosened_refl _) (fun _ _ _ _ => rfl)
  | skip curr fd hpc hle hclear => exact h.loosen (loosened_refl _) (fun _ _ _ _ => rfl)
  | accept curr new hvisit hfresh =>
    refine h.loosen (loosened_refl _) ?_
    intro c hc fd hfd
    obtain ⟨fd', conn, hfd', hconn, _⟩ := h.presented c hc (by omega)
    have hne : fd ≠ new := by
      rintro rfl
      have hsame : fd' = fd := by omega
      subst hsame
      exact hfresh (Or.inr (by rw [hconn]; exact Option.some_ne_none conn))
    exact Function.update_of_ne hne _ _
  | publish curr bytes addr locals p hvisit hp =>
    refine h.loosen ?_ (fun _ _ _ _ => rfl)
    change List.Forall₂ Loosened s.clients p.clients
    rw [(receiveUdpMessage_spec hp).clients_eq, List.forall₂_map_right_iff, List.forall₂_same]
    intro c _
    unfold kept
    split
    · exact ⟨rfl, Or.inl rfl⟩
    · exact ⟨rfl, Or.inl rfl⟩
  | disconnect curr fd locals hvisit hfd hpeer =>
    rw [disconnectClient_eq]
    apply h.loosen
    · change List.Forall₂ Loosened s.clients (s.clients.map (released fd))
      rw [List.forall₂_map_right_iff, List.forall₂_same]
      intro c _
      unfold released
      split
      · exact ⟨rfl, Or.inr rfl⟩
      · exact ⟨rfl, Or.inl rfl⟩
    · intro c hc fd' hfd'
      have hne : fd' ≠ fd := by
        rintro rfl
        obtain ⟨d, _, rfl⟩ := List.mem_map.mp hc
        unfold released at hfd'
        split at hfd'
        · change (-1 : ℤ) = fd' at hfd'
          omega
        · contradiction
      change (if _ then Function.update s.peer fd none else s.peer) fd' = s.peer fd'
      split
      · exact Function.update_of_ne hne _ _
      · rfl
  | identify curr fd bytes locals r hvisit hfd hpeer hne hlen hflag hr =>
    obtain ⟨conn, hconn⟩ := Option.ne_none_iff_exists'.mp hpeer
    exact h.identify hvisit hne hconn hflag
      (silent_of_inTurn hrun hturn rfl hvisit hne hconn hflag) (handleIdClient_cases _ _ _ _ hr)
  | request curr fd bytes locals clients hvisit hfd hpeer hne hlen hflag hr =>
    refine h.loosen ((handleRequest_edits hr).imp ?_) (fun _ _ _ _ => rfl)
    intro c c' hedit
    rw [hedit.frame.1]
    exact ⟨rfl, Or.inl rfl⟩

end Steps

theorem run_bound {cfg : Config} {tr : List (Server × Input)} {s : Server} (h : Run cfg tr s)
    (hturn : InTurn (log tr)) : Bound tr s := by
  refine run_invariant (fun tr s => InTurn (log tr) → Bound tr s) ?_ ?_ h hturn
  · intro _
    exact ⟨List.Pairwise.nil, fun c hc => absurd hc List.not_mem_nil⟩
  · intro tr s i t sends hrun ih hstep _ hturn
    have hbefore : InTurn (log tr) := by
      rw [log_append] at hturn
      exact hturn.of_append
    exact step_bound hrun (ih hbefore) hstep hturn

/-- The socket of a record was read from, so it is in reach of the set. -/
theorem run_sock_lt {cfg : Config} {tr : List (Server × Input)} {s : Server} (h : Run cfg tr s)
    {c : Client} (hc : c ∈ s.clients) {fd : ℕ} (hsock : c.sock = fd) : fd < fdSetSize := by
  have hread : ∀ {s : Server} {tr : List (Server × Input)} {curr : Finset ℕ} {d fd : ℕ}
      {bytes : Bytes}, Run cfg tr s → Reads s curr d bytes → (d : ℤ) = fd → fd < fdSetSize := by
    intro s tr curr d fd bytes hrun hread heq
    obtain rfl : d = fd := by omega
    exact ((run_watched hrun).pending curr d hread.visits.pc_eq d hread.visits.mem).1.2
  refine run_invariant (fun _ s => ∀ c ∈ s.clients, ∀ fd : ℕ, c.sock = fd → fd < fdSetSize)
    (fun c hc => absurd hc List.not_mem_nil) ?_ h c hc fd hsock
  intro tr s i t sends hrun ih hstep _ c' hc' fd hsock
  obtain ⟨j, hj⟩ := List.mem_iff_getElem?.mp hc'
  rcases record_origin hstep hj with ⟨c, hc, hchange⟩ | ⟨-, hadded⟩
  · have hold := ih c (List.mem_of_getElem? hc) fd
    cases hchange with
    | keep => exact hold hsock
    | publish bytes addr locals _ hoffline =>
      refine hold (Eq.trans ?_ hsock)
      rw [kept, if_pos hoffline]
    | release curr fd' locals _ hvisit hnamed =>
      change (-1 : ℤ) = fd at hsock
      omega
    | resume curr fd' bytes locals _ hreads hflag hcarries hoffline => exact hread hrun hreads hsock
    | edit curr fd' bytes locals _ _ hreads hflag hnamed hedit =>
      rw [hedit.frame.1] at hsock
      exact hold hsock
  · cases hadded with
    | client curr fd' bytes locals hreads hflag hnone => exact hread hrun hreads hsock

/-- The message makes an offline record with the ID in the buffer resume. -/
def Recalls (s : Server) (i : Input) (c : Client) : Prop :=
  ∃ bytes locals, i = .read bytes locals ∧ bytes ≠ [] ∧ s.receiveID = true ∧
    Carries (s.sendBuffer.receive bytes) c

/-- Whenever a client returns to stored messages, the stack word that its queue names
points at one of them each time that it is read. -/
def OwnWord (tr : List (Server × Input)) : Prop :=
  ∀ pre s i post, tr = pre ++ (s, i) :: post → ∀ j c, s.clients[j]? = some c → c.sock = -1 →
    Recalls s i c → ∀ frame ∈ (deadWord s i).frames (copies (missed j pre)),
      ∃ m ∈ missed j pre, m.frame = frame

/-- The frame is for one of the subscriptions of the record at the position. -/
def Addressed (pre : List (Server × Input)) (s : Server) (i : Input) (j : ℕ) (e : Send) : Prop :=
  (∃ bytes addr locals c, i = .datagram bytes addr locals ∧ s.clients[j]? = some c ∧
    0 < copiesIn (topicText bytes) c.topics ∧ e.frame = frameOf (padded bytes) addr) ∨
  ∃ m ∈ missed j pre, m.frame = e.frame

/-- The record is online and its socket is the connection that presented its ID. -/
structure Connected (tr : List (Server × Input)) (s : Server) (c : Client) (fd : ℕ) : Prop where
  sock_eq : c.sock = fd
  mem : fd ∈ s.fdIN
  presented : ∃ conn, s.peer fd = some conn ∧ PresentedBy tr conn c

section Consequences

variable {cfg : Config} {tr : List (Server × Input)} {s t : Server} {i : Input}

theorem run_connected (h : Run cfg tr s) (hturn : InTurn (log tr)) {c : Client}
    (hc : c ∈ s.clients) (hon : c.sock ≠ -1) : ∃ fd, Connected tr s c fd := by
  obtain ⟨fd, conn, hfd, hconn, hpresented⟩ := (run_bound h hturn).presented c hc hon
  refine ⟨fd, hfd, ?_, conn, hconn, hpresented⟩
  rw [(run_watched h).mem_iff]
  exact ⟨Or.inr (by rw [hconn]; exact Option.some_ne_none conn), run_sock_lt h hc hfd⟩

/-- A frame goes to the connection of a record that it is for. -/
theorem sent_addressed (h : Run cfg (tr ++ [(s, i)]) t) (hrun : Run cfg tr s)
    (hnext : next cfg s i = some t) (hturn : InTurn (log (tr ++ [(s, i)])))
    (hword : OwnWord (tr ++ [(s, i)])) {e : Send} (he : e ∈ sent cfg s i) :
    ∃ j c fd, t.clients[j]? = some c ∧ Connected (tr ++ [(s, i)]) t c fd ∧ e.sock = fd ∧
      Addressed tr s i j e := by
  obtain ⟨sends, hstep, hsent⟩ := next_cases hnext
  rw [hsent] at he
  obtain ⟨j, hdelivery⟩ := step_delivery hstep he
  cases hdelivery with
  | live bytes addr locals _ c hc hc' hon hmatch =>
    obtain ⟨fd, hconnected⟩ := run_connected h hturn (List.mem_of_getElem? hc') hon
    exact ⟨j, c, fd, hc', hconnected, hconnected.sock_eq,
      Or.inl ⟨bytes, addr, locals, c, rfl, hc, hmatch, rfl⟩⟩
  | stored fd bytes locals _ c frame hne hflag hcarries hc hoff hc' hframe =>
    have hon : (resumed fd c).sock ≠ -1 := by
      change (fd : ℤ) ≠ -1
      omega
    obtain ⟨fd', hconnected⟩ := run_connected h hturn (List.mem_of_getElem? hc') hon
    rw [queue_length hrun hc hoff] at hframe
    refine ⟨j, resumed fd c, fd', hc', hconnected, hconnected.sock_eq, Or.inr ?_⟩
    exact hword tr s _ [] rfl j c hc hoff ⟨bytes, locals, rfl, hne, hflag, hcarries⟩ frame hframe

end Consequences

theorem OwnWord.of_append {tr rest : List (Server × Input)} (h : OwnWord (tr ++ rest)) :
    OwnWord tr := by
  intro pre s i post hsplit
  apply h pre s i (post ++ rest)
  rw [hsplit, List.append_assoc, List.cons_append]

/-- In a run in which IDs come in turn every online record is bound to its own open
connection, frames go to the clients that they are for, and a request changes the
record of the connection that it came on. -/
theorem records_bound {cfg : Config} {tr : List (Server × Input)} {s : Server} (h : Run cfg tr s)
    (hturn : InTurn (log tr)) (hword : OwnWord tr) :
    s.clients.Pairwise Apart ∧
    (∀ c ∈ s.clients, c.sock ≠ -1 → ∃ fd, Connected tr s c fd) ∧
    ∀ pre s₁ i post, tr = pre ++ (s₁, i) :: post → ∃ s₂, next cfg s₁ i = some s₂ ∧
      (∀ e ∈ sent cfg s₁ i, ∃ j c fd, s₂.clients[j]? = some c ∧
        Connected (pre ++ [(s₁, i)]) s₂ c fd ∧ e.sock = fd ∧ Addressed pre s₁ i j e) ∧
      ∀ curr fd bytes locals, i = .read bytes locals → Reads s₁ curr fd bytes →
        s₁.receiveID = false → ∀ (j : ℕ) (c c' : Client), s₁.clients[j]? = some c →
          s₂.clients[j]? = some c' → c' ≠ c → Connected pre s₁ c fd := by
  refine ⟨(run_bound h hturn).apart, fun c hc hon => run_connected h hturn hc hon, ?_⟩
  rintro pre s₁ i post rfl
  obtain ⟨s₂, hbefore, hnext, _⟩ := Path.split h
  have hafter : Run cfg (pre ++ [(s₁, i)]) s₂ := Path.tail hbefore hnext
  rw [List.append_cons] at hturn hword
  have hturn' : InTurn (log (pre ++ [(s₁, i)])) := by
    rw [log, List.filterMap_append] at hturn
    exact hturn.of_append
  have hturn₁ : InTurn (log pre) := by
    rw [log_append] at hturn'
    exact hturn'.of_append
  refine ⟨s₂, hnext, fun e he => sent_addressed hafter hbefore hnext hturn' hword.of_append he, ?_⟩
  intro curr fd bytes locals hi hread hflag j c c' hc hc' hmoved
  obtain ⟨sends, hstep, _⟩ := next_cases hnext
  cases step_change hstep hc hc' with
  | keep => exact absurd rfl hmoved
  | publish bytes addr locals _ hoffline => cases hi
  | release curr' fd' locals' _ hvisit hsock =>
    cases hi
    exact absurd rfl hread.nonempty
  | resume curr' fd' bytes' locals' _ hread' hflag' hcarries hoffline =>
    rw [hflag] at hflag'
    cases hflag'
  | edit curr' fd' bytes' locals' _ _ hread' hflag' hsock hedit =>
    have hfd := hread'.visits.unique hread.visits
    subst hfd
    obtain ⟨fd', hconnected⟩ := run_connected hbefore hturn₁ (List.mem_of_getElem? hc) (by omega)
    have hsame : fd' = fd := by
      have heq := hconnected.sock_eq
      omega
    subst hsame
    exact hconnected

/-- One client connects, subscribes and receives a message. -/
def liveInputs : List Input :=
  roundInputs 5 [(3, .connection 5 true)] ++ roundInputs 5 [(5, readInput (idMessage 97))] ++
  roundInputs 5 [(5, readInput (subscribeMessage 116 1))] ++
  roundInputs 5 [(4, publishInput 116 120)]

def liveLog : List Event :=
  [.accepted 0, .message 0 .idClient [97], .message 0 .request [115, 116]]

theorem inTurn_live : InTurn liveLog := by
  have haccepted : InTurn [.accepted 0] :=
    inTurn_nil.concat (e := .accepted 0) fun _ _ _ h => by cases h
  have hid : InTurn [.accepted 0, .message 0 .idClient [97]] := by
    refine haccepted.concat (e := .message 0 .idClient [97]) ?_
    intro conn handler id h
    cases h
    refine iff_of_true ⟨0, rfl⟩ ?_
    intro handler id hmem
    simp at hmem
  refine hid.concat (e := .message 0 .request [115, 116]) ?_
  intro conn handler id h
  cases h
  refine iff_of_false ?_ ?_
  · rintro ⟨conn, h⟩
    cases h
  · intro hsilent
    exact hsilent .idClient [97] (by simp)

theorem records_bound_live :
    ∃ tr s, Run usual tr s ∧ (∃ e ∈ tr, (sent usual e.1 e.2).map Send.sock = [5]) ∧
      s.clients.Pairwise Apart ∧ ∀ c ∈ s.clients, c.sock ≠ -1 → ∃ fd, Connected tr s c fd := by
  obtain ⟨tr, s, hrun, hs⟩ := run_of_inputs usual (fun tr _ => decide (log tr = liveLog ∧
    (∃ e ∈ tr, (sent usual e.1 e.2).map Send.sock = [5]) ∧
    ∀ e ∈ tr, ∀ c ∈ e.1.clients, c.sock ≠ -1)) liveInputs (by decide +kernel)
  obtain ⟨hlog, hsent, honline⟩ := of_decide_eq_true hs
  have hword : OwnWord tr := by
    rintro pre s₁ i post rfl j c hc hoff
    exact absurd hoff (honline (s₁, i) (by simp) c (List.mem_of_getElem? hc))
  have hbound := records_bound hrun (by rw [hlog]; exact inTurn_live) hword
  exact ⟨tr, s, hrun, hsent, hbound.1, hbound.2.1⟩

/-- A client sends its first request after another connection was accepted. -/
def interruptedInputs : List Input :=
  roundInputs 5 [(3, .connection 5 true)] ++ roundInputs 5 [(5, readInput (idMessage 97))] ++
  roundInputs 6 [(3, .connection 6 true)] ++
  roundInputs 6 [(5, readInput (subscribeMessage 116 1))]

/-- The request makes a second record for the same connection. -/
theorem interrupted_not_apart : ∃ tr s, Run usual tr s ∧ ¬ s.clients.Pairwise Apart := by
  obtain ⟨tr, s, hrun, hs⟩ := run_of_inputs usual (fun _ s => decide
    (s.clients.map Client.sock = [5, 5])) interruptedInputs (by decide +kernel)
  refine ⟨tr, s, hrun, ?_⟩
  intro hapart
  have hsocks : (s.clients.map Client.sock).Pairwise fun a b => a = b → a = -1 :=
    List.pairwise_map.mpr hapart
  rw [of_decide_eq_true hs] at hsocks
  exact absurd hsocks (by decide)

end TopicBroker.Binding
