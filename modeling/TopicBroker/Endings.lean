import TopicBroker.Descriptors
import TopicBroker.Removal
import TopicBroker.Subscriptions

/-!
What ends the server. The loop of server.c has no exit of its own: a call of the system
that fails, a connection that was reset when something is sent on it, a line on the console
and an unsubscribe request that finds its topic before the end of a table are all there is.
No datagram and no ID does as long as every `send` returns, and no closed connection. It is
assumed that `malloc` gives memory and that the output takes what is printed.
-/
namespace TopicBroker.Endings

open ByteBlocks Message Buffer Registry Requests Publish Identify MainLoop Runs Descriptors Removal
  Subscriptions

/-- The inputs that end the server in a state, with the way it ends. -/
inductive Fatal (cfg : Config) (s : Server) : Input → Stop → Prop
  | select (hpc : s.pc = .select) : Fatal cfg s .failure (.die "Fail: Select Socket Client\n")
  | refused {curr : Finset ℕ} (hvisit : Visits s curr cfg.fdTCP) :
      Fatal cfg s .failure (.die "Fail: Connection Refused\n")
  | nodelay {curr : Finset ℕ} (new : ℕ) (hvisit : Visits s curr cfg.fdTCP)
      (hfresh : ¬ Open cfg s new) :
      Fatal cfg s (.connection new false) (.die "Fail: Disable Nagle SERVER\n")
  | datagram {curr : Finset ℕ} (hvisit : Visits s curr cfg.fdUDP) :
      Fatal cfg s .failure (.die "Fail: Receive Message Clients\n")
  | publishing {curr : Finset ℕ} {bytes : Bytes} {addr : SockaddrIn} {locals : UdpLocals}
      (hvisit : Visits s curr cfg.fdUDP)
      (hfound : ∃ c ∈ s.clients, c.sock ≠ -1 ∧ 0 < copiesIn (topicText bytes) c.topics) :
      Fatal cfg s (.brokenDatagram bytes addr locals) .brokenPipe
  | console {curr : Finset ℕ} (cmd : Bytes) (hvisit : Visits s curr stdinFileno) :
      Fatal cfg s (.console cmd) (commandExit cmd)
  | received {curr : Finset ℕ} {fd : ℕ} (hvisit : Visits s curr fd) (hfd : Connection cfg fd) :
      Fatal cfg s .failure (.die "Fail: Bytes Received\n")
  | draining {curr : Finset ℕ} {fd : ℕ} {bytes : Bytes} (hvisit : Visits s curr fd)
      (hfd : Connection cfg fd) (hne : bytes ≠ []) (hlen : bytes.length ≤ bufferServerLen)
      (hflag : s.receiveID = true)
      (hfound : ∃ pre c post, s.clients = pre ++ c :: post ∧
        (∀ d ∈ pre, ¬ Carries (s.sendBuffer.receive bytes) d) ∧
        Carries (s.sendBuffer.receive bytes) c ∧ c.sock = -1 ∧ c.inWaiting ≠ []) :
      Fatal cfg s (.brokenRead bytes) .brokenPipe
  | unsubscribe {curr : Finset ℕ} {fd : ℕ} {bytes : Bytes} {locals : ReadLocals} {topic : Bytes}
      (hvisit : Visits s curr fd) (hfd : Connection cfg fd) (hne : bytes ≠ [])
      (hlen : bytes.length ≤ bufferServerLen) (hflag : s.receiveID = false)
      (hrequest : requestOf (s.sendBuffer.receive bytes) locals.topic = .unsubscribe topic)
      (hfound : ∃ c ∈ s.clients, c.sock = fd ∧ ∃ t ∈ c.topics.dropLast, cstr t.bytes = cstr topic) :
      Fatal cfg s (.read bytes locals) .undefined

theorem bind_eq_error {α β : Type} {x : Except Stop α} {f : α → Except Stop β} {e : Stop} :
    (x >>= f) = .error e ↔ x = .error e ∨ ∃ a, x = .ok a ∧ f a = .error e := by
  cases x with
  | error e' =>
    change Except.error e' = Except.error e ↔ _
    simp
  | ok a =>
    change f a = .error e ↔ _
    simp

section Unsubscribe

/-- A loop over the records stops at the first one for which its body does. -/
theorem eachClient_eq_error {f : Client → Except Stop Client} {clients : List Client}
    (hf : ∀ c ∈ clients, ∀ e, f c = .error e → e = .undefined) {e : Stop} :
    eachClient f clients = .error e ↔ e = .undefined ∧ ∃ c ∈ clients, f c = .error .undefined := by
  induction clients with
  | nil => simp [eachClient]
  | cons c rest ih =>
    rw [List.forall_mem_cons] at hf
    rw [eachClient, bind_eq_error, List.exists_mem_cons_iff]
    cases hc : f c with
    | error e' =>
      have hundefined := hf.1 e' hc
      subst hundefined
      constructor
      · rintro (h | ⟨a, h, _⟩)
        · cases h
          exact ⟨rfl, Or.inl rfl⟩
        · cases h
      · rintro ⟨rfl, _⟩
        exact Or.inl rfl
    | ok c' =>
      constructor
      · rintro (h | ⟨a, h, hrest⟩)
        · cases h
        · cases h
          rcases bind_eq_error.mp hrest with hrest | ⟨rest', _, hrest⟩
          · obtain ⟨he, d, hd, hstop⟩ := (ih hf.2).mp hrest
            exact ⟨he, Or.inr ⟨d, hd, hstop⟩⟩
          · cases hrest
      · rintro ⟨he, h | hrest⟩
        · cases h
        · exact Or.inr ⟨c', rfl, bind_eq_error.mpr (Or.inl ((ih hf.2).mpr ⟨he, hrest⟩))⟩

theorem unsubscribeTopics_error {topic : Bytes} (fuel : ℕ) :
    ∀ {j : ℕ} {topics : List Topic} {sfs : List CInt} {e : Stop}, topics.length = sfs.length →
      unsubscribeTopics topic fuel j topics sfs = .error e → e = .undefined := by
  induction fuel with
  | zero =>
    intro j topics sfs e _ h
    cases h
  | succ fuel ih =>
    intro j topics sfs e hlength h
    rw [unsubscribeTopics] at h
    split at h
    · rename_i hj
      rw [readAt_of_lt hj] at h
      change (if strcmp topics[j].bytes topic = 0 then _ else _) = _ at h
      split at h
      · by_cases hlast : j + 1 = topics.length
        · rw [deleteAt_last hlast, deleteAt_last (hlast.trans hlength)] at h
          exact ih (by rw [List.length_dropLast, List.length_dropLast, hlength]) h
        · have hdelete : deleteAt topics j = .error .undefined := by
            rw [deleteAt, if_neg (by omega), if_neg hlast]
          rw [hdelete] at h
          cases h
          rfl
      · exact ih hlength h
    · cases h

/-- The loop of one record does not come to an end if the topic is before the last position. -/
theorem unsubscribeTopics_eq_error {c : Client} (hlength : c.topics.length = c.sfs.length)
    (topic : Bytes) :
    unsubscribeTopics topic c.topics.length 0 c.topics c.sfs = .error .undefined ↔
      ∃ t ∈ c.topics.dropLast, cstr t.bytes = cstr topic := by
  have hends : (∃ out, unsubscribeTopics topic c.topics.length 0 c.topics c.sfs = .ok out) ↔
      ∀ t ∈ c.topics.dropLast.drop 0, cstr t.bytes ≠ cstr topic :=
    unsubscribeTopics_ends_iff _ hlength (by omega)
  rw [List.drop_zero] at hends
  cases hrun : unsubscribeTopics topic c.topics.length 0 c.topics c.sfs with
  | ok out =>
    have hnone := hends.mp ⟨out, hrun⟩
    refine iff_of_false (fun h => by cases h) ?_
    rintro ⟨t, ht, hmatch⟩
    exact hnone t ht hmatch
  | error e =>
    rw [unsubscribeTopics_error _ hlength hrun]
    refine iff_of_true rfl ?_
    by_contra hnone
    obtain ⟨out, hout⟩ := hends.mpr fun t ht hmatch => hnone ⟨t, ht, hmatch⟩
    rw [hrun] at hout
    cases hout

/-- An unsubscribe does not come to an end if a table has the topic before its last position. -/
theorem unsubscribe_eq_error {clients : List Client}
    (htables : ∀ c ∈ clients, c.topics.length = c.sfs.length) (topic : Bytes) (sock : ℤ) {e : Stop} :
    unsubscribe topic sock clients = .error e ↔ e = .undefined ∧
      ∃ c ∈ clients, c.sock = sock ∧ ∃ t ∈ c.topics.dropLast, cstr t.bytes = cstr topic := by
  have hbody : ∀ c ∈ clients, ∀ e, (if c.sock = sock then
        unsubscribeTopics topic c.topics.length 0 c.topics c.sfs >>= fun left =>
          .ok { c with topics := left.1, sfs := left.2 }
      else .ok c : Except Stop Client) = .error e ↔
        c.sock = sock ∧ e = .undefined ∧ ∃ t ∈ c.topics.dropLast, cstr t.bytes = cstr topic := by
    intro c hc e
    by_cases hsock : c.sock = sock
    · rw [if_pos hsock, bind_eq_error, ← unsubscribeTopics_eq_error (htables c hc)]
      constructor
      · rintro (h | ⟨out, _, h⟩)
        · have he := unsubscribeTopics_error _ (htables c hc) h
          rw [he] at h
          exact ⟨hsock, he, h⟩
        · cases h
      · rintro ⟨_, rfl, h⟩
        exact Or.inl h
    · rw [if_neg hsock]
      exact iff_of_false (fun h => by cases h) fun h => hsock h.1
  rw [unsubscribe, eachClient_eq_error fun c hc e he => ((hbody c hc e).mp he).2.1]
  refine and_congr_right fun _ => exists_congr fun c => and_congr_right fun hc => ?_
  rw [hbody c hc]
  exact ⟨fun h => ⟨h.1, h.2.2⟩, fun h => ⟨h.1, rfl, h.2⟩⟩

end Unsubscribe

section Steps

variable {cfg : Config} {s : Server} {e : Stop}

theorem interrupted_eq {calls : ℕ} (h : interrupted calls = e) (he : e ≠ .impossible) :
    0 < calls ∧ e = .brokenPipe := by
  subst h
  unfold interrupted at he ⊢
  split_ifs at he ⊢ with hcalls
  · exact ⟨hcalls, rfl⟩
  · exact absurd rfl he

theorem dispatch_idClient {receiveID : Bool} {bytes : Bytes}
    (h : dispatch receiveID bytes.length = .idClient) : bytes ≠ [] ∧ receiveID = true := by
  unfold dispatch at h
  split_ifs at h with hcount hflag
  exact ⟨fun hnil => hcount (by rw [hnil]; rfl), hflag⟩

/-- A datagram is sent if an online record has its topic. -/
theorem sends_pos_iff {buffer : Block bufferServerLen} {bytes : Bytes} {addr : SockaddrIn}
    {locals : UdpLocals} {stack : Stack} {clients : List Client} {p : Published}
    (hp : receiveUdpMessage buffer bytes addr locals stack clients = .ok p) :
    0 < p.sends.length ↔
      ∃ c ∈ clients, c.sock ≠ -1 ∧ 0 < copiesIn (topicText bytes) c.topics := by
  rw [List.length_pos_iff_exists_mem, (receiveUdpMessage_spec hp).sends_eq]
  constructor
  · rintro ⟨e, he⟩
    obtain ⟨c, hc, hrouted⟩ := List.mem_flatMap.mp he
    unfold routed at hrouted
    split_ifs at hrouted with hsock
    · cases hrouted
    · exact ⟨c, hc, hsock, Nat.pos_of_ne_zero (List.mem_replicate.mp hrouted).1⟩
  · rintro ⟨c, hc, hsock, hcopies⟩
    refine ⟨⟨c.sock, Frames.frameOf (Frames.padded bytes) addr⟩, List.mem_flatMap.mpr ⟨c, hc, ?_⟩⟩
    rw [routed, if_neg hsock]
    exact List.mem_replicate.mpr ⟨hcopies.ne', rfl⟩

/-- A read ends the server by an unsubscribe only. -/
theorem serveClient_eq_error (htables : ∀ c ∈ s.clients, c.topics.length = c.sfs.length) (fd : ℕ)
    (bytes : Bytes) (locals : ReadLocals) :
    serveClient s fd bytes locals = .error e ↔ bytes ≠ [] ∧ s.receiveID = false ∧ e = .undefined ∧
      ∃ topic, requestOf (s.sendBuffer.receive bytes) locals.topic = .unsubscribe topic ∧
        ∃ c ∈ s.clients, c.sock = fd ∧ ∃ t ∈ c.topics.dropLast, cstr t.bytes = cstr topic := by
  by_cases hne : bytes = []
  · subst hne
    simp only [serveClient, dispatch, List.length_nil, if_true]
    exact iff_of_false (fun h => by cases h) fun h => h.1 rfl
  · have hcount : ¬ bytes.length = 0 := fun hz => hne (List.eq_nil_of_length_eq_zero hz)
    cases hflag : s.receiveID with
    | true =>
      obtain ⟨r, hr, _⟩ := handleIdClient_spec fd (s.sendBuffer.receive bytes) locals.following
        ⟨s.stack, locals.calls⟩ s.clients
      simp only [serveClient, dispatch, hcount, hflag, if_false, if_true, hr]
      exact iff_of_false (fun h => by cases h) fun h => by cases h.2.1
    | false =>
      simp only [serveClient, dispatch, hcount, hflag, if_false, Bool.false_eq_true]
      have hfirst : handleRequest fd (s.sendBuffer.receive bytes) locals.topic s.clients = .error e ↔
          e = .undefined ∧ ∃ topic,
            requestOf (s.sendBuffer.receive bytes) locals.topic = .unsubscribe topic ∧
            ∃ c ∈ s.clients, c.sock = fd ∧ ∃ t ∈ c.topics.dropLast, cstr t.bytes = cstr topic := by
        unfold handleRequest
        cases hr : requestOf (s.sendBuffer.receive bytes) locals.topic with
        | subscribe topic sf => simp [subscribe_eq]
        | unsubscribe topic =>
          simp only [unsubscribe_eq_error htables, Request.unsubscribe.injEq, exists_eq_left']
        | invalid => simp
      rw [bind_eq_error, hfirst]
      constructor
      · rintro (⟨he, h⟩ | ⟨a, _, h⟩)
        · exact ⟨hne, trivial, he, h⟩
        · cases h
      · rintro ⟨_, _, he, h⟩
        exact Or.inl ⟨he, h⟩

/-- At a descriptor that is set the step stops as the handler does. -/
theorem step_eq_error_iff {curr : Finset ℕ} {fd : ℕ} {i : Input} (hvisit : Visits s curr fd)
    (hi : ∀ word, i ≠ .reuse word) : step cfg s i = .error e ↔ serve cfg s fd i = .error e := by
  have hstep : step cfg s i = scanStep cfg s curr fd i := by
    cases i with
    | reuse word => exact absurd rfl (hi word)
    | _ => simp only [step, hvisit.pc_eq]
  rw [hstep]
  unfold scanStep
  rw [if_neg (not_lt.mpr hvisit.le_max), if_pos hvisit.mem, bind_eq_error]
  constructor
  · rintro (h | ⟨r, _, h⟩)
    · exact h
    · cases h
  · exact Or.inl

/-- Where nothing is to be served only inputs that cannot come stop the step. -/
theorem idle_error {curr : Finset ℕ} {fd : ℕ} {i : Input} (hpc : s.pc = .scan curr fd)
    (hidle : ¬ (fd ≤ s.fdClients ∧ fd ∈ curr)) (h : step cfg s i = .error e) : e = .impossible := by
  cases i with
  | reuse word =>
    simp only [step] at h
    cases h
  | tick =>
    simp only [step, hpc] at h
    unfold scanStep at h
    split_ifs at h with hend hmem
    exact absurd ⟨not_lt.mp hend, hmem⟩ hidle
  | _ =>
    simp only [step, hpc] at h
    unfold scanStep at h
    split_ifs at h with hend hmem
    · cases h
      rfl
    · exact absurd ⟨not_lt.mp hend, hmem⟩ hidle
    · cases h
      rfl

theorem accept_fatal {curr : Finset ℕ} {i : Input} (hvisit : Visits s curr cfg.fdTCP)
    (h : serve cfg s cfg.fdTCP i = .error e) (he : e ≠ .impossible) : Fatal cfg s i e := by
  unfold serve at h
  rw [if_pos rfl] at h
  cases i with
  | connection new nodelay =>
    simp only at h
    split_ifs at h with hfresh hdelay
    · cases h
      exact absurd rfl he
    · cases h
      rw [hdelay]
      exact Fatal.nodelay new hvisit hfresh
  | failure =>
    cases h
    exact Fatal.refused hvisit
  | _ =>
    cases h
    exact absurd rfl he

theorem publish_fatal (htables : ∀ c ∈ s.clients, c.topics.length = c.sfs.length)
    {curr : Finset ℕ} {i : Input} (hvisit : Visits s curr cfg.fdUDP)
    (h : serve cfg s cfg.fdUDP i = .error e) (he : e ≠ .impossible) : Fatal cfg s i e := by
  have htotal := receiveUdpMessage_total fun c hc => le_of_eq (htables c hc)
  unfold serve at h
  rw [if_neg cfg.udp_ne_tcp, if_pos rfl] at h
  cases i with
  | datagram bytes addr locals =>
    obtain ⟨p, hp⟩ := htotal s.sendBuffer bytes addr locals s.stack
    simp only [hp] at h
    cases h
  | brokenDatagram bytes addr locals =>
    obtain ⟨p, hp⟩ := htotal s.sendBuffer bytes addr locals s.stack
    simp only [hp] at h
    obtain ⟨hcalls, rfl⟩ := interrupted_eq (Except.error.inj h) he
    exact Fatal.publishing hvisit ((sends_pos_iff hp).mp hcalls)
  | failure =>
    cases h
    exact Fatal.datagram hvisit
  | _ =>
    cases h
    exact absurd rfl he

theorem console_fatal {curr : Finset ℕ} {i : Input} (hvisit : Visits s curr stdinFileno)
    (h : serve cfg s stdinFileno i = .error e) (he : e ≠ .impossible) : Fatal cfg s i e := by
  unfold serve at h
  rw [if_neg cfg.tcp_ne_stdin.symm, if_neg cfg.udp_ne_stdin.symm, if_pos rfl] at h
  cases i with
  | console cmd =>
    cases h
    exact Fatal.console cmd hvisit
  | _ =>
    cases h
    exact absurd rfl he

theorem client_fatal (hwatched : Watched cfg s)
    (htables : ∀ c ∈ s.clients, c.topics.length = c.sfs.length) {curr : Finset ℕ} {fd : ℕ} {i : Input}
    (hvisit : Visits s curr fd) (hfd : Connection cfg fd) (h : serve cfg s fd i = .error e)
    (he : e ≠ .impossible) : Fatal cfg s i e := by
  obtain ⟨htcp, hudp, hstdin⟩ := hfd.apart
  have hpeer := hwatched.peer_ne_none hvisit hfd
  unfold serve at h
  rw [if_neg htcp, if_neg hudp, if_neg hstdin] at h
  cases i with
  | read bytes locals =>
    simp only [if_neg hpeer] at h
    split_ifs at h with hlen
    · cases h
      exact absurd rfl he
    · obtain ⟨hne, hflag, rfl, topic, hrequest, hfound⟩ :=
        (serveClient_eq_error htables fd bytes locals).mp h
      exact Fatal.unsubscribe hvisit hfd hne (not_lt.mp hlen) hflag hrequest hfound
  | brokenRead bytes =>
    simp only at h
    split_ifs at h with hbad
    · cases h
      exact absurd rfl he
    · rw [not_or, not_lt] at hbad
      split at h
      · rename_i hdispatch
        obtain ⟨hne, hflag⟩ := dispatch_idClient hdispatch
        obtain ⟨hcalls, rfl⟩ := interrupted_eq (Except.error.inj h) he
        exact Fatal.draining hvisit hfd hne hbad.2 hflag (sendCalls_pos_iff.mp hcalls)
      · cases h
        exact absurd rfl he
  | failure =>
    cases h
    exact Fatal.received hvisit hfd
  | _ =>
    cases h
    exact absurd rfl he

theorem serve_fatal (hwatched : Watched cfg s)
    (htables : ∀ c ∈ s.clients, c.topics.length = c.sfs.length) {curr : Finset ℕ} {fd : ℕ} {i : Input}
    (hvisit : Visits s curr fd) (h : serve cfg s fd i = .error e) (he : e ≠ .impossible) :
    Fatal cfg s i e := by
  by_cases hfd : Listening cfg fd
  · rcases hfd with rfl | rfl | rfl
    · exact console_fatal hvisit h he
    · exact accept_fatal hvisit h he
    · exact publish_fatal htables hvisit h he
  · exact client_fatal hwatched htables hvisit hfd h he

theorem step_fatal (hwatched : Watched cfg s)
    (htables : ∀ c ∈ s.clients, c.topics.length = c.sfs.length) {i : Input}
    (h : step cfg s i = .error e) (he : e ≠ .impossible) : Fatal cfg s i e := by
  cases hpc : s.pc with
  | select =>
    cases i with
    | select ready =>
      have hnone : ¬ ∃ fd ∈ s.fdIN, fd ≤ s.fdClients ∧ ¬ Open cfg s fd := by
        rintro ⟨fd, hmem, _, hclosed⟩
        exact hclosed ((hwatched.mem_iff fd).mp hmem).1
      simp only [step, hpc, if_neg hnone] at h
      split_ifs at h
      cases h
      exact absurd rfl he
    | reuse word =>
      simp only [step] at h
      cases h
    | failure =>
      simp only [step, hpc] at h
      cases h
      exact Fatal.select hpc
    | _ =>
      simp only [step, hpc] at h
      cases h
      exact absurd rfl he
  | scan curr fd =>
    by_cases hvisit : fd ≤ s.fdClients ∧ fd ∈ curr
    · have hvisit : Visits s curr fd := ⟨hpc, hvisit.1, hvisit.2⟩
      have hi : ∀ word, i ≠ .reuse word := by
        rintro word rfl
        simp only [step] at h
        cases h
      exact serve_fatal hwatched htables hvisit ((step_eq_error_iff hvisit hi).mp h) he
    · exact absurd (idle_error hpc hvisit h) he

theorem Fatal.ends {i : Input} (h : Fatal cfg s i e) (hwatched : Watched cfg s)
    (htables : ∀ c ∈ s.clients, c.topics.length = c.sfs.length) :
    step cfg s i = .error e ∧ e ≠ .impossible := by
  cases h with
  | select hpc =>
    refine ⟨?_, by simp⟩
    simp only [step, hpc]
  | refused hvisit =>
    refine ⟨(step_eq_error_iff hvisit (fun _ h => by cases h)).mpr ?_, by simp⟩
    unfold serve
    rw [if_pos rfl]
  | nodelay new hvisit hfresh =>
    refine ⟨(step_eq_error_iff hvisit (fun _ h => by cases h)).mpr ?_, by simp⟩
    unfold serve
    rw [if_pos rfl]
    simp only [if_neg hfresh, if_true]
  | datagram hvisit =>
    refine ⟨(step_eq_error_iff hvisit (fun _ h => by cases h)).mpr ?_, by simp⟩
    unfold serve
    rw [if_neg cfg.udp_ne_tcp, if_pos rfl]
  | @publishing curr bytes addr locals hvisit hfound =>
    refine ⟨(step_eq_error_iff hvisit (fun _ h => by cases h)).mpr ?_, by simp⟩
    obtain ⟨p, hp⟩ := receiveUdpMessage_total (fun c hc => le_of_eq (htables c hc)) s.sendBuffer
      bytes addr locals s.stack
    unfold serve
    rw [if_neg cfg.udp_ne_tcp, if_pos rfl]
    simp only [hp]
    exact congrArg Except.error (if_pos ((sends_pos_iff hp).mpr hfound))
  | console cmd hvisit =>
    refine ⟨(step_eq_error_iff hvisit (fun _ h => by cases h)).mpr ?_, ?_⟩
    · unfold serve
      rw [if_neg cfg.tcp_ne_stdin.symm, if_neg cfg.udp_ne_stdin.symm, if_pos rfl]
    · unfold commandExit
      split <;> simp
  | @received curr fd hvisit hfd =>
    refine ⟨(step_eq_error_iff hvisit (fun _ h => by cases h)).mpr ?_, by simp⟩
    obtain ⟨htcp, hudp, hstdin⟩ := hfd.apart
    unfold serve
    rw [if_neg htcp, if_neg hudp, if_neg hstdin]
  | @draining curr fd bytes hvisit hfd hne hlen hflag hfound =>
    refine ⟨(step_eq_error_iff hvisit (fun _ h => by cases h)).mpr ?_, by simp⟩
    obtain ⟨htcp, hudp, hstdin⟩ := hfd.apart
    have hpeer := hwatched.peer_ne_none hvisit hfd
    have hcount : ¬ bytes.length = 0 := fun hz => hne (List.eq_nil_of_length_eq_zero hz)
    unfold serve
    rw [if_neg htcp, if_neg hudp, if_neg hstdin]
    simp only [if_neg (not_or.mpr ⟨hpeer, not_lt.mpr hlen⟩), dispatch, if_neg hcount, if_pos hflag]
    exact congrArg Except.error (if_pos (sendCalls_pos_iff.mpr hfound))
  | @unsubscribe curr fd bytes locals topic hvisit hfd hne hlen hflag hrequest hfound =>
    refine ⟨(step_eq_error_iff hvisit (fun _ h => by cases h)).mpr ?_, by simp⟩
    rw [serve_read locals hfd (hwatched.peer_ne_none hvisit hfd) hlen]
    exact (serveClient_eq_error htables fd bytes locals).mpr
      ⟨hne, hflag, rfl, topic, hrequest, hfound⟩

end Steps

/-- In every reachable state the server ends on these inputs, in these ways, and on no others. -/
theorem server_ends_iff {cfg : Config} {tr : List (Server × Input)} {s : Server} (h : Run cfg tr s)
    (i : Input) (e : Stop) : step cfg s i = .error e ∧ e ≠ .impossible ↔ Fatal cfg s i e :=
  ⟨fun hstep => step_fatal (run_watched h) (run_aligned h) hstep.1 hstep.2,
    fun hfatal => hfatal.ends (run_watched h) (run_aligned h)⟩

/-- A client subscribes to two topics and takes back the second. -/
def takenBack : List Input :=
  roundInputs 5 [(3, .connection 5 true)] ++ roundInputs 5 [(5, readInput (idMessage 97))] ++
  roundInputs 5 [(5, readInput (subscribeMessage 116 1))] ++
  roundInputs 5 [(5, readInput (subscribeMessage 117 1))] ++ .select {5} :: List.replicate 5 .tick

def unsubscribeInput : Input := .read (117 :: List.replicate (topicLen - 1) 0) ⟨[117], [], []⟩

def endsUndefined (cfg : Config) (s : Server) (i : Input) : Bool :=
  match step cfg s i with
  | .error .undefined => true
  | _ => false

theorem server_ends_iff_takenBack :
    ∃ tr s, Run usual tr s ∧ s.receiveID = false ∧ Fatal usual s unsubscribeInput .undefined := by
  obtain ⟨tr, s, hrun, hs⟩ := run_of_inputs usual
    (fun _ s => decide (s.receiveID = false) && endsUndefined usual s unsubscribeInput) takenBack
    (by decide +kernel)
  rw [Bool.and_eq_true, decide_eq_true_eq] at hs
  refine ⟨tr, s, hrun, hs.1, (server_ends_iff hrun unsubscribeInput .undefined).mp ⟨?_, by simp⟩⟩
  have hend := hs.2
  unfold endsUndefined at hend
  split at hend
  · assumption
  · cases hend

end TopicBroker.Endings
