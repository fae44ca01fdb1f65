import Mathlib.Data.Finset.Basic
import TopicBroker.Identify
import TopicBroker.Publish
import TopicBroker.Requests
import TopicBroker.Runs

/-!
The loop of server.c as a transition system. A state is what the program keeps
between two system calls together with what the system knows of the open
connections; an input is what the next system call returns, with the contents of
the memory that the handler reads before writing it. One step handles one
descriptor of the scan. `Step` lists what a step can do.
-/
namespace TopicBroker.MainLoop

open ByteBlocks Message Registry Requests Publish Identify Runs

/-- Highest number of descriptors in a set. -/
abbrev fdSetSize : ℕ := 1024

/-- FD_SET writes behind the set from FD_SETSIZE on. What lies behind the sets is no part
of the model: it is taken to be used by nothing else, and FD_ISSET to find no bit there. -/
def fdSet (fd : ℕ) (fds : Finset ℕ) : Finset ℕ := if fd < fdSetSize then insert fd fds else fds

theorem mem_fdSet {fd d : ℕ} {fds : Finset ℕ} :
    d ∈ fdSet fd fds ↔ d = fd ∧ d < fdSetSize ∨ d ∈ fds := by
  unfold fdSet
  split_ifs with hfd
  · rw [Finset.mem_insert]
    exact ⟨fun h => h.imp_left fun he => ⟨he, he ▸ hfd⟩, fun h => h.imp_left And.left⟩
  · exact ⟨Or.inr, fun h => h.resolve_left fun he => hfd (he.1 ▸ he.2)⟩

/-- Standard input. -/
abbrev stdinFileno : ℕ := 0

/-- What the program has when it enters its loop. -/
structure Config where
  fdTCP : ℕ
  fdUDP : ℕ
  sendBuffer : Block bufferServerLen
  stack : Stack
  tcp_ne_stdin : fdTCP ≠ stdinFileno
  udp_ne_stdin : fdUDP ≠ stdinFileno
  udp_ne_tcp : fdUDP ≠ fdTCP

/-- Before `select`, or in the scan of `curr` at a descriptor. -/
inductive Pc
  | select
  | scan (curr : Finset ℕ) (fd : ℕ)
deriving DecidableEq

/-- `peer` and `accepted` belong to the system: the connection behind every open
descriptor that `accept` returned, and the number of connections so far. -/
structure Server where
  fdIN : Finset ℕ
  fdClients : ℕ
  receiveID : Bool
  sendBuffer : Block bufferServerLen
  clients : List Client
  stack : Stack
  peer : ℕ → Option ℕ
  accepted : ℕ
  pc : Pc

def initial (cfg : Config) : Server where
  fdIN := fdSet cfg.fdTCP (fdSet cfg.fdUDP (fdSet stdinFileno ∅))
  fdClients := max cfg.fdTCP cfg.fdUDP
  receiveID := false
  sendBuffer := cfg.sendBuffer
  clients := []
  stack := cfg.stack
  peer := fun _ => none
  accepted := 0
  pc := .select

/-- The memory that the handlers of a read find at their own locals: what lies at
the array `topic` of `handle_request`, and behind the ID of `new_client`; and what the
calls of the draining loop leave in the dead word of `temp`. -/
structure ReadLocals where
  topic : Bytes
  following : Bytes
  calls : List Residue
deriving DecidableEq

/-- `reuse` stands for other calls that leave something else in the stack word
that a call of `receive_udp_message` used for `temp`. In `datagram` and `read` every
`send` returns, and the code does not look at its result; in the broken ones a `send`
meets a connection that its peer has reset. -/
inductive Input
  | select (ready : Finset ℕ)
  | tick
  | connection (fd : ℕ) (nodelay : Bool)
  | datagram (bytes : Bytes) (addr : SockaddrIn) (locals : UdpLocals)
  | read (bytes : Bytes) (locals : ReadLocals)
  | brokenDatagram (bytes : Bytes) (addr : SockaddrIn) (locals : UdpLocals)
  | brokenRead (bytes : Bytes)
  | console (cmd : Bytes)
  | failure
  | reuse (word : Option Frame)

/-- The descriptors the server owns besides connections. -/
def Listening (cfg : Config) (fd : ℕ) : Prop :=
  fd = stdinFileno ∨ fd = cfg.fdTCP ∨ fd = cfg.fdUDP

instance (cfg : Config) (fd : ℕ) : Decidable (Listening cfg fd) :=
  inferInstanceAs (Decidable (_ ∨ _ ∨ _))

def Open (cfg : Config) (s : Server) (fd : ℕ) : Prop :=
  Listening cfg fd ∨ s.peer fd ≠ none

instance (cfg : Config) (s : Server) (fd : ℕ) : Decidable (Open cfg s fd) :=
  inferInstanceAs (Decidable (_ ∨ _))

/-- `FD_SET` and the maximum on the new descriptor, and the flag for its ID. -/
def acceptNewConnection (s : Server) (fd : ℕ) : Server :=
  { s with
    receiveID := true
    fdIN := fdSet fd s.fdIN
    fdClients := if s.fdClients < fd then fd else s.fdClients
    peer := Function.update s.peer fd (some s.accepted)
    accepted := s.accepted + 1 }

/-- The registry after a handler, and the descriptor closed if the handler closed it. -/
def settle (s : Server) (fd : ℕ) (clients : List Client) (closes : Bool) : Server :=
  { s with
    clients := clients
    fdIN := if closes then s.fdIN.erase fd else s.fdIN
    peer := if closes then Function.update s.peer fd none else s.peer }

theorem settle_peer {fd d conn : ℕ} (clients : List Client) (closes : Bool)
    (h : (settle s fd clients closes).peer d = some conn) : s.peer d = some conn := by
  unfold settle at h
  cases closes with
  | false => exact h
  | true =>
    by_cases hd : d = fd
    · subst hd
      simp at h
    · simpa [hd] using h

/-- The command ends the server in every case. -/
def commandExit (cmd : Bytes) : Stop :=
  if strcmp cmd [101, 120, 105, 116] = 1 then .die "Fail: Invalid CMD\n"
  else .exit (strcmp cmd [101, 120, 105, 116] = 0)

inductive Handler
  | disconnect
  | idClient
  | request
deriving DecidableEq

/-- Which handler a read goes to: the flag is shared by all connections. -/
def dispatch (receiveID : Bool) (bytesRecv : ℕ) : Handler :=
  if bytesRecv = 0 then .disconnect
  else if receiveID = true then .idClient
  else .request

/-- A read from a client's descriptor. -/
def serveClient (s : Server) (fd : ℕ) (bytes : Bytes) (locals : ReadLocals) :
    Except Stop (Server × List Send) :=
  let s := { s with sendBuffer := s.sendBuffer.receive bytes }
  match dispatch s.receiveID bytes.length with
  | .disconnect =>
    let (clients, closes) := disconnectClient fd s.clients
    .ok (settle s fd clients closes, [])
  | .idClient => do
    let r ← handleIdClient fd s.sendBuffer locals.following ⟨s.stack, locals.calls⟩ s.clients
    .ok ({ settle s fd r.clients r.closes with receiveID := false, stack := r.stack }, r.sends)
  | .request => do
    let clients ← handleRequest fd s.sendBuffer locals.topic s.clients
    .ok ({ s with clients := clients }, [])

/-- Nothing in the program handles SIGPIPE, so a `send` on a connection that was reset
ends it; a handler that calls no `send` cannot meet one. -/
def interrupted (calls : ℕ) : Stop := if 0 < calls then .brokenPipe else .impossible

/-- A descriptor of the scan that is set. -/
def serve (cfg : Config) (s : Server) (fd : ℕ) (i : Input) : Except Stop (Server × List Send) :=
  if fd = cfg.fdTCP then
    match i with
    | .connection new nodelay =>
      if Open cfg s new then .error .impossible
      else if nodelay = false then .error (.die "Fail: Disable Nagle SERVER\n")
      else .ok (acceptNewConnection s new, [])
    | .failure => .error (.die "Fail: Connection Refused\n")
    | _ => .error .impossible
  else if fd = cfg.fdUDP then
    match i with
    | .datagram bytes addr locals => do
      let p ← receiveUdpMessage s.sendBuffer bytes addr locals s.stack s.clients
      .ok ({ s with sendBuffer := p.buffer, clients := p.clients, stack := p.stack }, p.sends)
    | .brokenDatagram bytes addr locals => do
      let p ← receiveUdpMessage s.sendBuffer bytes addr locals s.stack s.clients
      .error (interrupted p.sends.length)
    | .failure => .error (.die "Fail: Receive Message Clients\n")
    | _ => .error .impossible
  else if fd = stdinFileno then
    match i with
    | .console cmd => .error (commandExit cmd)
    | _ => .error .impossible
  else
    match i with
    | .read bytes locals =>
      if s.peer fd = none then .error (.die "Fail: Bytes Received\n")
      else if bufferServerLen < bytes.length then .error .impossible
      else serveClient s fd bytes locals
    | .brokenRead bytes =>
      if s.peer fd = none ∨ bufferServerLen < bytes.length then .error .impossible
      else match dispatch s.receiveID bytes.length with
        | .idClient => .error (interrupted (sendCalls (s.sendBuffer.receive bytes).bytes s.clients))
        | _ => .error .impossible
    | .failure => .error (.die "Fail: Bytes Received\n")
    | _ => .error .impossible

/-- One iteration of the scan. -/
def scanStep (cfg : Config) (s : Server) (curr : Finset ℕ) (fd : ℕ) (i : Input) :
    Except Stop (Server × List Send) :=
  if s.fdClients < fd then
    match i with
    | .tick => .ok ({ s with pc := .select }, [])
    | _ => .error .impossible
  else if fd ∈ curr then do
    let (t, sends) ← serve cfg s fd i
    .ok ({ t with pc := .scan curr (fd + 1) }, sends)
  else
    match i with
    | .tick => .ok ({ s with pc := .scan curr (fd + 1) }, [])
    | _ => .error .impossible

def step (cfg : Config) (s : Server) (i : Input) : Except Stop (Server × List Send) :=
  match i, s.pc with
  | .reuse word, _ => .ok ({ s with stack := ⟨word⟩ }, [])
  | .select ready, .select =>
    if ∃ fd ∈ s.fdIN, fd ≤ s.fdClients ∧ ¬ Open cfg s fd then
      .error (.die "Fail: Select Socket Client\n")
    else if ∀ fd ∈ ready, fd ∈ s.fdIN ∧ fd ≤ s.fdClients then
      .ok ({ s with sendBuffer := Block.fill bufferServerLen 0, pc := .scan ready 0 }, [])
    else .error .impossible
  | .failure, .select => .error (.die "Fail: Select Socket Client\n")
  | i, .scan curr fd => scanStep cfg s curr fd i
  | _, _ => .error .impossible

/-- The state after a step that does not stop the server. -/
def next (cfg : Config) (s : Server) (i : Input) : Option Server :=
  match step cfg s i with
  | .ok (t, _) => some t
  | .error _ => none

/-- The dead word of `temp` in the draining loop of a step. -/
def deadWord (s : Server) : Input → DeadWord
  | .read _ locals => ⟨s.stack, locals.calls⟩
  | _ => ⟨s.stack, []⟩

/-- What a step sends. -/
def sent (cfg : Config) (s : Server) (i : Input) : List Send :=
  match step cfg s i with
  | .ok (_, sends) => sends
  | .error _ => []

/-- A run of the server from its start. -/
def Run (cfg : Config) (tr : List (Server × Input)) (t : Server) : Prop :=
  Path (fun a i b => next cfg a i = some b) (initial cfg) tr t

/-- A connection of a client, as the scan tells it from the other descriptors. -/
def Connection (cfg : Config) (fd : ℕ) : Prop := ¬ Listening cfg fd

instance (cfg : Config) (fd : ℕ) : Decidable (Connection cfg fd) :=
  inferInstanceAs (Decidable (¬ _))

/-- The scan is at a descriptor that `select` reported. -/
structure Visits (s : Server) (curr : Finset ℕ) (fd : ℕ) : Prop where
  pc_eq : s.pc = .scan curr fd
  le_max : fd ≤ s.fdClients
  mem : fd ∈ curr

theorem Visits.fd_eq {s : Server} {curr curr' : Finset ℕ} {fd fd' : ℕ} (h : Visits s curr fd)
    (hpc : s.pc = .scan curr' fd') : fd' = fd := by
  rw [h.pc_eq] at hpc
  exact (Pc.scan.inj hpc).2.symm

/-- The scan is at one descriptor. -/
theorem Visits.unique {s : Server} {curr curr' : Finset ℕ} {fd fd' : ℕ} (h : Visits s curr fd)
    (h' : Visits s curr' fd') : fd' = fd :=
  h.fd_eq h'.pc_eq

/-- The server after a read has filled the buffer, with the scan moved on. -/
def filled (s : Server) (curr : Finset ℕ) (fd : ℕ) (bytes : Bytes) : Server :=
  { s with sendBuffer := s.sendBuffer.receive bytes, pc := .scan curr (fd + 1) }

/-- What a step can do that does not stop the server. -/
inductive Step (cfg : Config) (s : Server) : Input → Server → List Send → Prop
  | reuse (word : Option Frame) : Step cfg s (.reuse word) { s with stack := ⟨word⟩ } []
  | select (ready : Finset ℕ) (hpc : s.pc = .select)
      (hopen : ∀ fd ∈ s.fdIN, fd ≤ s.fdClients → Open cfg s fd)
      (hready : ∀ fd ∈ ready, fd ∈ s.fdIN ∧ fd ≤ s.fdClients) :
      Step cfg s (.select ready)
        { s with sendBuffer := Block.fill bufferServerLen 0, pc := .scan ready 0 } []
  | wrap (curr : Finset ℕ) (fd : ℕ) (hpc : s.pc = .scan curr fd) (hend : s.fdClients < fd) :
      Step cfg s .tick { s with pc := .select } []
  | skip (curr : Finset ℕ) (fd : ℕ) (hpc : s.pc = .scan curr fd) (hle : fd ≤ s.fdClients)
      (hclear : fd ∉ curr) : Step cfg s .tick { s with pc := .scan curr (fd + 1) } []
  | accept (curr : Finset ℕ) (new : ℕ) (hvisit : Visits s curr cfg.fdTCP)
      (hfresh : ¬ Open cfg s new) :
      Step cfg s (.connection new true)
        { acceptNewConnection s new with pc := .scan curr (cfg.fdTCP + 1) } []
  | publish (curr : Finset ℕ) (bytes : Bytes) (addr : SockaddrIn) (locals : UdpLocals)
      (p : Published) (hvisit : Visits s curr cfg.fdUDP)
      (hp : receiveUdpMessage s.sendBuffer bytes addr locals s.stack s.clients = .ok p) :
      Step cfg s (.datagram bytes addr locals)
        { s with sendBuffer := p.buffer, clients := p.clients, stack := p.stack,
                 pc := .scan curr (cfg.fdUDP + 1) } p.sends
  | disconnect (curr : Finset ℕ) (fd : ℕ) (locals : ReadLocals) (hvisit : Visits s curr fd)
      (hfd : Connection cfg fd) (hpeer : s.peer fd ≠ none) :
      Step cfg s (.read [] locals)
        (settle (filled s curr fd []) fd (disconnectClient fd s.clients).1
          (disconnectClient fd s.clients).2) []
  | identify (curr : Finset ℕ) (fd : ℕ) (bytes : Bytes) (locals : ReadLocals) (r : Handled)
      (hvisit : Visits s curr fd) (hfd : Connection cfg fd) (hpeer : s.peer fd ≠ none)
      (hne : bytes ≠ []) (hlen : bytes.length ≤ bufferServerLen) (hflag : s.receiveID = true)
      (hr : handleIdClient fd (s.sendBuffer.receive bytes) locals.following
        ⟨s.stack, locals.calls⟩ s.clients = .ok r) :
      Step cfg s (.read bytes locals)
        { settle (filled s curr fd bytes) fd r.clients r.closes with
            receiveID := false, stack := r.stack } r.sends
  | request (curr : Finset ℕ) (fd : ℕ) (bytes : Bytes) (locals : ReadLocals)
      (clients : List Client) (hvisit : Visits s curr fd) (hfd : Connection cfg fd)
      (hpeer : s.peer fd ≠ none) (hne : bytes ≠ []) (hlen : bytes.length ≤ bufferServerLen)
      (hflag : s.receiveID = false)
      (hr : handleRequest fd (s.sendBuffer.receive bytes) locals.topic s.clients = .ok clients) :
      Step cfg s (.read bytes locals) { filled s curr fd bytes with clients := clients } []

section Inversion

variable {cfg : Config} {s t : Server} {sends : List Send}

private theorem serveClient_cases {curr : Finset ℕ} {fd : ℕ} {bytes : Bytes} {locals : ReadLocals}
    (hvisit : Visits s curr fd) (hfd : Connection cfg fd) (hpeer : s.peer fd ≠ none)
    (hlen : bytes.length ≤ bufferServerLen) (h : serveClient s fd bytes locals = .ok (t, sends)) :
    Step cfg s (.read bytes locals) { t with pc := .scan curr (fd + 1) } sends := by
  by_cases hne : bytes = []
  · subst hne
    simp only [serveClient, dispatch, List.length_nil, if_true] at h
    cases h
    exact Step.disconnect curr fd locals hvisit hfd hpeer
  · have hcount : ¬ bytes.length = 0 := fun hz => hne (List.eq_nil_of_length_eq_zero hz)
    cases hflag : s.receiveID with
    | true =>
      simp only [serveClient, dispatch, hcount, hflag, if_false, if_true] at h
      obtain ⟨r, hr, h⟩ := bind_eq_ok.mp h
      cases h
      exact Step.identify curr fd bytes locals r hvisit hfd hpeer hne hlen hflag hr
    | false =>
      simp only [serveClient, dispatch, hcount, hflag, if_false, Bool.false_eq_true] at h
      obtain ⟨clients, hr, h⟩ := bind_eq_ok.mp h
      cases h
      have hstep := Step.request curr fd bytes locals clients hvisit hfd hpeer hne hlen hflag hr
      rw [← hflag]
      exact hstep

private theorem serve_cases {curr : Finset ℕ} {fd : ℕ} {i : Input} (hvisit : Visits s curr fd)
    (h : serve cfg s fd i = .ok (t, sends)) :
    Step cfg s i { t with pc := .scan curr (fd + 1) } sends := by
  unfold serve at h
  by_cases htcp : fd = cfg.fdTCP
  · subst htcp
    rw [if_pos rfl] at h
    cases i with
    | connection new nodelay =>
      simp only at h
      split_ifs at h with hfresh hdelay
      cases h
      have htrue : nodelay = true := by simpa using hdelay
      subst htrue
      exact Step.accept curr new hvisit hfresh
    | _ => cases h
  · rw [if_neg htcp] at h
    by_cases hudp : fd = cfg.fdUDP
    · subst hudp
      rw [if_pos rfl] at h
      cases i with
      | datagram bytes addr locals =>
        obtain ⟨p, hp, h⟩ := bind_eq_ok.mp h
        cases h
        exact Step.publish curr bytes addr locals p hvisit hp
      | brokenDatagram bytes addr locals =>
        obtain ⟨p, _, h⟩ := bind_eq_ok.mp h
        cases h
      | _ => cases h
    · rw [if_neg hudp] at h
      by_cases hstdin : fd = stdinFileno
      · rw [if_pos hstdin] at h
        cases i <;> cases h
      · rw [if_neg hstdin] at h
        have hfd : Connection cfg fd := by
          rintro (h | h | h)
          · exact hstdin h
          · exact htcp h
          · exact hudp h
        cases i with
        | read bytes locals =>
          simp only at h
          split_ifs at h with hpeer hlen
          exact serveClient_cases hvisit hfd hpeer (not_lt.mp hlen) h
        | brokenRead bytes =>
          simp only at h
          split_ifs at h
          split at h <;> cases h
        | _ => cases h

private theorem scanStep_cases {curr : Finset ℕ} {fd : ℕ} {i : Input}
    (hpc : s.pc = .scan curr fd) (h : scanStep cfg s curr fd i = .ok (t, sends)) :
    Step cfg s i t sends := by
  unfold scanStep at h
  by_cases hend : s.fdClients < fd
  · rw [if_pos hend] at h
    cases i with
    | tick =>
      cases h
      exact Step.wrap curr fd hpc hend
    | _ => cases h
  · rw [if_neg hend] at h
    by_cases hmem : fd ∈ curr
    · rw [if_pos hmem] at h
      obtain ⟨⟨t', sends'⟩, hserve, h⟩ := bind_eq_ok.mp h
      cases h
      exact serve_cases ⟨hpc, not_lt.mp hend, hmem⟩ hserve
    · rw [if_neg hmem] at h
      cases i with
      | tick =>
        cases h
        exact Step.skip curr fd hpc (not_lt.mp hend) hmem
      | _ => cases h

/-- Every step that goes on is one of the listed ones. -/
theorem step_cases {i : Input} (h : step cfg s i = .ok (t, sends)) : Step cfg s i t sends := by
  cases hpc : s.pc with
  | select =>
    cases i with
    | select ready =>
      simp only [step, hpc] at h
      split_ifs at h with hclosed hready
      cases h
      refine Step.select ready hpc ?_ hready
      intro fd hmem hle
      by_contra hnot
      exact hclosed ⟨fd, hmem, hle, hnot⟩
    | reuse word =>
      cases h
      exact Step.reuse word
    | _ =>
      simp only [step, hpc] at h
      cases h
  | scan curr fd =>
    cases i with
    | reuse word =>
      cases h
      exact Step.reuse word
    | _ =>
      simp only [step, hpc] at h
      exact scanStep_cases hpc h

theorem Connection.apart {fd : ℕ} (h : Connection cfg fd) :
    fd ≠ cfg.fdTCP ∧ fd ≠ cfg.fdUDP ∧ fd ≠ stdinFileno :=
  ⟨fun heq => h (Or.inr (Or.inl heq)), fun heq => h (Or.inr (Or.inr heq)),
    fun heq => h (Or.inl heq)⟩

theorem serve_read {fd : ℕ} {bytes : Bytes} (locals : ReadLocals) (hfd : Connection cfg fd)
    (hpeer : s.peer fd ≠ none) (hlen : bytes.length ≤ bufferServerLen) :
    serve cfg s fd (.read bytes locals) = serveClient s fd bytes locals := by
  obtain ⟨htcp, hudp, hstdin⟩ := hfd.apart
  unfold serve
  rw [if_neg htcp, if_neg hudp, if_neg hstdin]
  simp only [if_neg hpeer, if_neg (not_lt.mpr hlen)]

/-- The step of a read on an open connection is what `serveClient` does. -/
theorem step_read {curr : Finset ℕ} {fd : ℕ} {bytes : Bytes} (locals : ReadLocals)
    (hvisit : Visits s curr fd) (hfd : Connection cfg fd) (hpeer : s.peer fd ≠ none)
    (hlen : bytes.length ≤ bufferServerLen) :
    step cfg s (.read bytes locals) = (do
      let (t, sends) ← serveClient s fd bytes locals
      .ok ({ t with pc := .scan curr (fd + 1) }, sends)) := by
  have hstep : step cfg s (.read bytes locals) = scanStep cfg s curr fd (.read bytes locals) := by
    simp only [step, hvisit.pc_eq]
  rw [hstep]
  unfold scanStep
  rw [if_neg (not_lt.mpr hvisit.le_max), if_pos hvisit.mem, serve_read locals hfd hpeer hlen]

theorem next_eq_some {i : Input} (h : next cfg s i = some t) :
    ∃ sends, step cfg s i = .ok (t, sends) ∧ sent cfg s i = sends := by
  unfold next at h
  unfold sent
  cases hstep : step cfg s i with
  | error e => simp [hstep] at h
  | ok r =>
    obtain ⟨t', sends⟩ := r
    rw [hstep] at h
    cases h
    exact ⟨sends, rfl, rfl⟩

theorem next_cases {i : Input} (h : next cfg s i = some t) :
    ∃ sends, Step cfg s i t sends ∧ sent cfg s i = sends := by
  obtain ⟨sends, hstep, hsent⟩ := next_eq_some h
  exact ⟨sends, step_cases hstep, hsent⟩

/-- A connection behind a descriptor was there before or has just been accepted. -/
theorem step_peer {i : Input} (hstep : Step cfg s i t sends) {fd conn : ℕ}
    (h : t.peer fd = some conn) :
    s.peer fd = some conn ∨ conn = s.accepted ∧ i = .connection fd true := by
  cases hstep with
  | accept curr new hvisit hfresh =>
    by_cases hfd : fd = new
    · subst hfd
      have hsame : some s.accepted = some conn := (Function.update_self fd _ s.peer).symm.trans h
      exact Or.inr ⟨(Option.some.inj hsame).symm, rfl⟩
    · exact Or.inl ((Function.update_of_ne hfd _ s.peer).symm.trans h)
  | disconnect curr fd locals hvisit hfd hpeer =>
    exact Or.inl (settle_peer (disconnectClient fd s.clients).1 (disconnectClient fd s.clients).2 h)
  | identify curr fd bytes locals r hvisit hfd hpeer hne hlen hflag hr =>
    exact Or.inl (settle_peer r.clients r.closes h)
  | _ => exact Or.inl h

/-- The invariant rule for the server: an invariant is checked on the listed steps. -/
theorem run_invariant (P : List (Server × Input) → Server → Prop) (hinit : P [] (initial cfg))
    (hstep : ∀ tr s i t sends, Run cfg tr s → P tr s → Step cfg s i t sends →
      sent cfg s i = sends → P (tr ++ [(s, i)]) t)
    {tr : List (Server × Input)} (h : Run cfg tr t) : P tr t := by
  refine Path.invariant P hinit ?_ h
  intro tr s i t hpath hP hnext
  obtain ⟨sends, hcase, hsent⟩ := next_cases hnext
  exact hstep tr s i t sends hpath hP hcase hsent

end Inversion

/-- A list of inputs that does not stop the server gives a run, and what is
computed of its trace and its last state is true of it. -/
theorem run_of_inputs (cfg : Config) (P : List (Server × Input) → Server → Bool) (is : List Input)
    (h : (exec (next cfg) (initial cfg) is).any
      (P (traceOf (next cfg) (initial cfg) is)) = true) :
    ∃ tr t, Run cfg tr t ∧ P tr t = true :=
  exists_path (next cfg) P h

/-- A server whose sockets got the first free descriptors. -/
def usual : Config where
  fdTCP := 3
  fdUDP := 4
  sendBuffer := Block.fill bufferServerLen 0
  stack := ⟨none⟩
  tcp_ne_stdin := by decide
  udp_ne_stdin := by decide
  udp_ne_tcp := by decide

/-- The inputs of one round: what `select` reports, and for every descriptor up to the
bound what its handler receives. -/
def roundInputs (bound : ℕ) (served : List (ℕ × Input)) : List Input :=
  .select (served.map Prod.fst).toFinset ::
    ((List.range (bound + 1)).map fun fd => (served.lookup fd).getD .tick) ++ [.tick]

/-- A read with nothing in the memory that the handlers find, and with calls that leave
the dead word alone. -/
def readInput (bytes : Bytes) : Input := .read bytes ⟨[], [], []⟩

/-- The eleven bytes of an ID of one letter. -/
def idMessage (letter : UInt8) : Bytes := letter :: List.replicate idLen 0

/-- The 57 bytes of a subscribe request for a topic of one letter. -/
def subscribeMessage (letter sf : UInt8) : Bytes :=
  115 :: letter :: List.replicate topicLen 0 ++ [sf, 0, 0, 0, 0]

/-- A datagram that publishes a string of one letter to a topic of one letter. -/
def publishInput (letter content : UInt8) : Input :=
  .datagram (letter :: List.replicate (topicLen - 1) 0 ++ [3, content])
    (.ofSender ⟨127, 0, 0, 1⟩ 8080) ⟨Block.fill _ 0, Block.fill _ 0, Block.fill _ 0⟩

end TopicBroker.MainLoop
