import TopicBroker.CommandLine
import TopicBroker.ReceiveLoop
import TopicBroker.RoundTrip
import TopicBroker.Sessions

/-!
The server with its subscribers. A connection is a pair of byte streams, and every
read and every `recv` takes some bytes off the front of one. The loop of subscriber.c is
cut at its system calls: it handles its console, then it receives until a carriage
return. As long as a `recv` returns one frame, what the subscribers of a client have
printed is what was published for it, and the rest is under way or waits.
-/
namespace TopicBroker.Network

open ByteBlocks ByteOrder Message Frames Registry Publish Identify Identity Client CommandLine ReceiveLoop
  RoundTrip MainLoop Runs Handshakes Readings Release PubSub Refinement ExactlyOnce Sessions

/-- A subscriber and the bytes that are under way on its connection. -/
structure Party where
  process : Subscriber
  wrongName : Bool
  running : Bool
  up : Bytes
  down : Bytes
  printed : List Printed

/-- The test of subscriber.c looks at the name of the program and not at the command. -/
def wrongCommand (argv : Bytes) : Bool :=
  strncmp argv subscribeText cmdSubscribe = 1 ∨
    strncmp argv unsubscribeText cmdUnsubscribe = 1 ∨ strncmp argv exitText cmdExit = 1

/-- A subscriber that has connected and sent its ID. -/
def started (process : Subscriber) (argv argument : Bytes) : Party where
  process := process
  wrongName := wrongCommand argv
  running := true
  up := (sendId process.sendBuffer argument).bytes
  down := []
  printed := []

/-- The console's part of a round; `left` is what a command leaves in `sendBuffer`. A null
pointer that is read ends the subscriber, and so does whatever else is not defined. -/
def Party.console (p : Party) (console : Console) (left : Frame) : Option Party :=
  if p.running = true ∧ p.process.receiving = false then
    match processInput p.process.sendBuffer console with
    | .ok (some message) => some { p with
        process := { p.process with sendBuffer := left }
        up := p.up ++ message
        running := !p.wrongName }
    | .ok none => some { p with running := !p.wrongName }
    | .error _ => some { p with running := false }
  else none

/-- One `recv` that returns the given number of bytes. -/
def Party.recv (p : Party) (count : ℕ) (beyond : Frame) (past : Bytes) : Option Party :=
  if p.running = true ∧ (p.process.receiving = true ∨ p.wrongName = false) ∧
      count ≤ p.down.length ∧ count ≤ bufferClientLen then
    match recvStep p.process ⟨p.down.take count, beyond⟩ with
    | .ok (process, frame) => some { p with
        process := process
        down := p.down.drop count
        printed := p.printed ++ (frame.map (processMessage past)).toList }
    | .error (.exit _) => some { p with running := false }
    | .error _ => none
  else none

structure Net where
  server : Server
  parties : List Party

/-- Subscribers are numbered in the order in which they connect, as the server numbers
the connections that it accepts. `fail` ends one of them at any time. -/
inductive Event
  | start (process : Subscriber) (argv argument : Bytes)
  | console (conn : ℕ) (console : Console) (left : Frame)
  | recv (conn count : ℕ) (beyond : Frame) (past : Bytes)
  | fail (conn : ℕ)
  | server (i : Input)

/-- The server has closed the connection. -/
def Hung (s : Server) (conn : ℕ) : Prop :=
  conn < s.accepted ∧ ∀ fd ≤ s.fdClients, s.peer fd ≠ some conn

instance (s : Server) (conn : ℕ) : Decidable (Hung s conn) :=
  inferInstanceAs (Decidable (conn < s.accepted ∧ ∀ fd ≤ s.fdClients, s.peer fd ≠ some conn))

/-- What the server takes off the streams: it accepts a connection that was made, and
reads nothing only when the subscriber has ended and all it sent was read. -/
def Net.taken (n : Net) (i : Input) : Option (List Party) :=
  match i, n.server.pc with
  | .connection _ _, _ => if n.server.accepted < n.parties.length then some n.parties else none
  | .read bytes _, .scan _ fd =>
    (n.server.peer fd).bind fun conn => (n.parties[conn]?).bind fun p =>
      if bytes <+: p.up ∧ (bytes = [] → p.up = [] ∧ p.running = false) then
        some (n.parties.set conn { p with up := p.up.drop bytes.length })
      else none
  | _, _ => some n.parties

/-- What the server sends joins the streams. -/
def Net.given (cfg : Config) (n : Net) (i : Input) (conn : ℕ) (p : Party) : Party :=
  { p with down := p.down ++ (sentOnOf cfg conn (n.server, i)).flatMap Block.bytes }

def Net.next (cfg : Config) (n : Net) : Event → Option Net
  | .start process argv argument =>
    if process.receiving = true then none
    else some { n with parties := n.parties ++ [started process argv argument] }
  | .console conn console left =>
    (n.parties[conn]?).bind fun p => (p.console console left).map fun p =>
      { n with parties := n.parties.set conn p }
  | .recv conn count beyond past =>
    (n.parties[conn]?).bind fun p =>
      if count = 0 ∧ ¬ (Hung n.server conn ∧ p.down = []) then none
      else (p.recv count beyond past).map fun p => { n with parties := n.parties.set conn p }
  | .fail conn =>
    (n.parties[conn]?).bind fun p =>
      some { n with parties := n.parties.set conn { p with running := false } }
  | .server i =>
    (n.taken i).bind fun parties => (MainLoop.next cfg n.server i).map fun t =>
      ⟨t, parties.mapIdx (n.given cfg i)⟩

def NetRun (cfg : Config) (tr : List (Net × Event)) (n : Net) : Prop :=
  Path (fun a e b => a.next cfg e = some b) ⟨initial cfg, []⟩ tr n

/-- The server's part of a step. -/
def serverStep (e : Net × Event) : Option (Server × Input) :=
  match e.2 with
  | .server i => some (e.1.server, i)
  | _ => none

def serverTrace (tr : List (Net × Event)) : List (Server × Input) := tr.filterMap serverStep

/-- The line is what the frame is printed as, whatever memory lies behind it. -/
def Shown (line : Printed) (frame : Frame) : Prop := ∃ past, line = processMessage past frame

/-- Of the frames sent to a subscriber it has printed some and the others are under way. -/
def Fed (frames : List Frame) (p : Party) : Prop :=
  ∃ got flight, frames = got ++ flight ∧ p.down = flight.flatMap Block.bytes ∧
    List.Forall₂ Shown p.printed got

section Parties

variable {frames : List Frame} {p p' : Party}

theorem Fed.given (h : Fed frames p) (more : List Frame) :
    Fed (frames ++ more) { p with down := p.down ++ more.flatMap Block.bytes } := by
  obtain ⟨got, flight, hframes, hdown, hprinted⟩ := h
  refine ⟨got, flight ++ more, ?_, ?_, hprinted⟩
  · rw [hframes, List.append_assoc]
  · rw [List.flatMap_append, ← hdown]

theorem Fed.unmoved (h : Fed frames p) (hdown : p'.down = p.down) (hprinted : p'.printed = p.printed) :
    Fed frames p' := by
  unfold Fed
  rw [hdown, hprinted]
  exact h

theorem console_unmoved {console : Console} {left : Frame} (h : p.console console left = some p') :
    p'.down = p.down ∧ p'.printed = p.printed := by
  unfold Party.console at h
  split at h
  · split at h
    · cases h
      exact ⟨rfl, rfl⟩
    · cases h
      exact ⟨rfl, rfl⟩
    · cases h
      exact ⟨rfl, rfl⟩
  · cases h

/-- A `recv` of one frame prints it. -/
theorem Fed.recv (h : Fed frames p) (hframes : ∀ f ∈ frames, Terminated f) {count : ℕ}
    {beyond : Frame} {past : Bytes} (hcount : count = 0 ∨ count = formatLen)
    (hrecv : p.recv count beyond past = some p') : Fed frames p' := by
  unfold Party.recv at hrecv
  split_ifs at hrecv with hcond
  obtain ⟨_, _, hle, _⟩ := hcond
  rcases hcount with rfl | rfl
  · have hclosed : recvStep p.process ⟨p.down.take 0, beyond⟩ = .error (.exit false) := rfl
    rw [hclosed] at hrecv
    cases hrecv
    exact h.unmoved rfl rfl
  · obtain ⟨got, flight, hsplit, hdown, hprinted⟩ := h
    cases flight with
    | nil =>
      rw [hdown] at hle
      exact absurd hle (by decide)
    | cons f rest =>
      rw [List.flatMap_cons] at hdown
      have hchunk : p.down.take formatLen = f.bytes := by
        rw [hdown]
        exact List.take_left' f.size
      have hrest : p.down.drop formatLen = rest.flatMap Block.bytes := by
        rw [hdown]
        exact List.drop_left' f.size
      have hcr : carriageReturn ∈ f.bytes :=
        List.mem_of_getLast? (hframes f (by rw [hsplit]; simp))
      have hend : recvStep p.process ⟨p.down.take formatLen, beyond⟩ =
          .ok (⟨beyond, f, false⟩, some f) := by
        rw [hchunk, recvStep_end (le_of_eq f.size) hcr, Block.receive_full]
      rw [hend] at hrecv
      cases hrecv
      refine ⟨got ++ [f], rest, ?_, hrest, ?_⟩
      · rw [hsplit, List.append_assoc, List.singleton_append]
      · exact List.rel_append hprinted (List.Forall₂.cons ⟨past, rfl⟩ List.Forall₂.nil)

end Parties

/-- What a subscriber does in an event of its own. -/
inductive Acts : Event → ℕ → Party → Party → Prop
  | console {conn : ℕ} {console : Console} {left : Frame} {p p' : Party}
      (hconsole : p.console console left = some p') : Acts (.console conn console left) conn p p'
  | recv {conn count : ℕ} {beyond : Frame} {past : Bytes} {p p' : Party}
      (hrecv : p.recv count beyond past = some p') : Acts (.recv conn count beyond past) conn p p'
  | fail {conn : ℕ} {p : Party} : Acts (.fail conn) conn p { p with running := false }

/-- What a step of the network can do. -/
inductive NetStep (cfg : Config) (n : Net) : Event → Net → Prop
  | start (process : Subscriber) (argv argument : Bytes) :
      NetStep cfg n (.start process argv argument)
        { n with parties := n.parties ++ [started process argv argument] }
  | party {e : Event} {conn : ℕ} {p p' : Party} (hp : n.parties[conn]? = some p)
      (hacts : Acts e conn p p') : NetStep cfg n e { n with parties := n.parties.set conn p' }
  | server {i : Input} {parties : List Party} {t : Server} (htaken : n.taken i = some parties)
      (hnext : MainLoop.next cfg n.server i = some t) :
      NetStep cfg n (.server i) ⟨t, parties.mapIdx (n.given cfg i)⟩

section Runs

variable {cfg : Config} {tr : List (Net × Event)} {n m : Net} {e : Event}

theorem serverTrace_concat (tr : List (Net × Event)) (e : Net × Event) :
    serverTrace (tr ++ [e]) = serverTrace tr ++ (serverStep e).toList := by
  rw [serverTrace, serverTrace, List.filterMap_append]
  cases h : serverStep e <;> simp [h]

theorem net_cases (h : n.next cfg e = some m) : NetStep cfg n e m := by
  cases e with
  | server i =>
    simp only [Net.next, Option.bind_eq_some_iff, Option.map_eq_some_iff] at h
    obtain ⟨parties, htaken, t, hnext, rfl⟩ := h
    exact NetStep.server htaken hnext
  | start process argv argument =>
    simp only [Net.next] at h
    split at h
    · cases h
    · cases h
      exact NetStep.start process argv argument
  | console conn console left =>
    simp only [Net.next, Option.bind_eq_some_iff, Option.map_eq_some_iff] at h
    obtain ⟨p, hp, p', hconsole, rfl⟩ := h
    exact NetStep.party hp (Acts.console hconsole)
  | recv conn count beyond past =>
    simp only [Net.next, Option.bind_eq_some_iff] at h
    obtain ⟨p, hp, h⟩ := h
    split at h
    · cases h
    · obtain ⟨p', hrecv, rfl⟩ := Option.map_eq_some_iff.mp h
      exact NetStep.party hp (Acts.recv hrecv)
  | fail conn =>
    simp only [Net.next, Option.bind_eq_some_iff] at h
    obtain ⟨p, hp, h⟩ := h
    cases h
    exact NetStep.party hp Acts.fail

theorem Acts.quiet {conn : ℕ} {p p' : Party} (h : Acts e conn p p') : serverStep (n, e) = none := by
  cases h <;> rfl

/-- The server of a network runs. -/
theorem run_server (h : NetRun cfg tr n) : Run cfg (serverTrace tr) n.server := by
  refine Path.invariant (fun tr n => Run cfg (serverTrace tr) n.server) ?_ ?_ h
  · exact Runs.Path.refl _
  · intro tr n e m _ ih hnext
    rw [serverTrace_concat]
    cases net_cases hnext with
    | start process argv argument =>
      rw [serverStep, Option.toList_none, List.append_nil]
      exact ih
    | party hp hacts =>
      rw [hacts.quiet, Option.toList_none, List.append_nil]
      exact ih
    | server htaken hserver => exact Path.tail ih hserver

theorem accepted_cases {s t : Server} {i : Input} (h : MainLoop.next cfg s i = some t) :
    t.accepted = s.accepted ∨ ((∃ fd nodelay, i = .connection fd nodelay) ∧
      t.accepted = s.accepted + 1) := by
  obtain ⟨sends, hstep, _⟩ := next_cases h
  cases hstep with
  | accept curr new hvisit hfresh => exact Or.inr ⟨⟨new, true, rfl⟩, rfl⟩
  | _ => exact Or.inl rfl

/-- Taking bytes off a stream changes nothing that a subscriber has received. -/
theorem taken_cases {i : Input} {parties : List Party} (h : n.taken i = some parties) :
    parties.length = n.parties.length ∧
    ((∃ fd nodelay, i = .connection fd nodelay) → n.server.accepted < n.parties.length) ∧
    ∀ (k : ℕ) (p : Party), parties[k]? = some p →
      ∃ q : Party, n.parties[k]? = some q ∧ p.down = q.down ∧ p.printed = q.printed := by
  have hsame : ∀ (k : ℕ) (p : Party), n.parties[k]? = some p →
      ∃ q : Party, n.parties[k]? = some q ∧ p.down = q.down ∧ p.printed = q.printed :=
    fun k p hp => ⟨p, hp, rfl, rfl⟩
  unfold Net.taken at h
  split at h
  · split at h
    · rename_i hlt
      cases h
      exact ⟨rfl, fun _ => hlt, hsame⟩
    · cases h
  · simp only [Option.bind_eq_some_iff] at h
    obtain ⟨conn, _, q, hq, h⟩ := h
    split at h
    · cases h
      refine ⟨List.length_set, ?_, fun k p hp => ?_⟩
      · rintro ⟨_, _, hi⟩
        cases hi
      by_cases hk : conn = k
      · subst hk
        rw [List.getElem?_set_self (List.getElem?_eq_some_iff.mp hq).1] at hp
        cases hp
        exact ⟨q, hq, rfl, rfl⟩
      · rw [List.getElem?_set_ne hk] at hp
        exact hsame k p hp
    · cases h
  · rename_i hno _
    cases h
    exact ⟨rfl, fun ⟨fd, nodelay, hi⟩ => (hno fd nodelay hi).elim, hsame⟩

/-- Every connection that the server has accepted is a subscriber's. -/
theorem run_accepted (h : NetRun cfg tr n) : n.server.accepted ≤ n.parties.length := by
  refine Path.invariant (fun _ n => n.server.accepted ≤ n.parties.length) ?_ ?_ h
  · exact le_rfl
  · intro tr n e m _ ih hnext
    cases net_cases hnext with
    | start process argv argument =>
      rw [List.length_append, List.length_singleton]
      exact Nat.le_succ_of_le ih
    | party hp hacts =>
      rw [List.length_set]
      exact ih
    | server htaken hserver =>
      obtain ⟨hlength, hroom, _⟩ := taken_cases htaken
      rw [List.length_mapIdx, hlength]
      rcases accepted_cases hserver with hsame | ⟨hconnection, hmore⟩
      · exact hsame.trans_le ih
      · exact hmore.trans_le (hroom hconnection)

/-- Nothing is sent on a connection before it is accepted. -/
theorem sentOn_new {T : List (Server × Input)} {s : Server} (h : Run cfg T s) {conn : ℕ}
    (hconn : s.accepted ≤ conn) : sentOn cfg conn T = [] := by
  refine Path.invariant (fun T s => s.accepted ≤ conn → sentOn cfg conn T = []) (fun _ => rfl) ?_
    h hconn
  intro T s i t hrun ih hnext hconn
  obtain ⟨sends, hstep, _⟩ := next_cases hnext
  have hbefore := (step_accepted hstep).trans hconn
  rw [sentOn_concat, ih hbefore, sentOnOf_dead, List.append_nil]
  intro fd hfd
  have hlt := (run_numbered hrun).below fd conn hfd
  omega

end Runs

/-- The line that a datagram stands for. -/
def announced (bytes : Bytes) (addr : SockaddrIn) : Printed :=
  match valueOf (publicationOf (padded bytes)).type (publicationOf (padded bytes)).content with
  | some value => .stdout
      ⟨inetNtoa addr.sinAddr, ntohs addr.sinPort, (publicationOf (padded bytes)).topic, value⟩
  | none => .stderr "Invalid message.\n"

def lineOf (frame : Frame) : Printed := processMessage [] frame

/-- The action that a step stands for, with lines for messages. -/
def reportOf (s : Server) (i : Input) : Option (Action Bytes ℤ Bytes Printed) :=
  match i with
  | .datagram bytes addr _ => some (.publish (topicText bytes) (announced bytes addr))
  | i => (actionOf s i).map (Action.map lineOf)

def reports (tr : List (Server × Input)) : List (Action Bytes ℤ Bytes Printed) :=
  tr.filterMap fun e => reportOf e.1 e.2

section Frames

variable {cfg : Config} {tr : List (Server × Input)} {s : Server}

theorem ofSender_ntohs (addr : SockaddrIn) :
    SockaddrIn.ofSender addr.sinAddr (ntohs addr.sinPort) = addr := by
  have hport : htons (ntohs addr.sinPort) = addr.sinPort := ntohs_htons addr.sinPort
  rw [SockaddrIn.ofSender, hport]

/-- A frame of the server is printed as the line of its datagram. -/
theorem processMessage_frameOf (past bytes : Bytes) (addr : SockaddrIn) :
    processMessage past (frameOf (padded bytes) addr) = announced bytes addr := by
  have hdecodes := frameOf_decodes (padded bytes) addr.sinAddr (ntohs addr.sinPort)
  rw [ofSender_ntohs] at hdecodes
  exact hdecodes.printed past

theorem reports_eq (tr : List (Server × Input)) :
    reports tr = (actions tr).map (Action.map lineOf) := by
  rw [reports, actions, List.map_filterMap]
  apply List.filterMap_congr
  rintro ⟨s, i⟩ _
  cases i with
  | datagram bytes addr locals =>
    simp only [reportOf, actionOf, Option.map_some, Action.map, lineOf, processMessage_frameOf]
  | _ => rfl

theorem actionOf_publish {i : Input} {topic : Bytes} {frame : Frame}
    (h : actionOf s i = some (.publish topic frame)) :
    ∃ bytes addr, frame = frameOf (padded bytes) addr := by
  unfold actionOf at h
  split at h
  · cases h
    exact ⟨_, _, rfl⟩
  · split at h
    · cases h
    · cases h
    · generalize Requests.requestOf _ _ = request at h
      cases request <;> cases h
  · cases h

/-- What is sent is built from datagrams. -/
theorem sent_frameOf (h : Run cfg tr s) (hfits : ∀ e ∈ tr, Fits e.1 e.2) (hword : AllWorded tr)
    {conn : ℕ} {frame : Frame} (hframe : frame ∈ sentOn cfg conn tr) :
    ∃ bytes addr, frame = frameOf (padded bytes) addr := by
  obtain ⟨⟨s₁, i⟩, hmem, hframe⟩ := List.mem_flatMap.mp hframe
  obtain ⟨x, hx, rfl⟩ := List.mem_map.mp hframe
  obtain ⟨pre, post, rfl⟩ := List.append_of_mem hmem
  obtain ⟨t, hbefore, hnext, _⟩ := Path.split h
  obtain ⟨sends, hstep, hsent⟩ := next_cases hnext
  have hmirrors := run_mirrors hbefore fun e he => hfits e (List.mem_append_left _ he)
  have hsends := (step_sends_iff hstep hmirrors (hfits _ hmem)).mpr hword.worded
  have hx := (List.mem_filter.mp hx).1
  rw [hsent, hsends] at hx
  obtain ⟨d, hd, rfl⟩ := List.mem_map.mp hx
  cases hact : actionOf s₁ i with
  | none =>
    rw [hact] at hd
    cases hd
  | some x =>
    rw [hact] at hd
    obtain ⟨topic, hpublish⟩ := deliveries_published hd
    have hx : [x] = (actionOf s₁ i).toList := by rw [hact, Option.toList_some]
    rw [hx, ← actions_append] at hpublish
    obtain ⟨e, _, he⟩ := List.mem_filterMap.mp hpublish
    exact actionOf_publish he

end Frames

/-- A `recv` returns one frame, or nothing when the connection is closed. -/
def WholeRecv : Event → Prop
  | .recv _ count _ _ => count = 0 ∨ count = formatLen
  | _ => True

instance (e : Event) : Decidable (WholeRecv e) :=
  match e with
  | .recv _ count _ _ => inferInstanceAs (Decidable (count = 0 ∨ count = formatLen))
  | .start .. | .console .. | .fail .. | .server .. => isTrue trivial

/-- What the subscriber of a connection has printed. -/
def Net.printed (n : Net) (conn : ℕ) : List Printed := (n.parties[conn]?).elim [] Party.printed

section Delivery

variable {cfg : Config} {tr : List (Net × Event)} {n m : Net} {e : Event} {conn : ℕ} {p p' : Party}

theorem Fed.acts (hacts : Acts e conn p p') (hrecv : WholeRecv e) {frames : List Frame}
    (h : Fed frames p) (hframes : ∀ f ∈ frames, Terminated f) : Fed frames p' := by
  cases hacts with
  | console hconsole =>
    obtain ⟨hdown, hprinted⟩ := console_unmoved hconsole
    exact h.unmoved hdown hprinted
  | recv hstep => exact h.recv hframes hrecv hstep
  | fail => exact h.unmoved rfl rfl

/-- One step of the network feeds every subscriber with what is sent on its connection. -/
theorem step_fed (hrun : NetRun cfg tr n) (hstep : NetStep cfg n e m) (hrecv : WholeRecv e)
    (hframes : ∀ k, ∀ f ∈ sentOn cfg k (serverTrace tr), Terminated f)
    (ih : ∀ (k : ℕ) (p : Party), n.parties[k]? = some p → Fed (sentOn cfg k (serverTrace tr)) p) :
    ∀ (k : ℕ) (p : Party), m.parties[k]? = some p →
      Fed (sentOn cfg k (serverTrace (tr ++ [(n, e)]))) p := by
  intro k p hp
  rw [serverTrace_concat]
  cases hstep with
  | start process argv argument =>
    rw [serverStep, Option.toList_none, List.append_nil]
    by_cases hk : k < n.parties.length
    · rw [List.getElem?_append_left hk] at hp
      exact ih k p hp
    · have hnew : p = started process argv argument := by
        rw [List.getElem?_append_right (not_lt.mp hk)] at hp
        exact List.mem_singleton.mp (List.mem_of_getElem? hp)
      rw [hnew, sentOn_new (run_server hrun) ((run_accepted hrun).trans (not_lt.mp hk))]
      exact ⟨[], [], rfl, rfl, List.Forall₂.nil⟩
  | @party e conn q q' hq hacts =>
    rw [hacts.quiet, Option.toList_none, List.append_nil]
    by_cases hk : conn = k
    · subst hk
      rw [List.getElem?_set_self (List.getElem?_eq_some_iff.mp hq).1] at hp
      cases hp
      exact (ih conn q hq).acts hacts hrecv (hframes conn)
    · rw [List.getElem?_set_ne hk] at hp
      exact ih k p hp
  | server htaken hserver =>
    rw [serverStep, Option.toList_some, sentOn_concat]
    obtain ⟨_, _, hsame⟩ := taken_cases htaken
    rw [List.getElem?_mapIdx] at hp
    obtain ⟨p', hp', rfl⟩ := Option.map_eq_some_iff.mp hp
    obtain ⟨q, hq, hdown, hprinted⟩ := hsame k p' hp'
    exact ((ih k q hq).unmoved hdown hprinted).given _

/-- While every `recv` returns one frame, a subscriber has printed the frames sent on its
connection, in their order, up to those that are under way. -/
theorem run_fed (h : NetRun cfg tr n) (hrecv : ∀ e ∈ tr, WholeRecv e.2)
    (hfits : ∀ e ∈ serverTrace tr, Fits e.1 e.2) (hword : AllWorded (serverTrace tr)) (k : ℕ)
    (p : Party) (hp : n.parties[k]? = some p) : Fed (sentOn cfg k (serverTrace tr)) p := by
  refine Path.invariant (fun tr n => (∀ e ∈ tr, WholeRecv e.2) →
    (∀ e ∈ serverTrace tr, Fits e.1 e.2) → AllWorded (serverTrace tr) →
    ∀ (k : ℕ) (p : Party), n.parties[k]? = some p → Fed (sentOn cfg k (serverTrace tr)) p)
    ?_ ?_ h hrecv hfits hword k p hp
  · intro _ _ _ k p hp
    cases hp
  · intro tr n e m hrun ih hnext hrecv hfits hword
    have hrecv₁ : ∀ e ∈ tr, WholeRecv e.2 := fun e he => hrecv e (List.mem_append_left _ he)
    have hfits₁ : ∀ e ∈ serverTrace tr, Fits e.1 e.2 := by
      intro e he
      apply hfits
      rw [serverTrace_concat]
      exact List.mem_append_left _ he
    have hword₁ : AllWorded (serverTrace tr) := by
      rw [serverTrace_concat] at hword
      cases hs : serverStep (n, e) with
      | none => rwa [hs, Option.toList_none, List.append_nil] at hword
      | some x =>
        rw [hs, Option.toList_some] at hword
        exact hword.of_concat.1
    refine step_fed hrun (net_cases hnext) (hrecv (n, e) (by simp)) ?_ (ih hrecv₁ hfits₁ hword₁)
    intro k f hf
    obtain ⟨bytes, addr, rfl⟩ := sent_frameOf (run_server hrun) hfits₁ hword₁ hf
    exact frameOf_terminated _ _

/-- A subscriber's lines are those of the frames, whatever memory lies behind them. -/
theorem Fed.printed_append {frames : List Frame} (h : Fed frames p)
    (hframes : ∀ f ∈ frames, ∃ bytes addr, f = frameOf (padded bytes) addr) :
    ∃ flight : List Frame, p.down = flight.flatMap Block.bytes ∧
      p.printed ++ flight.map lineOf = frames.map lineOf := by
  obtain ⟨got, flight, rfl, hdown, hprinted⟩ := h
  refine ⟨flight, hdown, ?_⟩
  have hgot : p.printed = got.map lineOf := by
    have hplain : ∀ f ∈ got, ∀ past, processMessage past f = lineOf f := by
      intro f hf past
      obtain ⟨bytes, addr, rfl⟩ := hframes f (List.mem_append_left _ hf)
      rw [lineOf, processMessage_frameOf, processMessage_frameOf]
    generalize p.printed = lines at hprinted
    clear hframes hdown
    induction hprinted with
    | nil => rfl
    | cons hshown _ ih =>
      obtain ⟨past, rfl⟩ := hshown
      rw [List.map_cons, hplain _ (List.mem_cons_self ..),
        ih fun f hf => hplain f (List.mem_cons_of_mem _ hf)]
  rw [hgot, List.map_append]

/-- The connections of a record are those of subscribers. -/
theorem sessions_lt {T : List (Server × Input)} {s : Server} (h : Run cfg T s) (hturn : InTurn (log T))
    {j : ℕ} (hconn : conn ∈ sessions cfg j T) : conn < s.accepted := by
  obtain ⟨past, hsessions, hpast⟩ := (run_divided h hturn j).past
  rw [hsessions] at hconn
  rcases List.mem_append.mp hconn with hold | hnow
  · exact (hpast conn hold).1
  · obtain ⟨c, _, hheld⟩ := Option.bind_eq_some_iff.mp (Option.mem_toList.mp hnow)
    unfold Sessions.connOf at hheld
    split at hheld
    · exact (run_numbered h).below _ _ hheld
    · cases hheld

/-- What the subscribers of a client have printed, with the lines under way to them and
those that wait at the server, is what was published for the client: the line of every
datagram once, in order. -/
theorem subscribers_print_due (h : NetRun cfg tr n) (hrecv : ∀ e ∈ tr, WholeRecv e.2)
    (hfits : ∀ e ∈ serverTrace tr, Fits e.1 e.2) (hturn : InTurn (log (serverTrace tr)))
    (hword : AllWorded (serverTrace tr)) {j : ℕ} {c : Registry.Client}
    (hc : n.server.clients[j]? = some c) :
    ∃ (flight : ℕ → List Frame) (pending : List Printed),
      (∀ conn ∈ sessions cfg j (serverTrace tr), ∃ p : Party, n.parties[conn]? = some p ∧
        p.down = (flight conn).flatMap Block.bytes) ∧
      (sessions cfg j (serverTrace tr)).flatMap
          (fun conn => n.printed conn ++ (flight conn).map lineOf) ++ pending =
        due (idOf c) (reports (serverTrace tr)) ∧
      pending.length = c.inWaiting.length ∧ (c.sock ≠ -1 → pending = []) := by
  have hrun := run_server h
  have hdivided := run_divided hrun hturn j
  obtain ⟨hlength, hempty⟩ := pending_record (run_mirrors hrun hfits) (List.mem_of_getElem? hc)
  have hfed : ∀ conn, ∃ flight : List Frame, conn ∈ sessions cfg j (serverTrace tr) →
      (∃ p : Party, n.parties[conn]? = some p ∧ p.down = flight.flatMap Block.bytes) ∧
      n.printed conn ++ flight.map lineOf = (sentOn cfg conn (serverTrace tr)).map lineOf := by
    intro conn
    by_cases hconn : conn ∈ sessions cfg j (serverTrace tr)
    · have hlt := (sessions_lt hrun hturn hconn).trans_le (run_accepted h)
      obtain ⟨p, hp⟩ : ∃ p, n.parties[conn]? = some p := ⟨_, List.getElem?_eq_getElem hlt⟩
      obtain ⟨flight, hdown, hprinted⟩ := (run_fed h hrecv hfits hword conn p hp).printed_append
        fun f hf => sent_frameOf hrun hfits hword hf
      refine ⟨flight, fun _ => ⟨⟨p, hp, hdown⟩, ?_⟩⟩
      rw [Net.printed, hp, Option.elim_some, hprinted]
    · exact ⟨[], fun hmem => absurd hmem hconn⟩
  choose flight hflight using hfed
  refine ⟨flight, ((after (actions (serverTrace tr))).pending (idOf c)).map lineOf,
    fun conn hconn => (hflight conn hconn).1, ?_, ?_, ?_⟩
  · have hlines : (sessions cfg j (serverTrace tr)).flatMap
        (fun conn => n.printed conn ++ (flight conn).map lineOf) =
        (inbox cfg j (serverTrace tr)).map lineOf := by
      rw [hdivided.frames, List.map_flatMap]
      exact List.flatMap_congr fun conn hconn => (hflight conn hconn).2
    rw [hlines, ← List.map_append, reports_eq, due_map, ← received_append_pending,
      inbox_eq_received hrun hfits hturn hword hc]
  · rw [List.length_map, hlength]
  · intro hon
    rw [hempty hon, List.map_nil]

end Delivery

theorem subscribeLine_newline : ∀ b ∈ (subscribeText ++ [32, 116, 32, 49, 10]).dropLast, b ≠ newline := by
  simp [subscribeText, newline]

/-- The line subscribe t 1. -/
def subscribeLine : InputLine where
  bytes := subscribeText ++ [32, 116, 32, 49, 10]
  nonempty := by simp
  fits := by decide
  newline_last := subscribeLine_newline

/-- A subscriber is sent one frame, ends and misses another one, which the next
subscriber with its ID is sent. -/
def relayedEvents : List Event :=
  .start idle [46] [97] :: (roundInputs 5 [(3, .connection 5 true)] ++
    roundInputs 5 [(5, readInput (idMessage 97))]).map .server ++
  .console 0 (.line subscribeLine) (Block.fill formatLen 0) ::
    (roundInputs 5 [(5, readInput (subscribeMessage 116 1))] ++
      roundInputs 5 [(4, publishInput 116 120)]).map .server ++
  .recv 0 formatLen (Block.fill formatLen 0) [] :: .fail 0 ::
    (roundInputs 5 [(5, readInput [])] ++ roundInputs 5 [(4, publishInput 116 121)]).map .server ++
  .start idle [46] [97] :: (roundInputs 5 [(3, .connection 5 true)] ++
    roundInputs 5 [(5, readInput (idMessage 97))]).map .server ++
  [.recv 1 formatLen (Block.fill formatLen 0) []]

private theorem flight_nil {flight : List Frame} (h : flight.flatMap Block.bytes = []) :
    flight = [] := by
  cases flight with
  | nil => rfl
  | cons f rest =>
    have hnone := List.flatMap_eq_nil_iff.mp h f (List.mem_cons_self ..)
    have hsize := f.size
    rw [hnone] at hsize
    cases hsize

theorem subscribers_print_due_relayed :
    ∃ tr n c, NetRun usual tr n ∧ n.server.clients[0]? = some c ∧ (n.printed 0).length = 1 ∧
      n.printed 0 ++ n.printed 1 = due (idOf c) (reports (serverTrace tr)) := by
  obtain ⟨tr, n, hrun, hn⟩ := exists_path (Net.next usual) (fun tr n => decide
    ((n.server.clients[0]?).map Client.sock = some 5 ∧ (n.printed 0).length = 1 ∧
      sessions usual 0 (serverTrace tr) = [0, 1] ∧ n.parties.map Party.down = [[], []] ∧
      (∀ e ∈ tr, WholeRecv e.2) ∧ (∀ e ∈ serverTrace tr, Fits e.1 e.2) ∧
      Turns (log (serverTrace tr)) ∧ AllWorded (serverTrace tr)))
    (show (exec (Net.next usual) ⟨initial usual, []⟩ relayedEvents).any _ = true by decide +kernel)
  obtain ⟨hsock, hlength, hsessions, hdowns, hrecv, hfits, hturns, hword⟩ := of_decide_eq_true hn
  obtain ⟨c, hc, hsock⟩ := Option.map_eq_some_iff.mp hsock
  obtain ⟨flight, pending, hdown, hdue, _, honline⟩ :=
    subscribers_print_due hrun hrecv hfits (inTurn_of_turns hturns) hword hc
  have hflight : ∀ conn ∈ sessions usual 0 (serverTrace tr), flight conn = [] := by
    intro conn hconn
    obtain ⟨p, hp, hbytes⟩ := hdown conn hconn
    have hmem : p.down ∈ n.parties.map Party.down := List.mem_map_of_mem (List.mem_of_getElem? hp)
    rw [hdowns] at hmem
    apply flight_nil
    rw [← hbytes]
    simpa using hmem
  rw [hsessions] at hflight hdue
  rw [honline (by rw [hsock]; decide), List.append_nil] at hdue
  simp only [List.flatMap_cons, List.flatMap_nil, hflight 0 (by simp), hflight 1 (by simp),
    List.map_nil, List.append_nil] at hdue
  exact ⟨tr, n, c, hrun, hc, hlength, hdue⟩

end TopicBroker.Network
