import TopicBroker.Grammar
import TopicBroker.Network

/-!
From the subscribers to the server. The bytes of a connection reach the server in their
order and without loss, whatever its reads return. As long as every read returns one
message and IDs come in turn, the server takes each message for what it is: the first one
for the ID, and the others for the commands of the user, in their order.
-/
namespace TopicBroker.Upstream

open ByteBlocks ByteOrder Message Registry Requests Identify Client CommandLine CommandFraming Grammar MainLoop Runs
  ReceiveLoop Handshakes Readings Divisions ExactlyOnce Network

/-- What a subscriber says on its connection. -/
inductive Said
  | id (message : Bytes)
  | command (message : Bytes)
deriving DecidableEq

def Said.bytes : Said → Bytes
  | .id message => message
  | .command message => message

/-- What is said in a step on a connection. -/
def saidIn (k : ℕ) (e : Net × Network.Event) : Option Said :=
  match e.2 with
  | .start process _ argument =>
    if e.1.parties.length = k then some (.id (sendId process.sendBuffer argument).bytes) else none
  | .console conn console _ =>
    if conn = k then
      (e.1.parties[conn]?).bind fun p =>
        match processInput p.process.sendBuffer console with
        | .ok message => message.map .command
        | .error _ => none
    else none
  | _ => none

def said (k : ℕ) (tr : List (Net × Network.Event)) : List Said := tr.filterMap (saidIn k)

/-- The bytes that the server has read on a connection, read by read. -/
def readBytes (k : ℕ) (tr : List (Net × Network.Event)) : List Bytes :=
  (readings k (serverTrace tr)).map Reading.bytes

section Streams

variable {cfg : Config} {tr : List (Net × Network.Event)} {n m : Net} {e : Network.Event} {k : ℕ}
  {p p' : Party}

theorem said_concat (k : ℕ) (e : Net × Network.Event) :
    said k (tr ++ [e]) = said k tr ++ (saidIn k e).toList := by
  rw [said, said, List.filterMap_append]
  cases h : saidIn k e <;> simp [h]

theorem readBytes_concat (k : ℕ) (e : Net × Network.Event) :
    readBytes k (tr ++ [e]) = readBytes k tr ++
      (((serverStep e).bind (readingOf k)).map Reading.bytes).toList := by
  rw [readBytes, serverTrace_concat, readBytes]
  cases hs : serverStep e with
  | none => simp
  | some x =>
    rw [Option.toList_some, readings_append, List.map_append, Option.bind_some]
    cases readingOf k x <;> rfl

/-- The message of a command of the user. -/
inductive Requested : Said → Prop
  | subscribe (sendBuffer : Frame) (topic : Token) (sf : CInt) :
      Requested (.command (Client.subscribe sendBuffer topic sf).bytes)
  | unsubscribe (sendBuffer : Frame) (topic : Token) :
      Requested (.command (Client.unsubscribe sendBuffer topic).bytes)

/-- A subscriber says its ID first, and then commands. -/
def Opened (xs : List Said) : Prop :=
  ∃ (sendBuffer : Frame) (argument : Bytes) (rest : List Said),
    xs = .id (sendId sendBuffer argument).bytes :: rest ∧ ∀ x ∈ rest, Requested x

theorem Opened.append {xs more : List Said} (h : Opened xs) (hmore : ∀ x ∈ more, Requested x) :
    Opened (xs ++ more) := by
  obtain ⟨sendBuffer, argument, rest, rfl, hrest⟩ := h
  refine ⟨sendBuffer, argument, rest ++ more, rfl, ?_⟩
  intro x hx
  rcases List.mem_append.mp hx with hx | hx
  · exact hrest x hx
  · exact hmore x hx

/-- The console's messages are those of commands. -/
theorem processInput_requested {sendBuffer : Frame} {console : Console} {message : Bytes}
    (h : processInput sendBuffer console = .ok (some message)) : Requested (.command message) := by
  cases console with
  | idle => cases h
  | ended => cases h
  | line line =>
    simp only [processInput] at h
    split at h
    · cases h
    · split at h
      · split at h
        · rename_i topic flag _ _
          cases hsf : atoi flag.text with
          | error e =>
            rw [hsf] at h
            cases h
          | ok sf =>
            rw [hsf] at h
            cases h
            exact Requested.subscribe sendBuffer topic sf
        · cases h
      · split at h
        · split at h
          · rename_i topic _
            cases h
            exact Requested.unsubscribe sendBuffer topic
          · cases h
        · split at h
          · cases h
          · cases h

/-- The streams of a network: what was read on a connection, with what is under way, is
what was said, and nothing is said or read on a connection without a subscriber. -/
structure Streams (tr : List (Net × Network.Event)) (n : Net) (k : ℕ) : Prop where
  conserved : ∀ p : Party, n.parties[k]? = some p →
    (readBytes k tr).flatten ++ p.up = (said k tr).flatMap Said.bytes
  opened : k < n.parties.length → Opened (said k tr)
  blank : n.parties.length ≤ k → said k tr = [] ∧ readBytes k tr = []

/-- What the console puts on the stream is what is said. -/
theorem console_up {console : Console} {left : Frame} (hp : n.parties[k]? = some p)
    (h : p.console console left = some p') :
    p'.up = p.up ++ (saidIn k (n, .console k console left)).toList.flatMap Said.bytes := by
  unfold Party.console at h
  simp only [saidIn, if_true, hp, Option.bind_some]
  split at h
  · cases hrun : processInput p.process.sendBuffer console with
    | ok message =>
      rw [hrun] at h
      cases message with
      | none =>
        cases h
        simp
      | some message =>
        cases h
        simp [Said.bytes]
    | error e =>
      rw [hrun] at h
      cases h
      simp
  · cases h

theorem recv_up {count : ℕ} {beyond : Frame} {past : Bytes} (h : p.recv count beyond past = some p') :
    p'.up = p.up := by
  unfold Party.recv at h
  split at h
  · split at h
    · cases h
      rfl
    · cases h
      rfl
    · cases h
  · cases h

/-- What a subscriber does adds to its stream what it says. -/
theorem acts_up (hp : n.parties[k]? = some p) (h : Acts e k p p') :
    p'.up = p.up ++ (saidIn k (n, e)).toList.flatMap Said.bytes := by
  cases h with
  | console hconsole => exact console_up hp hconsole
  | recv hrecv => simpa [saidIn] using recv_up hrecv
  | fail => simp [saidIn]

/-- A subscriber says nothing on another connection, and says commands on its own. -/
theorem acts_said {conn : ℕ} (h : Acts e conn p p') :
    (conn ≠ k → saidIn k (n, e) = none) ∧ ∀ x ∈ saidIn k (n, e), Requested x := by
  cases h with
  | recv _ => exact ⟨fun _ => rfl, fun x hx => by cases hx⟩
  | fail => exact ⟨fun _ => rfl, fun x hx => by cases hx⟩
  | @console _ console left _ _ _ =>
    constructor
    · intro hne
      simp only [saidIn, if_neg hne]
    · intro x hx
      simp only [saidIn, Option.mem_def] at hx
      split at hx
      · obtain ⟨q, _, hx⟩ := Option.bind_eq_some_iff.mp hx
        split at hx
        · rename_i message hrun
          obtain ⟨bytes, rfl, rfl⟩ := Option.map_eq_some_iff.mp hx
          exact processInput_requested hrun
        · cases hx
      · cases hx

/-- What the server reads comes off the front of the stream. -/
theorem taken_up {i : Input} {parties : List Party} (h : n.taken i = some parties)
    (hp : parties[k]? = some p) : ∃ q : Party, n.parties[k]? = some q ∧
      q.up = ((readingOf k (n.server, i)).map Reading.bytes).toList.flatten ++ p.up := by
  unfold Net.taken at h
  split at h
  · split at h
    · cases h
      exact ⟨p, hp, by simp [readingOf]⟩
    · cases h
  · rename_i bytes locals curr fd hpc
    simp only [Option.bind_eq_some_iff] at h
    obtain ⟨conn, hpeer, q, hq, h⟩ := h
    split at h
    · rename_i hfront
      cases h
      by_cases hk : conn = k
      · subst hk
        rw [List.getElem?_set_self (List.getElem?_eq_some_iff.mp hq).1] at hp
        cases hp
        obtain ⟨rest, hrest⟩ := hfront.1
        refine ⟨q, hq, ?_⟩
        by_cases hne : bytes = []
        · subst hne
          simp [readingOf, hpc]
        · simp only [readingOf, hpc, hpeer, ne_eq, hne, not_false_eq_true, and_self, if_true,
            Option.map_some, Option.toList_some, List.flatten_cons, List.flatten_nil, List.append_nil]
          rw [← hrest, List.drop_left]
      · rw [List.getElem?_set_ne hk] at hp
        refine ⟨p, hp, ?_⟩
        have hother : readingOf k (n.server, .read bytes locals) = none := by
          simp only [readingOf, hpc, hpeer, Option.some.injEq, hk, and_false, if_false]
        rw [hother]
        rfl
    · cases h
  · rename_i i _ _ _ hread
    cases h
    refine ⟨p, hp, ?_⟩
    have hnone : readingOf k (n.server, i) = none := by
      unfold readingOf
      split
      · rename_i hi hpc
        exact (hread _ _ _ _ hi hpc).elim
      · rfl
    rw [hnone]
    rfl

theorem taken_blank {i : Input} {parties : List Party} (h : n.taken i = some parties)
    (hk : n.parties.length ≤ k) : readingOf k (n.server, i) = none := by
  unfold readingOf
  split
  · rename_i hi hpc
    cases hi
    simp only [Net.taken, show n.server.pc = _ from hpc, Option.bind_eq_some_iff] at h
    obtain ⟨conn, hpeer, q, hq, _⟩ := h
    have hlt := (List.getElem?_eq_some_iff.mp hq).1
    rw [if_neg]
    rintro ⟨_, hconn⟩
    rw [show n.server.peer _ = _ from hconn, Option.some.injEq] at hpeer
    omega
  · rfl

private theorem Streams.start (h : Streams tr n k) (process : Subscriber) (argv argument : Bytes) :
    Streams (tr ++ [(n, .start process argv argument)])
      { n with parties := n.parties ++ [started process argv argument] } k := by
  have hread : readBytes k (tr ++ [(n, .start process argv argument)]) = readBytes k tr := by
    rw [readBytes_concat, serverStep, Option.bind_none, Option.map_none, Option.toList_none,
      List.append_nil]
  have hsaid : said k (tr ++ [(n, .start process argv argument)]) =
      said k tr ++ (saidIn k (n, .start process argv argument)).toList := said_concat k _
  by_cases hk : n.parties.length = k
  · simp only [saidIn, if_pos hk, Option.toList_some] at hsaid
    obtain ⟨hnone, hunread⟩ := h.blank (le_of_eq hk)
    rw [hnone, List.nil_append] at hsaid
    constructor
    · intro p hp
      rw [← hk, List.getElem?_concat_length, Option.some.injEq] at hp
      subst hp
      rw [hread, hsaid, hunread]
      simp [started, Said.bytes]
    · intro _
      exact ⟨process.sendBuffer, argument, [], hsaid, fun x hx => absurd hx List.not_mem_nil⟩
    · intro hle
      rw [List.length_append, List.length_singleton] at hle
      omega
  · simp only [saidIn, if_neg hk, Option.toList_none, List.append_nil] at hsaid
    constructor
    · intro p hp
      have hlt : k < n.parties.length := by
        have hbound := (List.getElem?_eq_some_iff.mp hp).1
        rw [List.length_append, List.length_singleton] at hbound
        omega
      rw [List.getElem?_append_left hlt] at hp
      rw [hread, hsaid]
      exact h.conserved p hp
    · intro hlt
      rw [List.length_append, List.length_singleton] at hlt
      rw [hsaid]
      exact h.opened (by omega)
    · intro hle
      rw [List.length_append, List.length_singleton] at hle
      rw [hread, hsaid]
      exact h.blank (by omega)

private theorem Streams.acts {conn : ℕ} (h : Streams tr n k) (hp : n.parties[conn]? = some p)
    (hacts : Acts e conn p p') :
    Streams (tr ++ [(n, e)]) { n with parties := n.parties.set conn p' } k := by
  have hread : readBytes k (tr ++ [(n, e)]) = readBytes k tr := by
    rw [readBytes_concat, hacts.quiet, Option.bind_none, Option.map_none, Option.toList_none,
      List.append_nil]
  have hconn := (List.getElem?_eq_some_iff.mp hp).1
  obtain ⟨hother, hrequested⟩ := acts_said (k := k) (n := n) hacts
  constructor
  · intro q hq
    by_cases hk : conn = k
    · subst hk
      rw [List.getElem?_set_self hconn, Option.some.injEq] at hq
      subst hq
      rw [hread, said_concat, List.flatMap_append, acts_up hp hacts, ← List.append_assoc,
        h.conserved p hp]
    · rw [List.getElem?_set_ne hk] at hq
      rw [hread, said_concat, hother hk, Option.toList_none, List.append_nil]
      exact h.conserved q hq
  · intro hlt
    rw [List.length_set] at hlt
    rw [said_concat]
    exact (h.opened hlt).append fun x hx => hrequested x (Option.mem_toList.mp hx)
  · intro hle
    rw [List.length_set] at hle
    rw [hread, said_concat, hother (by omega), Option.toList_none, List.append_nil]
    exact h.blank hle

private theorem Streams.server {i : Input} {parties : List Party} {t : Server} (h : Streams tr n k)
    (htaken : n.taken i = some parties) :
    Streams (tr ++ [(n, .server i)]) ⟨t, parties.mapIdx (n.given cfg i)⟩ k := by
  have hread : readBytes k (tr ++ [(n, .server i)]) =
      readBytes k tr ++ ((readingOf k (n.server, i)).map Reading.bytes).toList := by
    rw [readBytes_concat, serverStep, Option.bind_some]
  have hsaid : said k (tr ++ [(n, .server i)]) = said k tr := by
    rw [said_concat, saidIn, Option.toList_none, List.append_nil]
  have hlength := (taken_cases htaken).1
  constructor
  · intro p hp
    rw [List.getElem?_mapIdx] at hp
    obtain ⟨q, hq, rfl⟩ := Option.map_eq_some_iff.mp hp
    obtain ⟨p₀, hp₀, hup⟩ := taken_up htaken hq
    have hbefore := h.conserved p₀ hp₀
    rw [hup, ← List.append_assoc] at hbefore
    rw [hread, hsaid, List.flatten_append]
    exact hbefore
  · intro hlt
    rw [List.length_mapIdx, hlength] at hlt
    rw [hsaid]
    exact h.opened hlt
  · intro hle
    rw [List.length_mapIdx, hlength] at hle
    rw [hread, hsaid, taken_blank htaken hle, Option.map_none, Option.toList_none, List.append_nil]
    exact h.blank hle

theorem run_streams (h : NetRun cfg tr n) (k : ℕ) : Streams tr n k := by
  refine Path.invariant (fun tr n => Streams tr n k) ?_ ?_ h
  · refine ⟨fun p hp => ?_, fun hlt => absurd hlt (Nat.not_lt_zero k), fun _ => ⟨rfl, rfl⟩⟩
    cases hp
  · intro tr n e m _ ih hnext
    cases net_cases hnext with
    | start process argv argument => exact ih.start process argv argument
    | party hp hacts => exact ih.acts hp hacts
    | server htaken _ => exact ih.server htaken

end Streams

section Flags

variable {cfg : Config} {tr : List (Server × Input)} {s : Server} {conn : ℕ}

/-- A read with something in it is a message. -/
theorem readingOf_some {i : Input} {r : Reading} (h : readingOf conn (s, i) = some r) :
    r.receiveID = s.receiveID ∧ ∃ handler id, eventOf s i = some (.message conn handler id) := by
  obtain ⟨curr, fd, locals, rfl, hpc, hne, hconn, hr⟩ := readingOf_eq h
  refine ⟨by rw [hr], dispatch s.receiveID r.bytes.length, presentedId s r.bytes, ?_⟩
  simp only [eventOf, hpc, if_neg hne, hconn, Option.map_some]

theorem readingOf_message {i : Input} {handler : Handler} {id : Bytes}
    (h : eventOf s i = some (.message conn handler id)) : ∃ r, readingOf conn (s, i) = some r := by
  unfold eventOf at h
  split at h
  · cases h
  · rename_i bytes locals curr fd hpc
    split_ifs at h with hne
    obtain ⟨conn', hpeer, hmessage⟩ := Option.map_eq_some_iff.mp h
    cases hmessage
    refine ⟨⟨s.receiveID, s.sendBuffer, locals.topic, bytes, fd, s.clients⟩, ?_⟩
    simp only [readingOf, hpc]
    exact if_pos ⟨hne, hpeer⟩
  · cases h

theorem silent_iff : Silent conn (log tr) ↔ readings conn tr = [] := by
  constructor
  · intro hsilent
    refine List.filterMap_eq_nil_iff.mpr ?_
    rintro ⟨s, i⟩ he
    cases hr : readingOf conn (s, i) with
    | none => rfl
    | some r =>
      obtain ⟨_, handler, id, hevent⟩ := readingOf_some hr
      exact absurd (List.mem_filterMap.mpr ⟨(s, i), he, hevent⟩) (hsilent handler id)
  · intro hnil handler id hmem
    obtain ⟨⟨s, i⟩, he, hevent⟩ := List.mem_filterMap.mp hmem
    obtain ⟨r, hr⟩ := readingOf_message hevent
    rw [readings, List.filterMap_eq_nil_iff] at hnil
    rw [hnil (s, i) he] at hr
    cases hr

/-- While IDs come in turn, the first read of a connection is taken for its ID and no
other one is. -/
theorem first_flagged (h : Run cfg tr s) (hturn : InTurn (log tr)) :
    ∀ r rest, readings conn tr = r :: rest →
      r.receiveID = true ∧ ∀ q ∈ rest, q.receiveID = false := by
  refine Path.invariant (fun tr _ => InTurn (log tr) → ∀ r rest, readings conn tr = r :: rest →
    r.receiveID = true ∧ ∀ q ∈ rest, q.receiveID = false) ?_ ?_ h hturn
  · intro _ r rest hnil
    cases hnil
  · intro tr s i t hrun ih _ hturn r rest hsplit
    rw [log_append] at hturn
    rw [readings_append] at hsplit
    cases hreading : readingOf conn (s, i) with
    | none =>
      rw [hreading, Option.toList_none, List.append_nil] at hsplit
      exact ih hturn.of_append r rest hsplit
    | some q =>
      rw [hreading, Option.toList_some] at hsplit
      obtain ⟨hflag, handler, id, hevent⟩ := readingOf_some hreading
      rw [hevent, Option.toList_some] at hturn
      -- the flag of this read tells whether the connection was silent before it
      have hfirst : q.receiveID = true ↔ readings conn tr = [] := by
        rw [hflag, receiveID_iff hrun, hturn (log tr) conn handler id [] rfl, silent_iff]
      cases hbefore : readings conn tr with
      | nil =>
        rw [hbefore, List.nil_append, List.cons.injEq] at hsplit
        obtain ⟨rfl, rfl⟩ := hsplit
        exact ⟨hfirst.mpr hbefore, fun q hq => absurd hq List.not_mem_nil⟩
      | cons r₀ rest₀ =>
        rw [hbefore, List.cons_append, List.cons.injEq] at hsplit
        obtain ⟨rfl, rfl⟩ := hsplit
        obtain ⟨htrue, hfalse⟩ := ih hturn.of_append r₀ rest₀ hbefore
        refine ⟨htrue, ?_⟩
        intro q' hq'
        rcases List.mem_append.mp hq' with hq' | hq'
        · exact hfalse q' hq'
        · rw [List.mem_singleton.mp hq', ← Bool.not_eq_true, hfirst, hbefore]
          exact List.cons_ne_nil _ _

end Flags

/-- The server takes what it has read for what was said; the topic of an unsubscribe
request is the one of its local array, whatever was said. -/
def Understood (r : Reading) : Said → Prop
  | .id message => handlingOf r = .id (cstr message)
  | .command message =>
    match carried message with
    | some (.subscribe topic sf) =>
      ∃ field : Topic, handlingOf r = .subscribe field sf ∧ cstr field.bytes = topic
    | some (.unsubscribe _) => handlingOf r = .unsubscribe (cstr r.topic)
    | _ => False

section Messages

variable {r : Reading} {sendBuffer : Frame}

theorem sendId_bytes (sendBuffer : Frame) (argument : Bytes) :
    (sendId sendBuffer argument).bytes = (copyId argument).bytes ++ [0] := by
  have hsize := (copyId argument).size
  dsimp only [sendId]
  rw [Block.slice_bytes, Block.write_at [0] _ _ _ (Block.write_zero _ hsize) hsize rfl,
    List.drop_zero]
  exact List.take_left' (by rw [List.length_append, hsize]; rfl)

theorem understood_id {argument : Bytes} (hflag : r.receiveID = true)
    (hbytes : r.bytes = (sendId sendBuffer argument).bytes) :
    Understood r (.id (sendId sendBuffer argument).bytes) := by
  have hmem : (0 : UInt8) ∈ r.bytes := by
    rw [hbytes, sendId_bytes]
    exact List.mem_append_right _ (List.mem_singleton_self 0)
  have hlen : r.bytes.length ≤ bufferServerLen := by
    rw [hbytes, Block.size]
    decide
  rw [Understood, handlingOf_id (List.ne_nil_of_mem hmem) hflag,
    Block.receive_bytes_of_le _ _ hlen, cstr_append_of_lt _ ((cstr_length_lt_iff _).mpr hmem), hbytes]

theorem understood_subscribe {topic : Token} {sf : CInt} (hflag : r.receiveID = false)
    (hbytes : r.bytes = (Client.subscribe sendBuffer topic sf).bytes) :
    Understood r (.command (Client.subscribe sendBuffer topic sf).bytes) := by
  have hlen : r.bytes.length ≤ bufferServerLen := by
    rw [hbytes, Block.size]
    decide
  have hdata := Block.receive_bytes_of_le r.buffer r.bytes hlen
  rw [hbytes, subscribe_bytes, List.cons_append, List.append_assoc _ [0], ← subscribe_bytes sendBuffer,
    ← hbytes] at hdata
  have hne : r.bytes ≠ [] := by
    rw [hbytes, subscribe_bytes]
    exact List.cons_ne_nil _ _
  simp only [Understood, carried_subscribe]
  refine ⟨topicField topic, ?_, cstr_fieldOf topic _⟩
  rw [handlingOf_request hne hflag, requestOf_subscribe _ _ hdata]
  rfl

theorem understood_unsubscribe {topic : Token} (hflag : r.receiveID = false)
    (hbytes : r.bytes = (Client.unsubscribe sendBuffer topic).bytes) :
    Understood r (.command (Client.unsubscribe sendBuffer topic).bytes) := by
  have hlen : r.bytes.length ≤ bufferServerLen := by
    rw [hbytes, Block.size]
    decide
  have hfront := hbytes.trans (unsubscribe_bytes sendBuffer topic)
  have hdata := Block.receive_bytes_of_le r.buffer r.bytes hlen
  rw [congrArg (· ++ _) hfront, List.cons_append] at hdata
  have hne : r.bytes ≠ [] := by
    rw [hfront]
    exact List.cons_ne_nil _ _
  simp only [Understood, carried_unsubscribe]
  rw [handlingOf_request hne hflag, requestOf_unsubscribe _ _ hdata]
  rfl

theorem Requested.understood {x : Said} (h : Requested x) (hflag : r.receiveID = false)
    (hbytes : r.bytes = x.bytes) : Understood r x := by
  cases h with
  | subscribe sendBuffer topic sf => exact understood_subscribe hflag hbytes
  | unsubscribe sendBuffer topic => exact understood_unsubscribe hflag hbytes

end Messages

/-- Reads that are what was said, with the flag for the first of them. -/
theorem understood_all {rs : List Reading} {xs more : List Said} (hopened : Opened (xs ++ more))
    (hflags : ∀ r rest, rs = r :: rest → r.receiveID = true ∧ ∀ q ∈ rest, q.receiveID = false)
    (h : rs.map Reading.bytes = xs.map Said.bytes) : List.Forall₂ Understood rs xs := by
  have hpairs : List.Forall₂ (fun r x => r.bytes = x.bytes) rs xs := by
    rwa [← List.forall₂_eq_eq_eq, List.forall₂_map_left_iff, List.forall₂_map_right_iff] at h
  cases hpairs with
  | nil => exact List.Forall₂.nil
  | @cons r x rest ys hfirst hrest =>
    obtain ⟨sendBuffer, argument, commands, hstart, hcommands⟩ := hopened
    rw [List.cons_append, List.cons.injEq] at hstart
    obtain ⟨rfl, rfl⟩ := hstart
    obtain ⟨htrue, hfalse⟩ := hflags r rest rfl
    refine List.Forall₂.cons (understood_id htrue hfirst) ?_
    have hys : ∀ y ∈ ys, Requested y := fun y hy => hcommands y (List.mem_append_left _ hy)
    clear hflags h
    induction hrest with
    | nil => exact List.Forall₂.nil
    | @cons q y rest ys hqy _ ih =>
      rw [List.forall_mem_cons] at hfalse hys
      exact List.Forall₂.cons (hys.1.understood hfalse.1 hqy)
        (ih (fun y hy => hcommands y (by simp [hy])) hfalse.2 hys.2)

section Handling

variable {cfg : Config} {tr : List (Net × Network.Event)} {n : Net} {k : ℕ} {p : Party}

/-- While the reads of a connection have the lengths of what was said on it, and IDs come
in turn, the server has taken what a subscriber said, in its order, for what it was, up to
what is under way. -/
theorem messages_understood (h : NetRun cfg tr n) (hturn : InTurn (log (serverTrace tr)))
    (hp : n.parties[k]? = some p)
    (hwhole : (readBytes k tr).map List.length <+: ((said k tr).map Said.bytes).map List.length) :
    ∃ taken waiting, said k tr = taken ++ waiting ∧
      List.Forall₂ Understood (readings k (serverTrace tr)) taken ∧
      p.up = waiting.flatMap Said.bytes := by
  have hstreams := run_streams h k
  obtain ⟨zs, hsplit, hrest⟩ := append_of_lengths hwhole (hstreams.conserved p hp)
  obtain ⟨taken, waiting, hsaid, htaken, hwaiting⟩ := List.map_eq_append_iff.mp hsplit
  have hopened := hstreams.opened (List.getElem?_eq_some_iff.mp hp).1
  rw [hsaid] at hopened
  refine ⟨taken, waiting, hsaid, ?_, ?_⟩
  · exact understood_all hopened (first_flagged (run_server h) hturn) htaken.symm
  · rw [hrest, ← hwaiting]
    rfl

end Handling

/-- A subscriber sends its ID and two commands, and the second one is under way. -/
def requestedEvents : List Network.Event :=
  .start idle [46] [97] :: (roundInputs 5 [(3, .connection 5 true)] ++
    roundInputs 5 [(5, readInput (idMessage 97))]).map .server ++
  .console 0 (.line subscribeLine) (Block.fill formatLen 0) ::
    (roundInputs 5 [(5, readInput (subscribeMessage 116 1))]).map .server ++
  [.console 0 (.line subscribeLine) (Block.fill formatLen 0)]

theorem messages_understood_requested :
    ∃ tr n p taken waiting, NetRun usual tr n ∧ n.parties[0]? = some p ∧ said 0 tr = taken ++ waiting ∧
      taken.length = 2 ∧ waiting.length = 1 ∧
      List.Forall₂ Understood (readings 0 (serverTrace tr)) taken ∧
      p.up = waiting.flatMap Said.bytes := by
  obtain ⟨tr, n, hrun, hn⟩ := exists_path (Net.next usual) (fun tr n => decide
    (Turns (log (serverTrace tr)) ∧ n.parties.length = 1 ∧ (said 0 tr).length = 3 ∧
      (readings 0 (serverTrace tr)).length = 2 ∧
      (readBytes 0 tr).map List.length <+: ((said 0 tr).map Said.bytes).map List.length))
    (show (exec (Net.next usual) ⟨initial usual, []⟩ requestedEvents).any _ = true by decide +kernel)
  obtain ⟨hturns, hparties, hsaid, hreadings, hwhole⟩ := of_decide_eq_true hn
  obtain ⟨p, hp⟩ : ∃ p, n.parties[0]? = some p := ⟨_, List.getElem?_eq_getElem (by omega)⟩
  obtain ⟨taken, waiting, hsplit, hunderstood, hup⟩ :=
    messages_understood hrun (inTurn_of_turns hturns) hp hwhole
  have htaken : taken.length = 2 := by rw [← hunderstood.length_eq, hreadings]
  rw [hsplit, List.length_append, htaken] at hsaid
  exact ⟨tr, n, p, taken, waiting, hrun, hp, hsplit, htaken, by omega, hunderstood, hup⟩

end TopicBroker.Upstream
