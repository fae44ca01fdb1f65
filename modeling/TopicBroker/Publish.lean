import TopicBroker.Frames
import TopicBroker.Registry

/-!
Routing of a datagram, from `receive_udp_message`.
-/
namespace TopicBroker.Publish

open ByteBlocks Message Buffer Frames Registry

/-- What the loops of `receive_udp_message` carry from one subscription to the next. -/
structure Route where
  format : Frame
  ipaddr : Block ipCharLen
  stack : Stack
  sends : List Send

/-- The inner loop over the topics of one record, from position `j` on. -/
def routeTopics (data : Block bufferServerLen) (topic : Topic) (addr : SockaddrIn) (sock : ℤ)
    (sfs : List CInt) : ℕ → List Topic → List StackWord → Route →
    Except Stop (List StackWord × Route)
  | _, [], inWaiting, r => .ok (inWaiting, r)
  | j, t :: rest, inWaiting, r =>
    let (format, ipaddr) := formatBuffer r.format data r.ipaddr addr
    let r := { r with format := format, ipaddr := ipaddr }
    if strcmp t.bytes topic.bytes = 0 then
      if sock ≠ -1 then
        routeTopics data topic addr sock sfs (j + 1) rest inWaiting
          { r with sends := r.sends ++ [⟨sock, format⟩] }
      else do
        let sf ← readAt sfs j
        if sf = 1 then
          routeTopics data topic addr sock sfs (j + 1) rest (queueEnq inWaiting .temp)
            { r with stack := ⟨some format⟩ }
        else routeTopics data topic addr sock sfs (j + 1) rest inWaiting r
    else routeTopics data topic addr sock sfs (j + 1) rest inWaiting r

def routeClients (data : Block bufferServerLen) (topic : Topic) (addr : SockaddrIn) :
    List Client → Route → Except Stop (List Client × Route)
  | [], r => .ok ([], r)
  | c :: rest, r => do
    let (inWaiting, r) ← routeTopics data topic addr c.sock c.sfs 0 c.topics c.inWaiting r
    let (rest, r) ← routeClients data topic addr rest r
    .ok ({ c with inWaiting := inWaiting } :: rest, r)

/-- The arrays of `receive_udp_message` before anything is written to them. -/
structure UdpLocals where
  topic : Topic
  format : Frame
  ipaddr : Block ipCharLen

structure Published where
  buffer : Block bufferServerLen
  clients : List Client
  stack : Stack
  sends : List Send

def receiveUdpMessage (buffer : Block bufferServerLen) (datagram : Bytes) (addr : SockaddrIn)
    (locals : UdpLocals) (stack : Stack) (clients : List Client) : Except Stop Published := do
  let data := receiveDatagram buffer datagram
  let topic := datagramTopic locals.topic data
  let (clients, r) ← routeClients data topic addr clients ⟨locals.format, locals.ipaddr, stack, []⟩
  .ok ⟨data, clients, r.stack, r.sends⟩

/-- How many of the topics are the one published. -/
def copiesIn (text : Bytes) (topics : List Topic) : ℕ :=
  topics.countP fun t => cstr t.bytes = text

/-- How many of these ask for storing. -/
def storedIn (text : Bytes) (topics : List Topic) (sfs : List CInt) : ℕ :=
  (topics.zip sfs).countP fun p => cstr p.1.bytes = text ∧ p.2 = 1

/-- What a datagram makes the server send to a record. -/
def routed (text : Bytes) (frame : Frame) (c : Client) : List Send :=
  if c.sock = -1 then [] else List.replicate (copiesIn text c.topics) ⟨c.sock, frame⟩

/-- What a datagram leaves of a record. -/
def kept (text : Bytes) (c : Client) : Client :=
  if c.sock = -1 then
    { c with inWaiting := c.inWaiting ++ List.replicate (storedIn text c.topics c.sfs) .temp }
  else c

theorem copiesIn_hit {text : Bytes} {t : Topic} (h : cstr t.bytes = text) (rest : List Topic) :
    copiesIn text (t :: rest) = copiesIn text rest + 1 := by
  simp [copiesIn, h]

theorem copiesIn_skip {text : Bytes} {t : Topic} (h : cstr t.bytes ≠ text) (rest : List Topic) :
    copiesIn text (t :: rest) = copiesIn text rest := by
  simp [copiesIn, h]

theorem storedIn_hit {text : Bytes} {t : Topic} (h : cstr t.bytes = text) (rest : List Topic)
    (sfs : List CInt) : storedIn text (t :: rest) (1 :: sfs) = storedIn text rest sfs + 1 := by
  simp [storedIn, h]

theorem storedIn_live {sf : CInt} (h : sf ≠ 1) (text : Bytes) (t : Topic) (rest : List Topic)
    (sfs : List CInt) : storedIn text (t :: rest) (sf :: sfs) = storedIn text rest sfs := by
  unfold storedIn
  rw [List.zip_cons_cons, List.countP_cons_of_neg]
  simpa using fun _ => h

/-- A topic that does not match needs no flag. -/
theorem storedIn_skip {text : Bytes} {t : Topic} (h : cstr t.bytes ≠ text) (rest : List Topic)
    (sfs : List CInt) : storedIn text (t :: rest) sfs = storedIn text rest sfs.tail := by
  cases sfs with
  | nil => simp [storedIn]
  | cons sf sfs => simp [storedIn, h]

private theorem drop_of_readAt {sfs : List CInt} {j : ℕ} {sf : CInt}
    (h : readAt sfs j = .ok sf) : sfs.drop j = sf :: sfs.drop (j + 1) := by
  obtain ⟨hj, hsf⟩ := List.getElem?_eq_some_iff.mp (readAt_eq_ok h)
  rw [List.drop_eq_getElem_cons hj, hsf]

section Loops

variable {data : Block bufferServerLen} {topic : Topic} {addr : SockaddrIn}

/-- The inner loop, by induction on the topics still to visit. -/
theorem routeTopics_spec {sock : ℤ} {sfs : List CInt} {topics : List Topic} :
    ∀ {j : ℕ} {inWaiting inWaiting' : List StackWord} {r r' : Route},
      routeTopics data topic addr sock sfs j topics inWaiting r = .ok (inWaiting', r') →
      inWaiting' = inWaiting ++ (if sock = -1 then
        List.replicate (storedIn (cstr topic.bytes) topics (sfs.drop j)) .temp else []) ∧
      r'.sends = r.sends ++ (if sock = -1 then [] else
        List.replicate (copiesIn (cstr topic.bytes) topics) ⟨sock, frameOf data addr⟩) ∧
      r'.stack = (if sock = -1 ∧ 0 < storedIn (cstr topic.bytes) topics (sfs.drop j) then
        ⟨some (frameOf data addr)⟩ else r.stack) := by
  induction topics with
  | nil =>
    intro j inWaiting inWaiting' r r' h
    cases h
    simp [storedIn, copiesIn]
  | cons t rest ih =>
    intro j inWaiting inWaiting' r r' h
    simp only [routeTopics, formatBuffer_eq] at h
    by_cases hmatch : cstr t.bytes = cstr topic.bytes
    · rw [if_pos ((strcmp_eq_zero_iff _ _).mpr hmatch)] at h
      by_cases hsock : sock = -1
      · subst hsock
        simp only [ne_eq, not_true, if_false] at h
        obtain ⟨sf, hsf, h⟩ := bind_eq_ok.mp h
        rw [drop_of_readAt hsf]
        by_cases hone : sf = 1
        · subst hone
          rw [if_pos rfl] at h
          obtain ⟨hw, hs, hst⟩ := ih h
          rw [storedIn_hit hmatch]
          refine ⟨?_, ?_, ?_⟩
          · rw [hw, if_pos rfl, if_pos rfl, queueEnq, List.append_assoc, List.singleton_append,
              List.replicate_succ]
          · rw [hs, if_pos rfl, if_pos rfl]
          · simp [hst]
        · rw [if_neg hone] at h
          obtain ⟨hw, hs, hst⟩ := ih h
          rw [storedIn_live hone]
          refine ⟨hw, ?_, hst⟩
          rw [hs, if_pos rfl, if_pos rfl]
      · rw [if_pos hsock] at h
        obtain ⟨hw, hs, hst⟩ := ih h
        simp only [hsock, false_and, if_false] at hw hs hst ⊢
        refine ⟨hw, ?_, hst⟩
        rw [hs, copiesIn_hit hmatch, List.append_assoc, List.singleton_append, List.replicate_succ]
    · rw [if_neg (fun he => hmatch ((strcmp_eq_zero_iff _ _).mp he))] at h
      obtain ⟨hw, hs, hst⟩ := ih h
      rw [storedIn_skip hmatch, List.tail_drop, copiesIn_skip hmatch]
      exact ⟨hw, hs, hst⟩

/-- The outer loop: every record is served by itself, in the order of the registry. -/
theorem routeClients_spec {clients : List Client} :
    ∀ {clients' : List Client} {r r' : Route},
      routeClients data topic addr clients r = .ok (clients', r') →
      clients' = clients.map (kept (cstr topic.bytes)) ∧
      r'.sends = r.sends ++ clients.flatMap (routed (cstr topic.bytes) (frameOf data addr)) ∧
      r'.stack = (if ∃ c ∈ clients, c.sock = -1 ∧ 0 < storedIn (cstr topic.bytes) c.topics c.sfs then
        ⟨some (frameOf data addr)⟩ else r.stack) := by
  induction clients with
  | nil =>
    intro clients' r r' h
    cases h
    simp
  | cons c rest ih =>
    intro clients' r r' h
    obtain ⟨⟨inWaiting, r₁⟩, hc, h⟩ := bind_eq_ok.mp h
    obtain ⟨⟨rest', r₂⟩, hrest, h⟩ := bind_eq_ok.mp h
    cases h
    obtain ⟨hw, hs, hst⟩ := routeTopics_spec hc
    obtain ⟨hclients, hsends, hstack⟩ := ih hrest
    rw [List.drop_zero] at hw hst
    refine ⟨?_, ?_, ?_⟩
    · rw [List.map_cons, hclients, hw, kept]
      split
      · rfl
      · rw [List.append_nil]
    · rw [hsends, hs, List.flatMap_cons, List.append_assoc, routed]
    · rw [hstack, hst]
      by_cases hlater : ∃ c ∈ rest, c.sock = -1 ∧ 0 < storedIn (cstr topic.bytes) c.topics c.sfs
      · obtain ⟨d, hd, hd'⟩ := hlater
        rw [if_pos ⟨d, hd, hd'⟩, if_pos ⟨d, List.mem_cons_of_mem c hd, hd'⟩]
      · rw [if_neg hlater]
        simp only [List.mem_cons, exists_eq_or_imp, hlater, or_false]

end Loops

section Totality

variable (data : Block bufferServerLen) (topic : Topic) (addr : SockaddrIn)

/-- A flag for every topic is enough for the inner loop to end. -/
theorem routeTopics_total (sock : ℤ) (sfs : List CInt) (topics : List Topic) :
    ∀ (j : ℕ) (inWaiting : List StackWord) (r : Route), j + topics.length ≤ sfs.length →
      ∃ out, routeTopics data topic addr sock sfs j topics inWaiting r = .ok out := by
  induction topics with
  | nil =>
    intro j inWaiting r _
    exact ⟨_, rfl⟩
  | cons t rest ih =>
    intro j inWaiting r hlength
    rw [List.length_cons] at hlength
    have hnext : j + 1 + rest.length ≤ sfs.length := by omega
    simp only [routeTopics]
    split_ifs
    · exact ih _ _ _ hnext
    · rw [readAt_of_lt (show j < sfs.length by omega)]
      change ∃ out, (if sfs[j] = 1 then _ else _) = Except.ok out
      split_ifs
      · exact ih _ _ _ hnext
      · exact ih _ _ _ hnext
    · exact ih _ _ _ hnext

theorem routeClients_total {clients : List Client}
    (h : ∀ c ∈ clients, c.topics.length ≤ c.sfs.length) :
    ∀ r : Route, ∃ out, routeClients data topic addr clients r = .ok out := by
  induction clients with
  | nil => exact fun r => ⟨_, rfl⟩
  | cons c rest ih =>
    intro r
    obtain ⟨⟨inWaiting, r₁⟩, hc⟩ := routeTopics_total data topic addr c.sock c.sfs c.topics 0
      c.inWaiting r (by
        rw [Nat.zero_add]
        exact h c (List.mem_cons_self ..))
    obtain ⟨⟨rest', r₂⟩, hrest⟩ := ih (fun d hd => h d (List.mem_cons_of_mem c hd)) r₁
    exact ⟨_, bind_eq_ok.mpr ⟨_, hc, bind_eq_ok.mpr ⟨_, hrest, rfl⟩⟩⟩

end Totality

/-- The text that selects the subscriptions of a datagram. -/
def topicText (datagram : Bytes) : Bytes := cstr ((padded datagram).bytes.take topicLen)

/-- The padding of the datagram does not show in its topic. -/
theorem topicText_eq (datagram : Bytes) : topicText datagram = cstr (datagram.take topicLen) := by
  have hfront : (datagram.take bufferServerLen).take topicLen = datagram.take topicLen := by
    rw [List.take_take]
    rfl
  rw [topicText, padded, Block.receive_bytes, Block.fill_bytes, List.drop_replicate,
    List.take_append, List.take_replicate, hfront, cstr_append_zeros]

/-- Some record stores a frame of the datagram. -/
def Stores (text : Bytes) (clients : List Client) : Prop :=
  ∃ c ∈ clients, c.sock = -1 ∧ 0 < storedIn text c.topics c.sfs

instance (text : Bytes) (clients : List Client) : Decidable (Stores text clients) :=
  inferInstanceAs (Decidable (∃ c ∈ clients, c.sock = -1 ∧ 0 < storedIn text c.topics c.sfs))

/-- What a datagram does: nothing of it depends on what the buffers held before. -/
structure Routed (datagram : Bytes) (addr : SockaddrIn) (stack : Stack) (clients : List Client)
    (p : Published) : Prop where
  buffer_eq : p.buffer = padded datagram
  clients_eq : p.clients = clients.map (kept (topicText datagram))
  sends_eq : p.sends = clients.flatMap (routed (topicText datagram) (frameOf (padded datagram) addr))
  stack_eq : p.stack = if Stores (topicText datagram) clients then
    ⟨some (frameOf (padded datagram) addr)⟩ else stack

theorem receiveUdpMessage_spec {buffer : Block bufferServerLen} {datagram : Bytes}
    {addr : SockaddrIn} {locals : UdpLocals} {stack : Stack} {clients : List Client} {p : Published}
    (h : receiveUdpMessage buffer datagram addr locals stack clients = .ok p) :
    Routed datagram addr stack clients p := by
  simp only [receiveUdpMessage, receiveDatagram_eq] at h
  obtain ⟨⟨clients', r⟩, hroute, h⟩ := bind_eq_ok.mp h
  cases h
  obtain ⟨hclients, hsends, hstack⟩ := routeClients_spec hroute
  rw [cstr_datagramTopic] at hclients hsends hstack
  exact {
    buffer_eq := rfl
    clients_eq := hclients
    sends_eq := hsends
    stack_eq := hstack
  }

/-- With a flag for every topic a datagram is handled to the end. -/
theorem receiveUdpMessage_total {clients : List Client}
    (h : ∀ c ∈ clients, c.topics.length ≤ c.sfs.length) (buffer : Block bufferServerLen)
    (datagram : Bytes) (addr : SockaddrIn) (locals : UdpLocals) (stack : Stack) :
    ∃ p, receiveUdpMessage buffer datagram addr locals stack clients = .ok p := by
  obtain ⟨⟨clients', r⟩, hroute⟩ := routeClients_total _ _ _ h _
  exact ⟨_, bind_eq_ok.mpr ⟨_, hroute, rfl⟩⟩

end TopicBroker.Publish
