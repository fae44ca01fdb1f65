import TopicBroker.Publish

/-!
Routing, entry by entry. A datagram selects the subscriptions that carry its topic:
each selected subscription of an online record is one send, each selected one of an
offline record that asks for storing is one element of its queue, and nothing else
happens.
-/
namespace TopicBroker.Routing

open ByteBlocks Message Frames Registry Publish

/-- The subscriptions of a record to a topic, in their order. -/
def selected (text : Bytes) (c : Client) : List (Topic × CInt) :=
  (c.topics.zip c.sfs).filter fun entry => cstr entry.1.bytes = text

/-- Those of them that ask for storing. -/
def storing (text : Bytes) (c : Client) : List (Topic × CInt) :=
  (selected text c).filter fun entry => entry.2 = 1

/-- One send for each selected subscription of an online record. -/
def sendsTo (text : Bytes) (frame : Frame) (c : Client) : List Send :=
  if c.sock = -1 then [] else (selected text c).map fun _ => ⟨c.sock, frame⟩

/-- One element for each selected subscription of an offline record that asks for storing. -/
def enqueued (text : Bytes) (c : Client) : List StackWord :=
  if c.sock = -1 then (storing text c).map fun _ => .temp else []

section Counting

variable {text : Bytes} {c : Client}

theorem selected_length (h : c.topics.length = c.sfs.length) :
    (selected text c).length = copiesIn text c.topics := by
  have hfst : c.topics = (c.topics.zip c.sfs).map Prod.fst := (List.map_fst_zip (le_of_eq h)).symm
  rw [selected, copiesIn, ← List.countP_eq_length_filter]
  conv_rhs => rw [hfst, List.countP_map]
  rfl

theorem storing_length : (storing text c).length = storedIn text c.topics c.sfs := by
  rw [storing, selected, List.filter_filter, storedIn, ← List.countP_eq_length_filter]
  congr 1
  funext entry
  simp [and_comm]

theorem routed_eq_sendsTo (h : c.topics.length = c.sfs.length) (frame : Frame) :
    routed text frame c = sendsTo text frame c := by
  unfold routed sendsTo
  split_ifs
  · rfl
  · rw [List.map_const', selected_length h]

theorem kept_eq_enqueued :
    kept text c = { c with inWaiting := c.inWaiting ++ enqueued text c } := by
  unfold kept enqueued
  split_ifs
  · rw [List.map_const', storing_length]
  · rw [List.append_nil]

end Counting

/-- A datagram is handled to the end, and what it sends and stores is what it selects. -/
theorem routing_exact {clients : List Client}
    (h : ∀ c ∈ clients, c.topics.length = c.sfs.length) (buffer : Block bufferServerLen)
    (datagram : Bytes) (addr : SockaddrIn) (locals : UdpLocals) (stack : Stack) :
    ∃ p frame, receiveUdpMessage buffer datagram addr locals stack clients = .ok p ∧
      (∀ format ipaddr,
        (formatBuffer format (receiveDatagram buffer datagram) ipaddr addr).1 = frame) ∧
      p.sends = clients.flatMap (sendsTo (cstr (datagram.take topicLen)) frame) ∧
      p.clients = clients.map (fun c =>
        { c with inWaiting := c.inWaiting ++ enqueued (cstr (datagram.take topicLen)) c }) ∧
      ((∃ c ∈ clients, enqueued (cstr (datagram.take topicLen)) c ≠ []) →
        p.stack.temp = some frame) := by
  obtain ⟨p, hp⟩ := receiveUdpMessage_total (fun c hc => le_of_eq (h c hc)) buffer datagram addr
    locals stack
  have hspec := receiveUdpMessage_spec hp
  rw [← topicText_eq]
  refine ⟨p, frameOf (padded datagram) addr, hp, ?_, ?_, ?_, ?_⟩
  · intro format ipaddr
    rw [receiveDatagram_eq, formatBuffer_eq]
  · rw [hspec.sends_eq]
    exact List.flatMap_congr fun c hc => routed_eq_sendsTo (h c hc) _
  · rw [hspec.clients_eq]
    exact List.map_congr_left fun c _ => kept_eq_enqueued
  · rintro ⟨c, hc, hne⟩
    have hstores : Stores (topicText datagram) clients := by
      refine ⟨c, hc, ?_⟩
      unfold enqueued at hne
      split_ifs at hne with hsock
      · refine ⟨hsock, List.length_pos_of_ne_nil ?_ |>.trans_eq storing_length⟩
        intro hnil
        rw [hnil] at hne
        exact hne rfl
      · exact absurd rfl hne
    rw [hspec.stack_eq, if_pos hstores]

/-- The record with these subscriptions. -/
def withTable (c : Client) (pairs : List (Topic × CInt)) : Client :=
  { c with topics := pairs.map Prod.fst, sfs := pairs.map Prod.snd }

/-- What a subscription adds to the outcome of a datagram: if it matches one send to its
online record, or one element of the queue of its offline record if it asks for storing. -/
structure Adds (c : Client) (entry : Topic × CInt) (text : Bytes) (frame : Frame)
    (p p' : Published) : Prop where
  sends : ∃ l r, p.sends = l ++ r ∧ p'.sends =
    l ++ (if cstr entry.1.bytes = text ∧ c.sock ≠ -1 then [⟨c.sock, frame⟩] else []) ++ r
  queues : ∃ l q r, p.clients.map Client.inWaiting = l ++ q :: r ∧
    p'.clients.map Client.inWaiting = l ++ (q ++
      if cstr entry.1.bytes = text ∧ c.sock = -1 ∧ entry.2 = 1 then [.temp] else []) :: r

section Entry

variable {text : Bytes} {frame : Frame} {c : Client} {front back : List (Topic × CInt)}
  {entry : Topic × CInt}

private theorem replicate_ite {α : Type} {p : Prop} [Decidable p] (n : ℕ) (a : α) :
    List.replicate (n + if p then 1 else 0) a = List.replicate n a ++ if p then [a] else [] := by
  split
  · rw [List.replicate_succ']
  · rw [List.append_nil, Nat.add_zero]

private theorem countP_insert {α : Type} (p : α → Bool) (front back : List α) (a : α) :
    (front ++ a :: back).countP p = (front ++ back).countP p + if p a then 1 else 0 := by
  rw [List.countP_append, List.countP_append, List.countP_cons, Nat.add_assoc]

theorem routed_insert : routed text frame (withTable c (front ++ entry :: back)) =
    routed text frame (withTable c (front ++ back)) ++
      if cstr entry.1.bytes = text ∧ c.sock ≠ -1 then [⟨c.sock, frame⟩] else [] := by
  unfold routed withTable
  by_cases hsock : c.sock = -1
  · simp [hsock]
  · simp only [copiesIn, List.countP_map, countP_insert, Function.comp_apply, decide_eq_true_eq,
      replicate_ite, ne_eq, hsock, not_false_eq_true, and_true, if_false]

theorem kept_insert : (kept text (withTable c (front ++ entry :: back))).inWaiting =
    (kept text (withTable c (front ++ back))).inWaiting ++
      if cstr entry.1.bytes = text ∧ c.sock = -1 ∧ entry.2 = 1 then [.temp] else [] := by
  have hzip : ∀ pairs : List (Topic × CInt), (pairs.map Prod.fst).zip (pairs.map Prod.snd) = pairs :=
    fun pairs => by rw [List.zip_map', List.map_id']
  unfold kept withTable
  by_cases hsock : c.sock = -1
  · simp only [storedIn, hzip, countP_insert, decide_eq_true_eq, replicate_ite, hsock, true_and,
      List.append_assoc, if_true]
  · simp [hsock]

/-- The subscription at any place of a table is looked at by itself: whether it matches does
not depend on the others, and it changes nothing else. -/
theorem entry_routed {before after : List Client}
    (h : ∀ d ∈ before ++ after, d.topics.length = d.sfs.length) (c : Client)
    (front back : List (Topic × CInt)) (entry : Topic × CInt) (buffer : Block bufferServerLen)
    (datagram : Bytes) (addr : SockaddrIn) (locals : UdpLocals) (stack : Stack) :
    ∃ p p' frame,
      receiveUdpMessage buffer datagram addr locals stack
        (before ++ withTable c (front ++ back) :: after) = .ok p ∧
      receiveUdpMessage buffer datagram addr locals stack
        (before ++ withTable c (front ++ entry :: back) :: after) = .ok p' ∧
      (∀ format ipaddr,
        (formatBuffer format (receiveDatagram buffer datagram) ipaddr addr).1 = frame) ∧
      Adds c entry (cstr (datagram.take topicLen)) frame p p' := by
  have haligned : ∀ pairs : List (Topic × CInt),
      ∀ d ∈ before ++ withTable c pairs :: after, d.topics.length ≤ d.sfs.length := by
    intro pairs d hd
    rcases List.mem_append.mp hd with hd | hd
    · exact le_of_eq (h d (List.mem_append_left after hd))
    · rcases List.mem_cons.mp hd with rfl | hd
      · simp [withTable]
      · exact le_of_eq (h d (List.mem_append_right before hd))
  obtain ⟨p, hp⟩ := receiveUdpMessage_total (haligned (front ++ back)) buffer datagram addr locals stack
  obtain ⟨p', hp'⟩ := receiveUdpMessage_total (haligned (front ++ entry :: back)) buffer datagram addr
    locals stack
  have hspec := receiveUdpMessage_spec hp
  have hspec' := receiveUdpMessage_spec hp'
  refine ⟨p, p', frameOf (padded datagram) addr, hp, hp', ?_, ?_⟩
  · intro format ipaddr
    rw [receiveDatagram_eq, formatBuffer_eq]
  · rw [← topicText_eq]
    constructor
    · refine ⟨before.flatMap (routed (topicText datagram) (frameOf (padded datagram) addr)) ++
        routed (topicText datagram) (frameOf (padded datagram) addr) (withTable c (front ++ back)),
        after.flatMap (routed (topicText datagram) (frameOf (padded datagram) addr)), ?_, ?_⟩
      · rw [hspec.sends_eq, List.flatMap_append, List.flatMap_cons, List.append_assoc]
      · rw [hspec'.sends_eq, List.flatMap_append, List.flatMap_cons, routed_insert]
        simp only [List.append_assoc]
    · refine ⟨(before.map (kept (topicText datagram))).map Client.inWaiting,
        (kept (topicText datagram) (withTable c (front ++ back))).inWaiting,
        (after.map (kept (topicText datagram))).map Client.inWaiting, ?_, ?_⟩
      · rw [hspec.clients_eq, List.map_append, List.map_cons, List.map_append, List.map_cons]
      · rw [hspec'.clients_eq, List.map_append, List.map_cons, List.map_append, List.map_cons,
          kept_insert]

end Entry

theorem letterTopic_size (letter : UInt8) :
    (letter :: List.replicate topicLen 0).length = topicLen + nullLen := by
  rw [List.length_cons, List.length_replicate]

/-- A topic of one letter. -/
def letterTopic (letter : UInt8) : Topic :=
  ⟨letter :: List.replicate topicLen 0, letterTopic_size letter⟩

/-- An online record with the topic twice, and an offline one that stores it once. -/
def mixedClients : List Client :=
  [⟨5, Block.fill idLen 97, [], [letterTopic 116, letterTopic 117, letterTopic 116], [0, 1, 1], []⟩,
    ⟨-1, Block.fill idLen 98, [], [letterTopic 116, letterTopic 116], [0, 1], []⟩]

theorem routing_exact_mixed :
    ∃ p frame, receiveUdpMessage (Block.fill bufferServerLen 255) [116] (.ofSender ⟨127, 0, 0, 1⟩ 8080)
        ⟨Block.fill _ 255, Block.fill _ 255, Block.fill _ 255⟩ ⟨none⟩ mixedClients = .ok p ∧
      p.sends = [⟨5, frame⟩, ⟨5, frame⟩] ∧ p.clients.map Client.inWaiting = [[], [.temp]] ∧
      p.stack.temp = some frame := by
  obtain ⟨p, frame, hp, _, hsends, hclients, hstack⟩ := routing_exact
    (show ∀ c ∈ mixedClients, c.topics.length = c.sfs.length by decide)
    (Block.fill bufferServerLen 255) [116] (.ofSender ⟨127, 0, 0, 1⟩ 8080)
    ⟨Block.fill _ 255, Block.fill _ 255, Block.fill _ 255⟩ ⟨none⟩
  refine ⟨p, frame, hp, hsends, ?_, hstack (by decide)⟩
  rw [hclients]
  decide

end TopicBroker.Routing
