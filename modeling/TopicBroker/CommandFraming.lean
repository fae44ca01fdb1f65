import TopicBroker.Client
import TopicBroker.Divisions
import TopicBroker.Identity
import TopicBroker.Readings

/-!
Commands on a stream. The server takes what one read returns for one message, so a
session is taken as it was sent when every read returns one whole message, and a
session of subscribe requests in no other case. The topic of an unsubscribe request
is not read from the message at all.
-/
namespace TopicBroker.CommandFraming

open ByteBlocks ByteOrder Message Registry Requests Identity MainLoop Readings Divisions

/-- An array field: the front of a text, filled up with NULs. -/
def fieldOf (n : ℕ) (text : Bytes) : Bytes := text.take n ++ List.replicate (n - text.length) 0

theorem fieldOf_length (n : ℕ) (text : Bytes) : (fieldOf n text).length = n := by
  simp only [fieldOf, List.length_append, List.length_take, List.length_replicate]
  omega

/-- The topic field of a subscribe message. -/
def topicField (topic : Client.Token) : Topic :=
  ⟨fieldOf (topicLen + nullLen) topic.text, fieldOf_length _ _⟩

section Messages

variable (sendBuffer : Frame) (topic : Client.Token) (sf : CInt)

/-- A text at the start of a zeroed array, seen as a field and the rest. -/
private theorem text_in_zeros {n size : ℕ} (hn : n ≤ size) (hfits : topic.text.length ≤ size) :
    ∃ rest, topic.text ++ (List.replicate size (0 : UInt8)).drop topic.text.length =
      fieldOf n topic.text ++ rest := by
  rw [List.drop_replicate]
  by_cases hlong : n ≤ topic.text.length
  · have hzero : n - topic.text.length = 0 := by omega
    refine ⟨topic.text.drop n ++ List.replicate (size - topic.text.length) 0, ?_⟩
    rw [fieldOf, hzero, List.replicate_zero, List.append_nil, ← List.append_assoc,
      List.take_append_drop]
  · have hall : topic.text.take n = topic.text := List.take_of_length_le (by omega)
    have hsum : size - topic.text.length = n - topic.text.length + (size - n) := by omega
    refine ⟨List.replicate (size - n) 0, ?_⟩
    rw [fieldOf, hall, hsum, List.replicate_add, List.append_assoc]

/-- What both commands write first: the letter of the command and the topic. -/
private theorem command_front (tag : UInt8) {n : ℕ} (hn : n ≤ bufferClientLen - 1)
    (hclear : 0 + (List.replicate bufferClientLen (0 : UInt8)).length ≤ formatLen)
    (htag : 0 + [tag].length ≤ formatLen) (htext : 1 + topic.text.length ≤ formatLen) :
    ∃ rest, (((sendBuffer.write 0 (List.replicate bufferClientLen 0) hclear).write 0 [tag] htag).write
      1 topic.text htext).bytes = tag :: fieldOf n topic.text ++ rest := by
  have hzeros : (sendBuffer.write 0 (List.replicate bufferClientLen 0) hclear).bytes =
      List.replicate bufferClientLen 0 := Block.write_all _ List.length_replicate
  have htagged : ((sendBuffer.write 0 (List.replicate bufferClientLen 0) hclear).write 0 [tag]
      htag).bytes = [tag] ++ List.replicate (bufferClientLen - 1) 0 := by
    rw [Block.write_zero htag rfl, hzeros, List.drop_replicate]
    rfl
  have hfits : topic.text.length ≤ bufferClientLen - 1 := by
    have h := topic.fits
    simp only [Client.cmdLen, bufferClientLen] at h ⊢
    omega
  obtain ⟨rest, hrest⟩ := text_in_zeros topic hn hfits
  refine ⟨rest, ?_⟩
  rw [Block.write_at _ _ _ htext htagged rfl rfl, List.append_assoc, hrest]
  rfl

/-- The bytes of a subscribe message, whatever the buffer held. -/
theorem subscribe_bytes : (Client.subscribe sendBuffer topic sf).bytes =
    115 :: ((topicField topic).bytes ++ intBytes sf ++ [0]) := by
  obtain ⟨rest, hfront⟩ := command_front sendBuffer topic 115
    (show topicLen + nullLen ≤ bufferClientLen - 1 by decide)
    (by rw [List.length_replicate]; decide) (by decide)
    (by
      have h := topic.fits
      simp only [Client.cmdLen, formatLen, bufferServerLen, ipCharLen, nullLen, typeLen] at h ⊢
      omega)
  have hlength : (115 :: fieldOf (topicLen + nullLen) topic.text).length =
      topicLen + commandSendLen + 1 := by
    rw [List.length_cons, fieldOf_length]
  have hsf := Block.write_at (intBytes sf) _ rest
    (show topicLen + commandSendLen + 1 + (intBytes sf).length ≤ formatLen by
      rw [intBytes_length]
      decide) hfront hlength (intBytes_length sf)
  have hlast := Block.write_at [0] _ (rest.drop 4)
    (show topicLen + commandSendLen + 1 + 4 + [(0 : UInt8)].length ≤ formatLen by decide) hsf
    (by rw [List.length_append, hlength, intBytes_length]) rfl
  refine Block.slice_of_append [] (115 :: ((topicField topic).bytes ++ intBytes sf ++ [0]))
    ((rest.drop 4).drop 1) (by decide) (hlast.trans ?_) rfl ?_
  · simp only [topicField, List.nil_append, List.cons_append, List.append_assoc]
    rfl
  · simp only [topicField, List.length_cons, List.length_append, fieldOf_length, intBytes_length,
      List.length_nil]

/-- The bytes of an unsubscribe message, whatever the buffer held. -/
theorem unsubscribe_bytes : (Client.unsubscribe sendBuffer topic).bytes =
    117 :: fieldOf topicLen topic.text := by
  obtain ⟨rest, hfront⟩ := command_front sendBuffer topic 117
    (show topicLen ≤ bufferClientLen - 1 by decide)
    (by rw [List.length_replicate]; decide) (by decide)
    (by
      have h := topic.fits
      simp only [Client.cmdLen, formatLen, bufferServerLen, ipCharLen, nullLen, typeLen] at h ⊢
      omega)
  have hlength : (117 :: fieldOf topicLen topic.text).length = topicLen + commandSendLen := by
    rw [List.length_cons, fieldOf_length]
  have hrest := congrArg List.length hfront
  rw [Block.size, List.length_append, hlength] at hrest
  rw [← List.take_append_drop 1 rest, ← List.append_assoc] at hfront
  have hlast := Block.write_at [0] _ (rest.drop 1)
    (show topicLen + commandSendLen + 1 + [(0 : UInt8)].length ≤ formatLen by decide) hfront
    (by
      rw [List.length_append, hlength, List.length_take]
      simp only [formatLen, bufferServerLen, ipCharLen, nullLen, typeLen, topicLen,
        commandSendLen] at hrest ⊢
      omega) rfl
  refine Block.slice_of_append [] (117 :: fieldOf topicLen topic.text)
    (rest.take 1 ++ [0] ++ (rest.drop 1).drop 1) (by decide) (hlast.trans ?_) rfl hlength
  simp only [List.nil_append, List.append_assoc]
  rfl

end Messages

/-- A command of the user, as the subscriber has parsed it. -/
inductive Command
  | subscribe (topic : Client.Token) (sf : CInt)
  | unsubscribe (topic : Client.Token)

/-- The message of a command; what the buffer held before does not show in it. -/
def Command.bytes : Command → Bytes
  | .subscribe topic sf => (Client.subscribe (Block.fill formatLen 0) topic sf).bytes
  | .unsubscribe topic => (Client.unsubscribe (Block.fill formatLen 0) topic).bytes

/-- What the server takes a read for. -/
inductive Handling
  | closed
  | id (text : Bytes)
  | subscribe (topic : Topic) (sf : CInt)
  | unsubscribe (topic : Bytes)
  | invalid
deriving DecidableEq

def handlingOfRequest : Request → Handling
  | .subscribe topic sf => .subscribe topic sf
  | .unsubscribe topic => .unsubscribe (cstr topic)
  | .invalid => .invalid

def handlingOf (r : Reading) : Handling :=
  match dispatch r.receiveID r.bytes.length with
  | .disconnect => .closed
  | .idClient => .id (cstr (r.buffer.receive r.bytes).bytes)
  | .request => handlingOfRequest (requestOf (r.buffer.receive r.bytes) r.topic)

/-- What the message of a command asks for. -/
def Command.handling : Command → Handling
  | .subscribe topic sf => .subscribe (topicField topic) sf
  | .unsubscribe topic => .unsubscribe (topic.text.take topicLen)

/-- What one subscriber sends on its connection. -/
structure Session where
  id : IdText
  commands : List Command

def Session.messages (x : Session) : List Bytes := x.id.message :: x.commands.map Command.bytes

def Session.handlings (x : Session) : List Handling :=
  .id x.id.text :: x.commands.map Command.handling

section Decoding

variable (data : Block bufferServerLen) (topic : Bytes)

theorem handlingOf_id {r : Reading} (hne : r.bytes ≠ []) (hflag : r.receiveID = true) :
    handlingOf r = .id (cstr (r.buffer.receive r.bytes).bytes) := by
  have hcount : ¬ r.bytes.length = 0 := fun hz => hne (List.eq_nil_of_length_eq_zero hz)
  simp only [handlingOf, dispatch, hcount, hflag, if_false, if_true]

theorem handlingOf_request {r : Reading} (hne : r.bytes ≠ []) (hflag : r.receiveID = false) :
    handlingOf r = handlingOfRequest (requestOf (r.buffer.receive r.bytes) r.topic) := by
  have hcount : ¬ r.bytes.length = 0 := fun hz => hne (List.eq_nil_of_length_eq_zero hz)
  simp only [handlingOf, dispatch, hcount, hflag, if_false, Bool.false_eq_true]

/-- The letter that decides. -/
private theorem action_eq {b : UInt8} {rest : Bytes} (h : data.bytes = b :: rest) :
    (data.slice 0 1 (by decide)).bytes.headD 0 = b := by
  rw [Block.slice_bytes, h]
  rfl

/-- A buffer that starts with a subscribe message. -/
theorem requestOf_subscribe {field : Topic} {sf : CInt} {rest : Bytes}
    (h : data.bytes = 115 :: (field.bytes ++ intBytes sf ++ rest)) :
    requestOf data topic = .subscribe field sf := by
  have hfield : data.slice commandSendLen (topicLen + commandSendLen) (by decide) = field := by
    apply Block.ext
    refine Block.slice_of_append [115] _ (intBytes sf ++ rest) _ (h.trans ?_) rfl field.size
    simp only [List.cons_append, List.nil_append, List.append_assoc]
  have hsf : (data.slice (topicLen + commandSendLen + 1) 4 (by decide)).bytes = intBytes sf := by
    refine Block.slice_of_append (115 :: field.bytes) _ rest _ (h.trans ?_) ?_ (intBytes_length sf)
    · simp only [List.cons_append]
    · rw [List.length_cons, field.size]
  simp only [requestOf, action_eq data h, if_true]
  rw [hfield, hsf, intOfBytes_intBytes]

/-- Only such a buffer is taken for a subscribe message. -/
theorem bytes_of_subscribe {field : Topic} {sf : CInt}
    (h : requestOf data topic = .subscribe field sf) :
    ∃ rest, data.bytes = 115 :: (field.bytes ++ intBytes sf ++ rest) := by
  cases hdata : data.bytes with
  | nil =>
    have hsize := data.size
    rw [hdata] at hsize
    cases hsize
  | cons b bytes =>
    simp only [requestOf, action_eq data hdata] at h
    split_ifs at h with hb hu
    · injection h with hfield hsf
      have htopic : bytes.take (topicLen + commandSendLen) = field.bytes := by
        rw [← hfield, Block.slice_bytes, hdata]
        rfl
      have hflag : (bytes.drop (topicLen + commandSendLen)).take 4 = intBytes sf := by
        have hslice : (data.slice (topicLen + commandSendLen + 1) 4 (by decide)).bytes =
            (bytes.drop (topicLen + commandSendLen)).take 4 := by
          rw [Block.slice_bytes, hdata]
          rfl
        rw [← hslice]
        apply intOfBytes_inj (Block.size _) (intBytes_length sf)
        rw [hsf, intOfBytes_intBytes]
      refine ⟨(bytes.drop (topicLen + commandSendLen)).drop 4, ?_⟩
      rw [hb, ← htopic, ← hflag, List.append_assoc, List.take_append_drop, List.take_append_drop]

/-- The letter alone makes an unsubscribe request. -/
theorem requestOf_unsubscribe {rest : Bytes} (h : data.bytes = 117 :: rest) :
    requestOf data topic = .unsubscribe topic := by
  simp only [requestOf, action_eq data h]
  rfl

end Decoding

/-- No table of the socket that is read from has the topic before its last position. -/
def Removable (r : Reading) (topic : Bytes) : Prop :=
  ∀ c ∈ r.clients, c.sock = r.fd → ∀ t ∈ c.topics.dropLast, cstr t.bytes ≠ topic

/-- What the handler of a command relies on: the flag is clear, the local array holds the
topic of an unsubscribe request, and the deletion of that topic comes to an end. -/
structure Ready (r : Reading) (c : Command) : Prop where
  flag : r.receiveID = false
  topic : ∀ topic, c = .unsubscribe topic → cstr r.topic = topic.text.take topicLen
  removable : ∀ topic, c = .unsubscribe topic → Removable r (topic.text.take topicLen)

/-- A read that is one whole command, with what its handler relies on in its place. -/
structure Delivered (r : Reading) (c : Command) : Prop where
  bytes_eq : r.bytes = c.bytes
  ready : Ready r c

/-- The reads are the messages of the session one by one. -/
def OneByOne (rs : List Reading) (x : Session) : Prop :=
  ∃ r rest, rs = r :: rest ∧ (r.bytes = x.id.message ∧ r.receiveID = true) ∧
    List.Forall₂ Delivered rest x.commands

section Sufficiency

theorem Delivered.handled {r : Reading} {c : Command} (h : Delivered r c) :
    handlingOf r = c.handling := by
  cases c with
  | subscribe topic sf =>
    have hbytes : r.bytes = 115 :: ((topicField topic).bytes ++ intBytes sf ++ [0]) :=
      h.bytes_eq.trans (subscribe_bytes _ topic sf)
    have hlen : r.bytes.length ≤ bufferServerLen := by
      rw [hbytes, List.length_cons, List.length_append, List.length_append, Block.size,
        intBytes_length]
      decide
    have hdata := Block.receive_bytes_of_le r.buffer r.bytes hlen
    rw [hbytes, List.cons_append, List.append_assoc _ [0]] at hdata
    rw [handlingOf_request (by rw [hbytes]; exact List.cons_ne_nil _ _) h.ready.flag, hbytes,
      requestOf_subscribe _ _ hdata]
    rfl
  | unsubscribe topic =>
    have hbytes : r.bytes = 117 :: fieldOf topicLen topic.text :=
      h.bytes_eq.trans (unsubscribe_bytes _ topic)
    have hlen : r.bytes.length ≤ bufferServerLen := by
      rw [hbytes, List.length_cons, fieldOf_length]
      decide
    have hdata := Block.receive_bytes_of_le r.buffer r.bytes hlen
    rw [hbytes, List.cons_append] at hdata
    rw [handlingOf_request (by rw [hbytes]; exact List.cons_ne_nil _ _) h.ready.flag, hbytes,
      requestOf_unsubscribe _ _ hdata]
    exact congrArg Handling.unsubscribe (h.ready.topic topic rfl)

private theorem map_eq_map_iff {α β γ : Type} {f : α → γ} {g : β → γ} {xs : List α} {ys : List β} :
    xs.map f = ys.map g ↔ List.Forall₂ (fun a b => f a = g b) xs ys := by
  rw [← List.forall₂_eq_eq_eq, List.forall₂_map_left_iff, List.forall₂_map_right_iff]

/-- Messages that are read one by one are handled one by one. -/
theorem handled_of_oneByOne {rs : List Reading} {x : Session} (h : OneByOne rs x) :
    rs.map handlingOf = x.handlings := by
  obtain ⟨r, rest, rfl, ⟨hbytes, hflag⟩, hrest⟩ := h
  have hne : r.bytes ≠ [] := by
    intro hnil
    have hlength := x.id.message_length
    rw [← hbytes, hnil] at hlength
    cases hlength
  have hcommands : rest.map handlingOf = x.commands.map Command.handling :=
    map_eq_map_iff.mpr (hrest.imp fun _ _ => Delivered.handled)
  rw [List.map_cons, hcommands, handlingOf_id hne hflag, hbytes, cstr_received]
  rfl

end Sufficiency

section Necessity

def nonzero (b : UInt8) : Bool := b ≠ 0

/-- Nothing but the bytes of a read shows in a cleared buffer. -/
theorem count_received (bytes : Bytes) :
    ((Block.fill bufferServerLen 0).receive bytes).bytes.countP nonzero ≤
      bytes.countP nonzero := by
  have hzeros : ∀ n, (List.replicate n (0 : UInt8)).countP nonzero = 0 := by
    intro n
    rw [List.countP_eq_zero]
    intro b hb
    rw [List.eq_of_mem_replicate hb]
    decide
  rw [Block.receive_bytes, List.countP_append, Block.fill_bytes, List.drop_replicate, hzeros,
    Nat.add_zero]
  exact (List.take_sublist _ _).countP_le

theorem led_received {bytes rest : Bytes} {b : UInt8} (hne : bytes ≠ [])
    (h : ((Block.fill bufferServerLen 0).receive bytes).bytes = b :: rest) (hb : b ≠ 0) :
    Led nonzero bytes := by
  cases bytes with
  | nil => exact absurd rfl hne
  | cons a more =>
    rw [Block.receive_bytes, List.take_succ_cons, List.cons_append, List.cons.injEq] at h
    exact ⟨a, more, rfl, decide_eq_true (by rw [h.1]; exact hb)⟩

/-- The read has as many bytes that count as the message, the first among them. -/
structure Covers (bytes message : Bytes) : Prop where
  count : message.countP nonzero ≤ bytes.countP nonzero
  led : Led nonzero bytes

variable {r : Reading}

theorem receiveID_of_id {text : Bytes} (hne : r.bytes ≠ []) (h : handlingOf r = .id text) :
    r.receiveID = true := by
  cases hflag : r.receiveID with
  | true => rfl
  | false =>
    rw [handlingOf_request hne hflag] at h
    cases hr : requestOf (r.buffer.receive r.bytes) r.topic <;> rw [hr] at h <;> cases h

theorem receiveID_of_command {c : Command} (hne : r.bytes ≠ []) (h : handlingOf r = c.handling) :
    r.receiveID = false := by
  cases hflag : r.receiveID with
  | false => rfl
  | true =>
    rw [handlingOf_id hne hflag] at h
    cases c <;> cases h

/-- The topic of an unsubscribe request comes from the local array in every case. -/
theorem topic_of_unsubscribe {topic : Client.Token} (hne : r.bytes ≠ [])
    (h : handlingOf r = (Command.unsubscribe topic).handling) :
    cstr r.topic = topic.text.take topicLen := by
  rw [handlingOf_request hne (receiveID_of_command hne h)] at h
  simp only [requestOf] at h
  split_ifs at h
  · cases h
  · exact Handling.unsubscribe.inj h
  · cases h

theorem covers_id {id : IdText} (hne : r.bytes ≠ [])
    (hclear : r.buffer = Block.fill bufferServerLen 0) (h : handlingOf r = .id id.text) :
    Covers r.bytes id.message := by
  rw [handlingOf_id hne (receiveID_of_id hne h), hclear] at h
  have htext : cstr ((Block.fill bufferServerLen 0).receive r.bytes).bytes = id.text :=
    Handling.id.inj h
  constructor
  · have hpadding : id.message.countP nonzero = id.text.countP nonzero := by
      rw [IdText.message, List.append_assoc, List.countP_append, Nat.add_eq_left,
        List.countP_eq_zero]
      intro b hb
      rcases List.mem_append.mp hb with hb | hb
      · rw [List.eq_of_mem_replicate hb]
        decide
      · rw [List.mem_singleton.mp hb]
        decide
    have hprefix : id.text <+: ((Block.fill bufferServerLen 0).receive r.bytes).bytes := by
      rw [← htext]
      exact List.takeWhile_prefix _
    rw [hpadding]
    exact hprefix.sublist.countP_le.trans (count_received r.bytes)
  · cases hdata : ((Block.fill bufferServerLen 0).receive r.bytes).bytes with
    | nil =>
      rw [hdata, cstr_nil] at htext
      exact absurd htext.symm id.nonempty
    | cons b rest =>
      refine led_received hne hdata ?_
      intro hb
      rw [hdata, hb, cstr_zero_cons] at htext
      exact absurd htext.symm id.nonempty

theorem covers_subscribe {topic : Client.Token} {sf : CInt} (hne : r.bytes ≠ [])
    (hclear : r.buffer = Block.fill bufferServerLen 0)
    (h : handlingOf r = (Command.subscribe topic sf).handling) :
    Covers r.bytes (Command.subscribe topic sf).bytes := by
  rw [handlingOf_request hne (receiveID_of_command hne h), hclear] at h
  have hrequest : requestOf ((Block.fill bufferServerLen 0).receive r.bytes) r.topic =
      .subscribe (topicField topic) sf := by
    cases hr : requestOf ((Block.fill bufferServerLen 0).receive r.bytes) r.topic with
    | subscribe topic' sf' =>
      rw [hr] at h
      cases h
      rfl
    | _ =>
      rw [hr] at h
      cases h
  obtain ⟨rest, hdata⟩ := bytes_of_subscribe _ _ hrequest
  constructor
  · have hle := count_received r.bytes
    have hmessage : (Command.subscribe topic sf).bytes =
        115 :: ((topicField topic).bytes ++ intBytes sf) ++ [0] :=
      subscribe_bytes _ topic sf
    have hlast : [(0 : UInt8)].countP nonzero = 0 := by decide
    rw [hdata, ← List.cons_append, List.countP_append] at hle
    rw [hmessage, List.countP_append, hlast]
    omega
  · exact led_received hne hdata (by decide)

end Necessity

/-- The session has no unsubscribe request. -/
def Session.SubscribesOnly (x : Session) : Prop :=
  ∀ c ∈ x.commands, ∃ topic sf, c = .subscribe topic sf

theorem messages_led (x : Session) : ∀ m ∈ x.messages, Led nonzero m := by
  intro m hm
  rcases List.mem_cons.mp hm with rfl | hm
  · cases htext : x.id.text with
    | nil => exact absurd htext x.id.nonempty
    | cons b rest =>
      have hb : b ≠ 0 := x.id.noNul b (by rw [htext]; exact List.mem_cons_self ..)
      refine ⟨b, rest ++ List.replicate (idLen - (b :: rest).length) 0 ++ [0], ?_,
        decide_eq_true hb⟩
      rw [IdText.message, htext]
      rfl
  · obtain ⟨c, _, rfl⟩ := List.mem_map.mp hm
    cases c with
    | subscribe topic sf => exact ⟨115, _, subscribe_bytes _ topic sf, by decide⟩
    | unsubscribe topic => exact ⟨117, _, unsubscribe_bytes _ topic, by decide⟩

theorem covers_commands {rest : List Reading} {commands : List Command}
    (h : List.Forall₂ (fun r c => handlingOf r = c.handling) rest commands)
    (hne : ∀ r ∈ rest, r.bytes ≠ [])
    (hclear : ∀ r ∈ rest, r.buffer = Block.fill bufferServerLen 0)
    (honly : ∀ c ∈ commands, ∃ topic sf, c = .subscribe topic sf) :
    List.Forall₂ (fun r c => Covers r.bytes c.bytes) rest commands := by
  induction h with
  | nil => exact List.Forall₂.nil
  | @cons r c rest commands hrc _ ih =>
    rw [List.forall_mem_cons] at hne hclear honly
    obtain ⟨topic, sf, rfl⟩ := honly.1
    exact List.Forall₂.cons (covers_subscribe hne.1 hclear.1 hrc) (ih hne.2 hclear.2 honly.2)

/-- Reads into a cleared buffer that are handled as the messages are the messages. -/
theorem bytes_eq_of_handled {rs : List Reading} {x : Session} (hne : ∀ r ∈ rs, r.bytes ≠ [])
    (hclear : ∀ r ∈ rs, r.buffer = Block.fill bufferServerLen 0) (honly : x.SubscribesOnly)
    (hflat : (rs.map Reading.bytes).flatten = x.messages.flatten)
    (h : rs.map handlingOf = x.handlings) : rs.map Reading.bytes = x.messages := by
  have hcovers : List.Forall₂ Covers (rs.map Reading.bytes) x.messages := by
    cases rs with
    | nil => cases h
    | cons r rest =>
      rw [List.map_cons, Session.handlings, List.cons.injEq, map_eq_map_iff] at h
      rw [List.forall_mem_cons] at hne hclear
      refine List.Forall₂.cons (covers_id hne.1 hclear.1 h.1) ?_
      rw [List.forall₂_map_left_iff, List.forall₂_map_right_iff]
      exact covers_commands h.2 hne.2 hclear.2 honly
  have hpairs : List.Forall₂ (fun bytes message => Led nonzero bytes ∧
      message.countP nonzero ≤ bytes.countP nonzero) (rs.map Reading.bytes) x.messages :=
    hcovers.imp fun _ _ h => ⟨h.led, h.count⟩
  obtain ⟨hled, hcount⟩ := (List.forall₂_and_left _ _).mp hpairs
  exact pieces_eq_of_count_le hcount hflat hled (messages_led x)

theorem delivered_commands {rest : List Reading} {commands : List Command}
    (h : List.Forall₂ (fun r c => r.bytes = c.bytes) rest commands)
    (hflag : ∀ r ∈ rest, r.receiveID = false)
    (honly : ∀ c ∈ commands, ∃ topic sf, c = .subscribe topic sf) :
    List.Forall₂ Delivered rest commands := by
  induction h with
  | nil => exact List.Forall₂.nil
  | @cons r c rest commands hrc _ ih =>
    rw [List.forall_mem_cons] at hflag honly
    obtain ⟨topic, sf, rfl⟩ := honly.1
    refine List.Forall₂.cons ⟨hrc, hflag.1, ?_, ?_⟩ (ih hflag.2 honly.2)
    · intro topic hc
      cases hc
    · intro topic hc
      cases hc

/-- Reads that are the messages of subscribe requests, with the flag for the first. -/
theorem oneByOne_of_bytes {rs : List Reading} {x : Session} (honly : x.SubscribesOnly)
    (hflags : ∀ r rest, rs = r :: rest → r.receiveID = true ∧ ∀ q ∈ rest, q.receiveID = false)
    (h : rs.map Reading.bytes = x.messages) : OneByOne rs x := by
  cases rs with
  | nil => cases h
  | cons r rest =>
    obtain ⟨htrue, hfalse⟩ := hflags r rest rfl
    rw [List.map_cons, Session.messages, List.cons.injEq, map_eq_map_iff] at h
    exact ⟨r, rest, rfl, ⟨h.1, htrue⟩, delivered_commands h.2 hfalse honly⟩

/-- The flag is set for the first read only, and the handlers of the others find what they
rely on. -/
def Prepared (rs : List Reading) (x : Session) : Prop :=
  ∃ r rest, rs = r :: rest ∧ r.receiveID = true ∧ List.Forall₂ Ready rest x.commands

theorem prepared_of_handled {rs : List Reading} {x : Session} (hne : ∀ r ∈ rs, r.bytes ≠ [])
    (hremovable : ∀ r ∈ rs, ∀ topic, handlingOf r = .unsubscribe topic → Removable r topic)
    (h : rs.map handlingOf = x.handlings) : Prepared rs x := by
  cases rs with
  | nil => cases h
  | cons r rest =>
    rw [List.map_cons, Session.handlings, List.cons.injEq, map_eq_map_iff] at h
    rw [List.forall_mem_cons] at hne hremovable
    refine ⟨r, rest, rfl, receiveID_of_id hne.1 h.1, ?_⟩
    have hboth : ∀ q ∈ rest, q.bytes ≠ [] ∧
        ∀ topic, handlingOf q = .unsubscribe topic → Removable q topic :=
      fun q hq => ⟨hne.2 q hq, hremovable.2 q hq⟩
    refine ((List.forall₂_and_left _ _).mpr ⟨hboth, h.2⟩).imp ?_
    rintro q c ⟨⟨hq, hrem⟩, hqc⟩
    refine ⟨receiveID_of_command hq hqc, ?_, ?_⟩
    · rintro topic rfl
      exact topic_of_unsubscribe hq hqc
    · rintro topic rfl
      exact hrem _ hqc

end TopicBroker.CommandFraming
