import TopicBroker.Client
import TopicBroker.Publish

/-!
A published datagram seen from both ends. `publicationOf` says what a padded
datagram publishes and `Decodes` that a frame carries it to a subscriber. The
server's frames do: encoder and decoder agree on every field.
-/
namespace TopicBroker.RoundTrip

open ByteBlocks ByteOrder Message Frames Registry Publish Client

structure Publication where
  topic : Bytes
  type : UInt8
  content : Block contentLen

/-- The three fields of a datagram; the topic ends at its first NUL or fills its field. -/
def publicationOf (data : Block bufferServerLen) : Publication where
  topic := cstr (data.bytes.take topicLen)
  type := (data.slice topicLen typeLen (by decide)).bytes.headD 0
  content := data.slice (topicLen + typeLen) contentLen (by decide)

/-- The value of a word in network order. -/
def networkValue (bytes : Bytes) : ℕ := hostValue bytes.reverse

/-- What a subscriber makes of the content, for each type. The value of an INT is the `int` that
the subscriber computes, which is the number published for magnitudes below 2^31 only. -/
def valueOf (type : UInt8) (content : Block contentLen) : Option Value :=
  let sign := (content.slice 0 1 (by decide)).bytes.headD 0
  let word := UInt32.ofNat (networkValue (content.slice 1 4 (by decide)).bytes)
  if type = 0 then some (.int (if sign = 1 then negate (toInt word) else some (toInt word)))
  else if type = 1 then
    some (.shortReal (UInt16.ofNat (networkValue (content.slice 0 2 (by decide)).bytes)))
  else if type = 2 then
    some (.float sign word ((content.slice 5 1 (by decide)).bytes.headD 0))
  else if type = 3 then some (.string (cstr content.bytes))
  else none

/-- The frame carries the publication and its sender, whatever memory lies behind
the buffers of the subscriber. -/
structure Decodes (frame : Frame) (p : Publication) (ip : InAddr) (port : UInt16) : Prop where
  type_eq : (frame.slice topicLen typeLen (by decide)).bytes = [p.type]
  content_eq : frame.slice (topicLen + typeLen) contentLen (by decide) = p.content
  printed : ∀ beyond, processMessage beyond frame =
    match valueOf p.type p.content with
    | some value => .stdout ⟨inetNtoa ip, port, p.topic, value⟩
    | none => .stderr "Invalid message.\n"
  last : frame.bytes.getLast? = some carriageReturn

theorem ntohl_wordOfBytes {bytes : Bytes} (h : bytes.length = 4) :
    ntohl (wordOfBytes bytes) = UInt32.ofNat (networkValue bytes) := by
  have hlt := hostValue_lt bytes
  rw [h] at hlt
  have hval : (wordOfBytes bytes).toNat = hostValue bytes := by
    rw [wordOfBytes, UInt32.toNat_ofNat']
    omega
  have hback := hostBytes_hostValue bytes
  rw [h] at hback
  rw [ntohl, hval, hback, networkValue]

theorem ntohs_shortOfBytes {bytes : Bytes} (h : bytes.length = 2) :
    ntohs (shortOfBytes bytes) = UInt16.ofNat (networkValue bytes) := by
  have hlt := hostValue_lt bytes
  rw [h] at hlt
  have hval : (shortOfBytes bytes).toNat = hostValue bytes := by
    rw [shortOfBytes, UInt16.toNat_ofNat']
    omega
  have hback := hostBytes_hostValue bytes
  rw [h] at hback
  rw [ntohs, htons, hval, hback, networkValue]

/-- A field of a frame that lies inside the datagram is that field of the datagram. -/
theorem slice_frameOf (data : Block bufferServerLen) (addr : SockaddrIn) {off len : ℕ}
    (h : off + len ≤ bufferServerLen) (h' : off + len ≤ formatLen) :
    (frameOf data addr).slice off len h' = data.slice off len h := by
  apply Block.ext
  have hsize := data.size
  rw [Block.slice_bytes, Block.slice_bytes, frameOf]
  simp only [List.append_assoc]
  rw [List.drop_append_of_le_length (by omega),
    List.take_append_of_le_length (by rw [List.length_drop]; omega)]

private theorem bytes_eq_singleton (b : Block 1) : b.bytes = [b.bytes.headD 0] := by
  obtain ⟨x, hx⟩ := List.length_eq_one_iff.mp b.size
  rw [hx]
  rfl

private theorem slice_address (data : Block bufferServerLen) (addr : SockaddrIn) :
    ((frameOf data addr).slice (contentLen + topicLen + typeLen) ipCharLen (by decide)).bytes =
      addressField addr := by
  apply Block.slice_of_append data.bytes _ (shortBytes addr.sinPort ++ [carriageReturn]) _ _ data.size
    (addressField_length addr)
  simp only [frameOf, List.append_assoc]

private theorem slice_port (data : Block bufferServerLen) (addr : SockaddrIn) :
    ((frameOf data addr).slice (contentLen + topicLen + typeLen + ipCharLen) portLen
      (by decide)).bytes = shortBytes addr.sinPort := by
  apply Block.slice_of_append (data.bytes ++ addressField addr) _ [carriageReturn] _ rfl _
    (shortBytes_length addr.sinPort)
  rw [List.length_append, data.size, addressField_length]
  rfl

/-- The address text ends inside its field. -/
private theorem cstr_address_beyond (addr : SockaddrIn) (beyond : Bytes) :
    cstr (addressField addr ++ beyond) = inetNtoa addr.sinAddr := by
  have hlt := inetNtoa_length addr.sinAddr
  rw [cstr_append_of_lt beyond (by rw [cstr_addressField, addressField_length]; exact hlt),
    cstr_addressField]

/-- The value printed depends on the type and the content field alone. -/
theorem processMessage_eq (frame : Frame) (beyond : Bytes) :
    processMessage beyond frame =
      match valueOf ((frame.slice topicLen typeLen (by decide)).bytes.headD 0)
        (frame.slice (topicLen + typeLen) contentLen (by decide)) with
      | some value => .stdout ⟨cstr ((frame.slice (contentLen + topicLen + typeLen) ipCharLen
            (by decide)).bytes ++ beyond),
          ntohs (shortOfBytes (frame.slice (contentLen + topicLen + typeLen + ipCharLen) portLen
            (by decide)).bytes),
          cstr (frame.slice 0 topicLen (by decide)).bytes, value⟩
      | none => .stderr "Invalid message.\n" := by
  have hword : ntohl (wordOfBytes (frame.slice (topicLen + typeLen + signLen) 4
      (by decide)).bytes) = UInt32.ofNat (networkValue
        ((frame.slice (topicLen + typeLen) contentLen (by decide)).slice 1 4 (by decide)).bytes) := by
    rw [ntohl_wordOfBytes (Block.size _), Block.slice_slice]
  have hshort : ntohs (shortOfBytes (frame.slice (topicLen + typeLen) 2 (by decide)).bytes) =
      UInt16.ofNat (networkValue
        ((frame.slice (topicLen + typeLen) contentLen (by decide)).slice 0 2 (by decide)).bytes) := by
    rw [ntohs_shortOfBytes (Block.size _), Block.slice_slice]
    rfl
  have hsign : (frame.slice (topicLen + typeLen) signLen (by decide)).bytes.headD 0 =
      ((frame.slice (topicLen + typeLen) contentLen (by decide)).slice 0 1
        (by decide)).bytes.headD 0 := by
    rw [Block.slice_slice]
    rfl
  have hpoint : (frame.slice (topicLen + typeLen + signLen + 4) 1 (by decide)).bytes.headD 0 =
      ((frame.slice (topicLen + typeLen) contentLen (by decide)).slice 5 1
        (by decide)).bytes.headD 0 := by
    rw [Block.slice_slice]
  simp only [processMessage, processIntMessage, processShortRealMessage, processFloatMessage,
    processStringMessage, valueOf, hword, hshort, hsign, hpoint, cstr_terminated]
  split_ifs <;> rfl

theorem frameOf_decodes (data : Block bufferServerLen) (ip : InAddr) (port : UInt16) :
    Decodes (frameOf data (.ofSender ip port)) (publicationOf data) ip port := by
  have htype := slice_frameOf data (.ofSender ip port)
    (show topicLen + typeLen ≤ bufferServerLen by decide) (by decide)
  have hcontent := slice_frameOf data (.ofSender ip port)
    (show topicLen + typeLen + contentLen ≤ bufferServerLen by decide) (by decide)
  have htopic := slice_frameOf data (.ofSender ip port)
    (show 0 + topicLen ≤ bufferServerLen by decide) (by decide)
  exact {
    type_eq := by
      rw [htype]
      exact bytes_eq_singleton _
    content_eq := hcontent
    printed := by
      intro beyond
      rw [processMessage_eq, htype, hcontent, htopic, slice_address, slice_port,
        cstr_address_beyond, shortOfBytes_shortBytes]
      simp only [SockaddrIn.ofSender, ntohs_htons]
      rfl
    last := by
      rw [frameOf]
      exact List.getLast?_concat
  }

/-- A topic that fills its field is read in full. -/
theorem topic_full {datagram : Bytes} (hlen : datagram.length ≤ bufferServerLen)
    (hfull : topicLen ≤ datagram.length) (hne : ∀ b ∈ datagram.take topicLen, b ≠ 0) :
    (publicationOf (padded datagram)).topic = datagram.take topicLen := by
  change cstr ((padded datagram).bytes.take topicLen) = _
  rw [padded_bytes hlen, List.take_append_of_le_length hfull, cstr_of_ne_zero hne]

/-- A STRING is printed up to its first NUL, and in full when it has none. -/
theorem string_full (content : Block contentLen) :
    valueOf 3 content = some (.string (cstr content.bytes)) ∧
      ((∀ b ∈ content.bytes, b ≠ 0) → cstr content.bytes = content.bytes) :=
  ⟨rfl, cstr_of_ne_zero⟩

/-- Every frame that is built, sent or stored for a datagram decodes to what the
datagram published, whatever the buffers on the way held before. -/
theorem published_frame_roundTrip (datagram : Bytes) (hlen : datagram.length ≤ bufferServerLen)
    (ip : InAddr) (port : UInt16) (buffer : Block bufferServerLen) :
    (receiveDatagram buffer datagram).bytes =
      datagram ++ List.replicate (bufferServerLen - datagram.length) 0 ∧
    (∀ format ipaddr,
      Decodes (formatBuffer format (receiveDatagram buffer datagram) ipaddr (.ofSender ip port)).1
        (publicationOf (receiveDatagram buffer datagram)) ip port) ∧
    (∀ locals stack clients p,
      receiveUdpMessage buffer datagram (.ofSender ip port) locals stack clients = .ok p →
      (∀ x ∈ p.sends,
        Decodes x.frame (publicationOf (receiveDatagram buffer datagram)) ip port) ∧
      (p.stack = stack ∨ ∃ frame, p.stack.temp = some frame ∧
        Decodes frame (publicationOf (receiveDatagram buffer datagram)) ip port)) ∧
    (topicLen ≤ datagram.length → (∀ b ∈ datagram.take topicLen, b ≠ 0) →
      (publicationOf (receiveDatagram buffer datagram)).topic = datagram.take topicLen) ∧
    ∀ content : Block contentLen, valueOf 3 content = some (.string (cstr content.bytes)) ∧
      ((∀ b ∈ content.bytes, b ≠ 0) → cstr content.bytes = content.bytes) := by
  rw [receiveDatagram_eq]
  refine ⟨padded_bytes hlen, ?_, ?_, topic_full hlen, string_full⟩
  · intro format ipaddr
    rw [formatBuffer_eq]
    exact frameOf_decodes (padded datagram) ip port
  · intro locals stack clients p hp
    have hspec := receiveUdpMessage_spec hp
    constructor
    · intro x hx
      rw [hspec.sends_eq, List.mem_flatMap] at hx
      obtain ⟨c, _, hx⟩ := hx
      unfold routed at hx
      split at hx
      · exact absurd hx List.not_mem_nil
      · rw [List.eq_of_mem_replicate hx]
        exact frameOf_decodes (padded datagram) ip port
    · rw [hspec.stack_eq]
      split
      · exact Or.inr ⟨_, rfl, frameOf_decodes (padded datagram) ip port⟩
      · exact Or.inl rfl

/-- A datagram of full length whose topic and string leave no room for a NUL. -/
def fullDatagram : Bytes :=
  List.replicate topicLen 97 ++ 3 :: List.replicate contentLen 98

/-- An online subscriber to the topic of that datagram. -/
def fullSubscriber : Client where
  sock := 5
  ID := Block.fill idLen 97
  following := []
  topics := [⟨List.replicate topicLen 97 ++ [0], by decide⟩]
  sfs := [1]
  inWaiting := []

theorem published_frame_roundTrip_full :
    ∃ p, receiveUdpMessage (Block.fill bufferServerLen 255) fullDatagram
        (.ofSender ⟨127, 0, 0, 1⟩ 8080)
        ⟨Block.fill _ 255, Block.fill _ 255, Block.fill _ 255⟩ ⟨none⟩ [fullSubscriber] = .ok p ∧
      p.sends.length = 1 ∧
      (∀ x ∈ p.sends, Decodes x.frame
        (publicationOf (receiveDatagram (Block.fill bufferServerLen 255) fullDatagram))
        ⟨127, 0, 0, 1⟩ 8080) ∧
      (publicationOf (receiveDatagram (Block.fill bufferServerLen 255) fullDatagram)).topic =
        List.replicate topicLen 97 := by
  have hlen : fullDatagram.length ≤ bufferServerLen := by decide +kernel
  obtain ⟨_, _, hpublish, htopic, _⟩ := published_frame_roundTrip fullDatagram hlen
    ⟨127, 0, 0, 1⟩ 8080 (Block.fill bufferServerLen 255)
  have hflags : ∀ c ∈ [fullSubscriber], c.topics.length ≤ c.sfs.length := by decide
  obtain ⟨p, hp⟩ := receiveUdpMessage_total hflags _ _ _ _ _
  refine ⟨p, hp, ?_, (hpublish _ _ _ p hp).1, htopic (by decide +kernel) (by decide +kernel)⟩
  rw [(receiveUdpMessage_spec hp).sends_eq]
  decide +kernel

end TopicBroker.RoundTrip
