import TopicBroker.Message

/-!
The frame that the server sends for a datagram. `receiveDatagram` and
`datagramTopic` are the first statements of `receive_udp_message`, and
`formatBuffer` is `format_buffer` write by write. All of them work on memory
with arbitrary earlier contents; `formatBuffer_eq` says that nothing of it shows.
-/
namespace TopicBroker.Frames

open ByteBlocks ByteOrder Message

/-- `memset` of the buffer and the `recvfrom` that fills it. -/
def receiveDatagram (buffer : Block bufferServerLen) (datagram : Bytes) : Block bufferServerLen :=
  (buffer.write 0 (List.replicate bufferServerLen 0)
    (by rw [List.length_replicate, Nat.zero_add])).receive datagram

/-- The datagram padded with zeros to the length of the server's buffer. -/
def padded (datagram : Bytes) : Block bufferServerLen :=
  (Block.fill bufferServerLen 0).receive datagram

def datagramTopic (topic : Topic) (buffer : Block bufferServerLen) : Topic :=
  (topic.write 0 (buffer.slice 0 topicLen (by decide)).bytes (by simp)).write topicLen [0]
    (by simp)

/-- The address text that `strcpy` of `inet_ntoa` leaves in `ipaddr`. -/
def copyAddress (ipaddr : Block ipCharLen) (addr : SockaddrIn) : Block ipCharLen :=
  ipaddr.write 0 (inetNtoa addr.sinAddr ++ [0]) (by
    have h := inetNtoa_length addr.sinAddr
    simp only [List.length_append, List.length_singleton]
    omega)

/-- The frame buffer and the address buffer after the call. -/
def formatBuffer (format : Frame) (buffer : Block bufferServerLen) (ipaddr : Block ipCharLen)
    (addr : SockaddrIn) : Frame × Block ipCharLen :=
  let ipaddr := copyAddress ipaddr addr
  let format := format.write 0
    (List.replicate (bufferServerLen + ipCharLen + 2 * nullLen) 0) (by simp; decide)
  let format := format.write 0 buffer.bytes (by simp; decide)
  let format := format.write bufferServerLen (cstr ipaddr.bytes) (by
    have h := cstr_length_le ipaddr.bytes
    rw [ipaddr.size] at h
    simp only [bufferServerLen, ipCharLen, formatLen, nullLen, typeLen] at h ⊢
    omega)
  let format := format.write (bufferServerLen + ipCharLen) (shortBytes addr.sinPort) (by
    simp; decide)
  (format.write (bufferServerLen + ipCharLen + 2 * nullLen) [carriageReturn] (by simp), ipaddr)

/-- The address text padded with zeros to its field. -/
def addressField (addr : SockaddrIn) : Bytes :=
  inetNtoa addr.sinAddr ++ List.replicate (ipCharLen - (inetNtoa addr.sinAddr).length) 0

theorem addressField_length (addr : SockaddrIn) : (addressField addr).length = ipCharLen := by
  have h := inetNtoa_length addr.sinAddr
  simp only [addressField, List.length_append, List.length_replicate]
  omega

theorem cstr_addressField (addr : SockaddrIn) : cstr (addressField addr) = inetNtoa addr.sinAddr :=
  cstr_append_replicate (inetNtoa_ne_zero addr.sinAddr) _

/-- The fields of a frame in their order. -/
def frameOf (buffer : Block bufferServerLen) (addr : SockaddrIn) : Frame :=
  ⟨buffer.bytes ++ addressField addr ++ shortBytes addr.sinPort ++ [carriageReturn], by
    simp [addressField_length]; decide⟩

theorem receiveDatagram_eq (buffer : Block bufferServerLen) (datagram : Bytes) :
    receiveDatagram buffer datagram = padded datagram := by
  have hclear : buffer.write 0 (List.replicate bufferServerLen 0)
      (by rw [List.length_replicate, Nat.zero_add]) = Block.fill bufferServerLen 0 :=
    Block.ext (Block.write_all _ List.length_replicate)
  rw [receiveDatagram, hclear, padded]

theorem padded_bytes {datagram : Bytes} (h : datagram.length ≤ bufferServerLen) :
    (padded datagram).bytes =
      datagram ++ List.replicate (bufferServerLen - datagram.length) 0 := by
  rw [padded, Block.receive_bytes_of_le _ _ h, Block.fill_bytes, List.drop_replicate]

theorem datagramTopic_bytes (topic : Topic) (buffer : Block bufferServerLen) :
    (datagramTopic topic buffer).bytes = buffer.bytes.take topicLen ++ [0] := by
  have hfield := (buffer.slice 0 topicLen (by decide)).size
  have hcopy : (topic.write 0 (buffer.slice 0 topicLen (by decide)).bytes
      (by rw [hfield]; decide)).bytes = _ := Block.write_zero _ hfield
  rw [datagramTopic, Block.write_at _ _ _ _ hcopy hfield rfl, List.drop_drop,
    List.drop_eq_nil_of_le (by rw [topic.size]; decide), List.append_nil]
  rfl

/-- The string compared with the subscriptions is the one in the topic field. -/
theorem cstr_datagramTopic (topic : Topic) (buffer : Block bufferServerLen) :
    cstr (datagramTopic topic buffer).bytes = cstr (buffer.bytes.take topicLen) := by
  rw [datagramTopic_bytes, cstr_terminated]

private theorem cstr_copyAddress (ipaddr : Block ipCharLen) (addr : SockaddrIn) :
    cstr (copyAddress ipaddr addr).bytes = inetNtoa addr.sinAddr := by
  rw [copyAddress, Block.write_zero _ rfl, List.append_assoc, List.singleton_append]
  exact cstr_append_zero (inetNtoa_ne_zero addr.sinAddr) _

/-- The frame buffer behind each write: what is already final, then what is still
zero, then the last byte, which only the last write reaches. -/
private theorem fields_write {frame : Frame} {pre src last : Bytes} {off len zeros : ℕ}
    (h : off + src.length ≤ formatLen) (hframe : frame.bytes = pre ++ List.replicate zeros 0 ++ last)
    (hpre : pre.length = off) (hlen : src.length = len) (hzeros : len ≤ zeros) :
    (frame.write off src h).bytes = pre ++ src ++ List.replicate (zeros - len) 0 ++ last := by
  rw [List.append_assoc] at hframe
  rw [Block.write_at _ _ _ h hframe hpre hlen,
    List.drop_append_of_le_length (by rw [List.length_replicate]; exact hzeros),
    List.drop_replicate, ← List.append_assoc]

/-- Whatever the two buffers held before, the frame is its four fields in order. -/
theorem formatBuffer_eq (format : Frame) (buffer : Block bufferServerLen)
    (ipaddr : Block ipCharLen) (addr : SockaddrIn) :
    (formatBuffer format buffer ipaddr addr).1 = frameOf buffer addr := by
  have hip := cstr_copyAddress ipaddr addr
  have hlen := inetNtoa_length addr.sinAddr
  obtain ⟨last, hlast⟩ : ∃ last, format.bytes.drop (bufferServerLen + ipCharLen + 2 * nullLen) = last :=
    ⟨_, rfl⟩
  have hlastLen : last.length = 1 := by rw [← hlast, List.length_drop, format.size]; decide
  have hclear : (format.write 0 (List.replicate (bufferServerLen + ipCharLen + 2 * nullLen) 0)
      (by rw [List.length_replicate]; decide)).bytes =
        [] ++ List.replicate (bufferServerLen + ipCharLen + 2 * nullLen) 0 ++ last := by
    rw [Block.write_zero _ List.length_replicate, hlast, List.nil_append]
  have hbuffer := fields_write (by rw [buffer.size]; decide) hclear rfl buffer.size (by decide)
  rw [List.nil_append] at hbuffer
  have haddress := fields_write
    (by rw [hip]; simp only [ipCharLen, bufferServerLen, formatLen, nullLen, typeLen] at hlen ⊢; omega)
    hbuffer buffer.size (congrArg List.length hip)
    (by simp only [ipCharLen, bufferServerLen] at hlen ⊢; omega)
  have hsplit : buffer.bytes ++ cstr (copyAddress ipaddr addr).bytes ++
      List.replicate (bufferServerLen + ipCharLen + 2 * nullLen - bufferServerLen -
        (inetNtoa addr.sinAddr).length) 0 =
      buffer.bytes ++ addressField addr ++ List.replicate 2 0 := by
    rw [hip, addressField, ← List.append_assoc, List.append_assoc (buffer.bytes ++ _),
      List.replicate_append_replicate]
    congr 2
    simp only [ipCharLen, bufferServerLen, nullLen] at hlen ⊢
    omega
  rw [hsplit] at haddress
  have hfront : (buffer.bytes ++ addressField addr).length = bufferServerLen + ipCharLen := by
    rw [List.length_append, buffer.size, addressField_length]
  have hport := fields_write (by rw [shortBytes_length]; decide) haddress hfront
    (shortBytes_length addr.sinPort) le_rfl
  rw [Nat.sub_self, List.replicate_zero, List.append_nil] at hport
  apply Block.ext
  have hdone := Block.write_at [carriageReturn] _ last
    (show bufferServerLen + ipCharLen + 2 * nullLen + [carriageReturn].length ≤ formatLen by decide)
    hport (by rw [List.length_append, hfront, shortBytes_length, Nat.mul_one]) rfl
  rw [List.drop_eq_nil_of_le (show last.length ≤ [carriageReturn].length from le_of_eq hlastLen),
    List.append_nil] at hdone
  exact hdone

end TopicBroker.Frames
