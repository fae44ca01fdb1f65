import TopicBroker.RoundTrip

/-!
The value of an INT message. A sign and a magnitude of 32 bits are published; the
subscriber converts the magnitude to an `int` before it looks at the sign, so the number
printed is the one published for magnitudes below 2^31 and for no others.
-/
namespace TopicBroker.IntValue

open ByteBlocks ByteOrder Message Frames Client RoundTrip

/-- A datagram of type 0: topic, type, sign, magnitude and whatever follows. -/
def intDatagram (topic : Block topicLen) (negative : Bool) (n : UInt32) (rest : Bytes) : Bytes :=
  topic.bytes ++ (0 :: (if negative then 1 else 0) :: networkBytes n) ++ rest

/-- The number that a sign and a magnitude stand for. -/
def signed (negative : Bool) (n : UInt32) : ℤ := if negative then -(n.toNat : ℤ) else n.toNat

/-- A line on the standard output that shows the number. -/
def Shows (out : Printed) (v : ℤ) : Prop := ∃ line, out = .stdout line ∧ line.value = .int (some v)

/-- The number that the subscriber computes, absent on a signed overflow. -/
def computed (negative : Bool) (n : UInt32) : Option ℤ :=
  if negative then negate (toInt n) else some (toInt n)

theorem toInt_eq (n : UInt32) :
    toInt n = if n.toNat < 2 ^ 31 then (n.toNat : ℤ) else (n.toNat : ℤ) - 2 ^ 32 := by
  have hn : n.toNat < 2 ^ 32 := n.toNat_lt
  rw [toInt, BitVec.toInt_eq_toNat_cond, UInt32.toNat_toBitVec]
  split_ifs <;> omega

theorem computed_eq_some_iff (negative : Bool) (n : UInt32) :
    computed negative n = some (signed negative n) ↔ n.toNat < 2 ^ 31 := by
  have hn : n.toNat < 2 ^ 32 := n.toNat_lt
  have hint := toInt_eq n
  cases negative with
  | false =>
    change some (toInt n) = some (n.toNat : ℤ) ↔ _
    rw [Option.some.injEq, hint]
    split_ifs <;> omega
  | true =>
    change negate (toInt n) = some (-(n.toNat : ℤ)) ↔ _
    unfold negate
    by_cases hsmall : n.toNat < 2 ^ 31
    · rw [if_pos hsmall] at hint
      rw [if_neg (by omega), hint]
      exact iff_of_true rfl hsmall
    · rw [if_neg hsmall] at hint
      refine iff_of_false ?_ hsmall
      split_ifs
      · exact fun h => by cases h
      · rw [Option.some.injEq]
        omega

section Layout

variable (topic : Block topicLen) (negative : Bool) (n : UInt32) (rest : Bytes)

/-- The server's buffer starts with the fields of the datagram. -/
theorem padded_intDatagram : ∃ post, (padded (intDatagram topic negative n rest)).bytes =
    topic.bytes ++ (0 :: (if negative then 1 else 0) :: networkBytes n) ++ post := by
  have hfront : (topic.bytes ++ (0 :: (if negative then 1 else 0) :: networkBytes n)).length = 56 := by
    rw [List.length_append, topic.size, List.length_cons, List.length_cons, networkBytes_length]
  rw [padded, Block.receive_bytes, intDatagram, List.take_append, hfront,
    List.take_of_length_le (by rw [hfront]; decide), List.append_assoc _ (rest.take _)]
  exact ⟨_, rfl⟩

theorem publicationOf_intDatagram :
    (publicationOf (padded (intDatagram topic negative n rest))).type = 0 ∧
      valueOf 0 (publicationOf (padded (intDatagram topic negative n rest))).content =
        some (.int (computed negative n)) := by
  obtain ⟨post, hdata⟩ := padded_intDatagram topic negative n rest
  have htype : ((padded (intDatagram topic negative n rest)).slice topicLen typeLen
      (by decide)).bytes = [0] := by
    refine Block.slice_of_append topic.bytes [0]
      ((if negative then 1 else 0) :: networkBytes n ++ post) _ (hdata.trans ?_) topic.size rfl
    simp only [List.append_assoc, List.cons_append, List.nil_append]
  have hsign : ((padded (intDatagram topic negative n rest)).slice (topicLen + typeLen + 0) 1
      (by decide)).bytes = [if negative then 1 else 0] := by
    refine Block.slice_of_append (topic.bytes ++ [0]) _ (networkBytes n ++ post) _
      (hdata.trans ?_) ?_ rfl
    · simp only [List.append_assoc, List.cons_append, List.nil_append]
    · rw [List.length_append, topic.size, List.length_singleton]
  have hword : ((padded (intDatagram topic negative n rest)).slice (topicLen + typeLen + 1) 4
      (by decide)).bytes = networkBytes n := by
    refine Block.slice_of_append (topic.bytes ++ [0, if negative then 1 else 0]) _ post _
      (hdata.trans ?_) ?_ (networkBytes_length n)
    · simp only [List.append_assoc, List.cons_append, List.nil_append]
    · rw [List.length_append, topic.size]
      rfl
  constructor
  · change ((padded _).slice topicLen typeLen _).bytes.headD 0 = 0
    rw [htype]
    rfl
  · simp only [publicationOf, valueOf, Block.slice_slice, hsign, hword, if_true]
    rw [networkValue, hostValue_networkBytes, UInt32.ofNat_toNat]
    cases negative <;> rfl

end Layout

/-- The number printed for an INT datagram is the number published in exactly this case. -/
theorem int_printed_iff (topic : Block topicLen) (negative : Bool) (n : UInt32) (rest : Bytes)
    (buffer : Block bufferServerLen) (format : Frame) (ipaddr : Block ipCharLen) (ip : InAddr)
    (port : UInt16) (beyond : Bytes) :
    Shows (processMessage beyond (formatBuffer format
        (receiveDatagram buffer (intDatagram topic negative n rest)) ipaddr (.ofSender ip port)).1)
        (signed negative n) ↔
      n.toNat < 2 ^ 31 := by
  obtain ⟨htype, hvalue⟩ := publicationOf_intDatagram topic negative n rest
  have hprinted := (frameOf_decodes (padded (intDatagram topic negative n rest)) ip port).printed
    beyond
  rw [htype, hvalue] at hprinted
  rw [receiveDatagram_eq, formatBuffer_eq, hprinted, ← computed_eq_some_iff negative n]
  constructor
  · rintro ⟨line, hline, hint⟩
    cases hline
    exact Value.int.inj hint
  · exact fun h => ⟨_, rfl, congrArg Value.int h⟩

/-- The frame of the magnitude 2^31 without a sign. -/
def largeFrame : Frame :=
  (formatBuffer (Block.fill _ 0) (receiveDatagram (Block.fill _ 0)
    (intDatagram (Block.fill _ 97) false 2147483648 [])) (Block.fill _ 0)
    (.ofSender ⟨127, 0, 0, 1⟩ 8080)).1

/-- It is printed as a negative number. -/
theorem large_printed_negative :
    processMessage [] largeFrame = .stdout ⟨inetNtoa ⟨127, 0, 0, 1⟩, 8080,
        List.replicate topicLen 97, .int (some (-2147483648))⟩ ∧
      signed false 2147483648 = 2147483648 := by
  decide +kernel

end TopicBroker.IntValue
