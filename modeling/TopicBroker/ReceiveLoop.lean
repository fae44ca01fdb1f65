import TopicBroker.Frames

/-!
The receive loop of subscriber.c. Every `recv` writes at the start of
`recvBuffer`; a carriage return anywhere among the bytes received ends the
message. The copy behind it reads past the end of `recvBuffer`: what it finds
there is part of the input, and is cleared before the next message.
-/
namespace TopicBroker.ReceiveLoop

open ByteBlocks Message Frames

/-- `receiving` tells whether the inner loop has been entered. -/
structure Subscriber where
  recvBuffer : Frame
  sendBuffer : Frame
  receiving : Bool
deriving DecidableEq

/-- What a `recv` returns, and the memory behind `recvBuffer` at that time. -/
structure Recv where
  chunk : Bytes
  beyond : Frame

/-- The buffer that a `recv` fills: cleared when the inner loop is entered. -/
def entered (s : Subscriber) : Frame :=
  if s.receiving then s.recvBuffer else Block.fill formatLen 0

/-- One `recv` and, when it ends a message, the buffer that `processMessage` gets. -/
def recvStep (s : Subscriber) (r : Recv) : Except Stop (Subscriber × Option Frame) :=
  let recvBuffer := (entered s).receive r.chunk
  let buffSize := (r.chunk.take bufferClientLen).length
  if buffSize = 0 then .error (.exit false)
  else if carriageReturn ∈ recvBuffer.bytes.take buffSize then
    .ok (⟨r.beyond, recvBuffer, false⟩, some recvBuffer)
  else .ok ({ s with recvBuffer := recvBuffer, receiving := true }, none)

/-- The buffers processed, in order, over the results of the `recv` calls. -/
def processed : Subscriber → List Recv → Except Stop (List Frame)
  | _, [] => .ok []
  | s, r :: rest => do
    let (s', frame) ← recvStep s r
    let frames ← processed s' rest
    .ok (frame.toList ++ frames)

theorem recvStep_end {s : Subscriber} {r : Recv} (hlen : r.chunk.length ≤ bufferClientLen)
    (hcr : carriageReturn ∈ r.chunk) :
    recvStep s r = .ok (⟨r.beyond, (entered s).receive r.chunk, false⟩,
      some ((entered s).receive r.chunk)) := by
  have hne : ¬ r.chunk.length = 0 := fun h => by
    rw [List.eq_nil_of_length_eq_zero h] at hcr
    exact absurd hcr List.not_mem_nil
  simp only [recvStep, List.take_of_length_le hlen, if_neg hne]
  rw [if_pos]
  rw [Block.receive_bytes_of_le _ _ hlen, List.take_left' rfl]
  exact hcr

theorem recvStep_more {s : Subscriber} {r : Recv} (hne : r.chunk ≠ [])
    (hlen : r.chunk.length ≤ bufferClientLen) (hcr : carriageReturn ∉ r.chunk) :
    recvStep s r = .ok (⟨(entered s).receive r.chunk, s.sendBuffer, true⟩, none) := by
  have hcount : ¬ r.chunk.length = 0 := fun h => hne (List.eq_nil_of_length_eq_zero h)
  simp only [recvStep, List.take_of_length_le hlen, if_neg hcount]
  rw [if_neg]
  rw [Block.receive_bytes_of_le _ _ hlen, List.take_left' rfl]
  exact hcr

/-- Every frame the server sends ends in a carriage return. -/
def Terminated (frame : Frame) : Prop := frame.bytes.getLast? = some carriageReturn

theorem frameOf_terminated (data : Block bufferServerLen) (addr : SockaddrIn) :
    Terminated (frameOf data addr) := List.getLast?_concat

/-- The inner loop has received no carriage return, so none ends its buffer. -/
def Unfinished (s : Subscriber) : Prop := ¬ Terminated (entered s)

private theorem clear_not_terminated : ¬ Terminated (Block.fill formatLen 0) := by
  intro h
  have hmem := List.mem_of_getLast? h
  rw [Block.fill_bytes, List.mem_replicate] at hmem
  exact absurd hmem.2 (by decide)

/-- A short chunk leaves the end of the buffer as it was. -/
private theorem getLast?_receive {frame : Frame} {chunk : Bytes} (h : chunk.length < formatLen) :
    (frame.receive chunk).bytes.getLast? = frame.bytes.getLast? := by
  have hne : frame.bytes.drop chunk.length ≠ [] := by
    rw [ne_eq, List.drop_eq_nil_iff, frame.size]
    exact not_le.mpr h
  rw [Block.receive_bytes_of_le _ _ h.le, List.getLast?_append_of_ne_nil _ hne, List.getLast?_drop,
    if_neg (by rw [frame.size]; exact not_le.mpr h)]

/-- Only a chunk of a frame's length can put a carriage return at the end of the buffer. -/
private theorem full_of_terminated {s : Subscriber} {chunk : Bytes} (hs : Unfinished s)
    (hlen : chunk.length ≤ formatLen) (h : Terminated ((entered s).receive chunk)) :
    chunk.length = formatLen ∧ ((entered s).receive chunk).bytes = chunk := by
  rcases Nat.lt_or_eq_of_le hlen with hshort | hfull
  · unfold Terminated at h
    rw [getLast?_receive hshort] at h
    exact absurd h hs
  · refine ⟨hfull, ?_⟩
    rw [Block.receive_bytes_of_le _ _ hlen, hfull,
      List.drop_eq_nil_of_le (le_of_eq (entered s).size), List.append_nil]

private theorem processed_end {s : Subscriber} {r : Recv} {rest : List Recv} {frames : List Frame}
    (hlen : r.chunk.length ≤ bufferClientLen) (hcr : carriageReturn ∈ r.chunk) :
    processed s (r :: rest) = .ok frames ↔ ∃ frames',
      processed ⟨r.beyond, (entered s).receive r.chunk, false⟩ rest = .ok frames' ∧
        (entered s).receive r.chunk :: frames' = frames := by
  rw [processed, recvStep_end hlen hcr, bind_eq_ok]
  constructor
  · rintro ⟨_, hfst, h⟩
    cases hfst
    obtain ⟨frames', hrest, h⟩ := bind_eq_ok.mp h
    exact ⟨frames', hrest, Except.ok.inj h⟩
  · rintro ⟨frames', hrest, rfl⟩
    exact ⟨_, rfl, bind_eq_ok.mpr ⟨frames', hrest, rfl⟩⟩

private theorem processed_more {s : Subscriber} {r : Recv} {rest : List Recv} (hne : r.chunk ≠ [])
    (hlen : r.chunk.length ≤ bufferClientLen) (hcr : carriageReturn ∉ r.chunk) :
    processed s (r :: rest) =
      processed ⟨(entered s).receive r.chunk, s.sendBuffer, true⟩ rest := by
  rw [processed, recvStep_more hne hlen hcr]
  change (processed _ rest >>= fun frames => .ok frames) = _
  cases processed ⟨(entered s).receive r.chunk, s.sendBuffer, true⟩ rest <;> rfl

/-- Each processed frame has cost a chunk of its length, and the frames cost the
whole stream only if they are the chunks. -/
theorem processed_cost {recvs : List Recv} :
    ∀ {s : Subscriber} {frames : List Frame}, Unfinished s →
      (∀ r ∈ recvs, r.chunk ≠ [] ∧ r.chunk.length ≤ bufferClientLen) →
      (∀ f ∈ frames, Terminated f) → processed s recvs = .ok frames →
      formatLen * frames.length ≤ (recvs.map Recv.chunk).flatten.length ∧
      ((recvs.map Recv.chunk).flatten.length = formatLen * frames.length →
        recvs.map Recv.chunk = frames.map Block.bytes) := by
  induction recvs with
  | nil =>
    intro s frames _ _ _ h
    cases h
    exact ⟨le_rfl, fun _ => rfl⟩
  | cons r rest ih =>
    intro s frames hs hsize hframes h
    obtain ⟨hne, hlen⟩ := hsize r (List.mem_cons_self ..)
    have hrest : ∀ q ∈ rest, q.chunk ≠ [] ∧ q.chunk.length ≤ bufferClientLen :=
      fun q hq => hsize q (List.mem_cons_of_mem r hq)
    rw [List.map_cons, List.flatten_cons, List.length_append]
    by_cases hcr : carriageReturn ∈ r.chunk
    · obtain ⟨frames', hprocessed, rfl⟩ := (processed_end hlen hcr).mp h
      obtain ⟨hfull, hbytes⟩ := full_of_terminated hs hlen (hframes _ (List.mem_cons_self ..))
      obtain ⟨hle, heq⟩ := ih (s := ⟨r.beyond, _, false⟩) clear_not_terminated hrest
        (fun f hf => hframes f (List.mem_cons_of_mem _ hf)) hprocessed
      rw [hfull, List.length_cons, Nat.mul_succ]
      refine ⟨by omega, fun hcost => ?_⟩
      rw [List.map_cons, hbytes, heq (by omega)]
    · rw [processed_more hne hlen hcr] at h
      have hpos : 0 < r.chunk.length := List.length_pos_iff.mpr hne
      have hs' : Unfinished ⟨(entered s).receive r.chunk, s.sendBuffer, true⟩ := by
        intro hterm
        obtain ⟨_, hbytes⟩ := full_of_terminated hs hlen hterm
        have hmem := List.mem_of_getLast? hterm
        change carriageReturn ∈ ((entered s).receive r.chunk).bytes at hmem
        rw [hbytes] at hmem
        exact hcr hmem
      obtain ⟨hle, heq⟩ := ih hs' hrest hframes h
      exact ⟨by omega, fun hcost => by omega⟩

/-- A stream received frame by frame is processed frame by frame. -/
theorem processed_frames {frames : List Frame} :
    ∀ {s : Subscriber} {recvs : List Recv}, (∀ f ∈ frames, Terminated f) →
      recvs.map Recv.chunk = frames.map Block.bytes → processed s recvs = .ok frames := by
  induction frames with
  | nil =>
    intro s recvs _ h
    rw [List.map_nil, List.map_eq_nil_iff] at h
    subst h
    rfl
  | cons f rest ih =>
    intro s recvs hframes h
    cases recvs with
    | nil => cases h
    | cons r recvs =>
      rw [List.map_cons, List.map_cons, List.cons.injEq] at h
      obtain ⟨hchunk, hmap⟩ := h
      have hlen : r.chunk.length ≤ bufferClientLen := by
        rw [hchunk]
        exact le_of_eq f.size
      have hcr : carriageReturn ∈ r.chunk := by
        rw [hchunk]
        exact List.mem_of_getLast? (hframes f (List.mem_cons_self ..))
      refine (processed_end hlen hcr).mpr ⟨rest, ih (fun g hg =>
        hframes g (List.mem_cons_of_mem f hg)) hmap, ?_⟩
      rw [hchunk, Block.receive_full]

/-- The subscriber processes the frames that were sent exactly when every `recv`
returned one frame. -/
theorem processed_frames_iff (s : Subscriber) (hs : s.receiving = false) (frames : List Frame)
    (hframes : ∀ f ∈ frames, Terminated f) (recvs : List Recv)
    (hsize : ∀ r ∈ recvs, 1 ≤ r.chunk.length ∧ r.chunk.length ≤ bufferClientLen)
    (hstream : (recvs.map Recv.chunk).flatten = (frames.map Block.bytes).flatten) :
    processed s recvs = .ok frames ↔ recvs.map Recv.chunk = frames.map Block.bytes := by
  constructor
  · intro h
    have hclear : Unfinished s := by
      unfold Unfinished entered
      rw [hs]
      exact clear_not_terminated
    have hsize' : ∀ r ∈ recvs, r.chunk ≠ [] ∧ r.chunk.length ≤ bufferClientLen := fun r hr =>
      ⟨List.length_pos_iff.mp (hsize r hr).1, (hsize r hr).2⟩
    apply (processed_cost hclear hsize' hframes h).2
    rw [hstream, List.length_flatten, List.map_map]
    have hlength : List.length ∘ Block.bytes = fun _ : Frame => formatLen := funext Block.size
    rw [hlength, List.map_const', List.sum_replicate_nat, Nat.mul_comm]
  · exact processed_frames hframes

/-- A subscriber between two messages. -/
def idle : Subscriber := ⟨Block.fill formatLen 0, Block.fill formatLen 0, false⟩

/-- The frame of a datagram that publishes to the topic t. -/
def sampleFrame : Frame := frameOf (padded [116]) (.ofSender ⟨127, 0, 0, 1⟩ 8080)

/-- The same frame twice, each received whole. -/
theorem processed_frames_iff_twice :
    processed idle [⟨sampleFrame.bytes, Block.fill formatLen 7⟩,
      ⟨sampleFrame.bytes, Block.fill formatLen 0⟩] = .ok [sampleFrame, sampleFrame] :=
  (processed_frames_iff idle rfl [sampleFrame, sampleFrame] (by
      intro f hf
      simp only [List.mem_cons, List.not_mem_nil, or_false, or_self] at hf
      rw [hf]
      exact frameOf_terminated _ _)
    [⟨sampleFrame.bytes, Block.fill formatLen 7⟩, ⟨sampleFrame.bytes, Block.fill formatLen 0⟩]
    (by
      intro r hr
      simp only [List.mem_cons, List.not_mem_nil, or_false] at hr
      rcases hr with rfl | rfl
      · exact ⟨by rw [sampleFrame.size]; decide, le_of_eq sampleFrame.size⟩
      · exact ⟨by rw [sampleFrame.size]; decide, le_of_eq sampleFrame.size⟩)
    rfl).mpr rfl

/-- The frame in two parts, none of them empty, of which the first holds no carriage return. -/
def sampleParts : List Recv :=
  [⟨sampleFrame.bytes.take 100, Block.fill formatLen 0⟩,
    ⟨sampleFrame.bytes.drop 100, Block.fill formatLen 0⟩]

/-- The second part overwrites the first one, and the frame is never processed. -/
theorem split_frame_lost :
    Terminated sampleFrame ∧
    (∀ r ∈ sampleParts, 1 ≤ r.chunk.length ∧ r.chunk.length ≤ bufferClientLen) ∧
    (sampleParts.map Recv.chunk).flatten = ([sampleFrame].map Block.bytes).flatten ∧
    processed idle sampleParts ≠ .ok [sampleFrame] := by
  refine ⟨frameOf_terminated _ _, by decide +kernel, by decide +kernel, ?_⟩
  decide +kernel

end TopicBroker.ReceiveLoop
