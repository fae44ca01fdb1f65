import Mathlib.Algebra.BigOperators.Group.List.Basic
import Mathlib.Algebra.GroupWithZero.Nat
import TopicBroker.Persistence

/-!
Store and forward. `missed` is what a record is owed: the frames of the datagrams
that one of its subscriptions asks to be stored while it is offline. The queue of
the record has the right length for it, but all its elements name one word of the
stack, so a returning client gets what the word points at each time it is read.
-/
namespace TopicBroker.StoreForward

open Message Frames Registry Requests Publish Identify MainLoop Runs Persistence

/-- A frame that a record is owed, with the number of its subscriptions that store it. -/
structure Missed where
  frame : Frame
  copies : ℕ
deriving DecidableEq

/-- What an input owes an offline record. -/
def owed (c : Client) : Input → List Missed
  | .datagram bytes addr _ =>
    if 0 < storedIn (topicText bytes) c.topics c.sfs then
      [⟨frameOf (padded bytes) addr, storedIn (topicText bytes) c.topics c.sfs⟩]
    else []
  | _ => []

/-- The debt to a record after one more entry of the trace. -/
def owedNext (j : ℕ) (missed : List Missed) (e : Server × Input) : List Missed :=
  match e.1.clients[j]? with
  | some c => if c.sock = -1 then missed ++ owed c e.2 else []
  | none => []

/-- What the record at a position has missed since its client left. -/
def missed (j : ℕ) (tr : List (Server × Input)) : List Missed := tr.foldl (owedNext j) []

def copies (missed : List Missed) : ℕ := (missed.map Missed.copies).sum

theorem missed_append (j : ℕ) (tr : List (Server × Input)) (s : Server) (i : Input) :
    missed j (tr ++ [(s, i)]) = owedNext j (missed j tr) (s, i) := by
  rw [missed, missed, List.foldl_append, List.foldl_cons, List.foldl_nil]

section Queue

variable {cfg : Config} {tr : List (Server × Input)} {s t : Server} {i : Input} {j : ℕ}
  {c c' : Client} {sends : List Send}

theorem owedNext_offline (hc : s.clients[j]? = some c) (hoff : c.sock = -1) (l : List Missed) :
    owedNext j l (s, i) = l ++ owed c i := by
  simp only [owedNext, hc, if_pos hoff]

theorem owedNext_online (hc : s.clients[j]? = some c) (hon : c.sock ≠ -1) (l : List Missed) :
    owedNext j l (s, i) = [] := by
  simp only [owedNext, hc, if_neg hon]

theorem copies_append (xs ys : List Missed) : copies (xs ++ ys) = copies xs + copies ys := by
  simp only [copies, List.map_append, List.sum_append]

theorem copies_owed (c : Client) (bytes : ByteBlocks.Bytes) (addr : SockaddrIn)
    (locals : UdpLocals) :
    copies (owed c (.datagram bytes addr locals)) =
      storedIn (topicText bytes) c.topics c.sfs := by
  simp only [owed]
  split
  · simp [copies]
  · rename_i hzero
    rw [Nat.eq_zero_of_not_pos hzero]
    rfl

theorem owed_copies_pos {m : Missed} (h : m ∈ owed c i) : 0 < m.copies := by
  unfold owed at h
  split at h
  · split at h
    · rename_i hpos
      rw [List.mem_singleton.mp h]
      exact hpos
    · cases h
  · cases h

theorem missed_copies_pos (tr : List (Server × Input)) {m : Missed} (h : m ∈ missed j tr) :
    0 < m.copies := by
  induction tr using List.reverseRecOn with
  | nil => cases h
  | append_singleton tr e ih =>
    obtain ⟨s, i⟩ := e
    rw [missed_append, owedNext] at h
    split at h
    · split at h
      · rcases List.mem_append.mp h with hbefore | hnow
        · exact ih hbefore
        · exact owed_copies_pos hnow
      · cases h
    · cases h

/-- A datagram changes a record in exactly this way. -/
theorem publish_record {bytes : ByteBlocks.Bytes} {addr : SockaddrIn} {locals : UdpLocals}
    (h : Step cfg s (.datagram bytes addr locals) t sends) :
    t.clients = s.clients.map (kept (topicText bytes)) := by
  cases h with
  | publish curr bytes addr locals p hvisit hp =>
    change p.clients = _
    rw [(receiveUdpMessage_spec hp).clients_eq]

/-- The queue of an offline record after any step. -/
theorem queue_step (h : Step cfg s i t sends) (hc : s.clients[j]? = some c)
    (hc' : t.clients[j]? = some c') (hoff : c.sock = -1) (hoff' : c'.sock = -1) :
    c'.inWaiting.length = c.inWaiting.length + copies (owed c i) := by
  by_cases hdatagram : ∃ bytes addr locals, i = .datagram bytes addr locals
  · obtain ⟨bytes, addr, locals, rfl⟩ := hdatagram
    rw [publish_record h, List.getElem?_map, hc, Option.map_some, Option.some.injEq] at hc'
    rw [← hc', kept, if_pos hoff, copies_owed]
    simp only [List.length_append, List.length_replicate]
  · have howed : owed c i = [] := by
      cases i with
      | datagram bytes addr locals => exact absurd ⟨bytes, addr, locals, rfl⟩ hdatagram
      | _ => rfl
    rw [howed]
    cases step_change h hc hc' with
    | keep => rfl
    | publish bytes addr locals _ _ => exact absurd ⟨bytes, addr, locals, rfl⟩ hdatagram
    | release curr fd locals _ hvisit hsock => rfl
    | resume curr fd bytes locals _ hread hflag hcarries _ =>
      change (fd : ℤ) = -1 at hoff'
      omega
    | edit curr fd bytes locals _ _ hread hflag hsock hedit =>
      rw [hedit.frame.1]
      rfl

/-- The queue of an offline record has one element for every stored copy. -/
theorem queue_length (h : Run cfg tr s) (hc : s.clients[j]? = some c) (hoff : c.sock = -1) :
    c.inWaiting.length = copies (missed j tr) := by
  refine run_invariant (fun tr s => ∀ j c, s.clients[j]? = some c → c.sock = -1 →
    c.inWaiting.length = copies (missed j tr)) ?_ ?_ h j c hc hoff
  · intro j c hc
    simp [initial] at hc
  · intro tr s i t sends hrun ih hstep _ j c' hc' hoff'
    rw [missed_append]
    rcases record_origin hstep hc' with ⟨c, hc, hchange⟩ | ⟨_, hadded⟩
    · by_cases hoff : c.sock = -1
      · rw [queue_step hstep hc hc' hoff hoff', ih j c hc hoff, owedNext_offline hc hoff,
          copies_append]
      · have hempty := online_empty hrun c (List.mem_of_getElem? hc) hoff
        rw [owedNext_online hc hoff]
        cases hchange with
        | keep => exact absurd hoff' hoff
        | publish bytes addr locals _ hoffline => exact absurd hoffline hoff
        | release curr fd locals _ hvisit hsock =>
          change c.inWaiting.length = 0
          rw [hempty, List.length_nil]
        | resume curr fd bytes locals _ hread hflag hcarries hoffline =>
          exact absurd hoffline hoff
        | edit curr fd bytes locals _ _ hread hflag hsock hedit =>
          rw [hedit.frame.1] at hoff'
          exact absurd hoff' hoff
    · cases hadded with
      | client curr fd bytes locals hread hflag hnone =>
        change (fd : ℤ) = -1 at hoff'
        omega

private theorem getElem?_middle {pre post : List Client} {d : Client} :
    (pre ++ d :: post)[pre.length]? = some d := by
  rw [List.getElem?_append_right (Nat.le_refl _), Nat.sub_self, List.getElem?_cons_zero]

private theorem getElem?_replaced {pre post : List Client} {d d' : Client} (hj : j ≠ pre.length) :
    (pre ++ d' :: post)[j]? = (pre ++ d :: post)[j]? := by
  have hset : pre ++ d' :: post = (pre ++ d :: post).set pre.length d' := by
    rw [List.set_append_right _ _ le_rfl, Nat.sub_self, List.set_cons_zero]
  rw [hset, List.getElem?_set_ne hj.symm]

/-- The message by which an offline record comes back, and all it sends. -/
theorem resume_step (h : Step cfg s i t sends) (hc : s.clients[j]? = some c)
    (hoff : c.sock = -1) (hc' : t.clients[j]? = some c') (hon : c'.sock ≠ -1) :
    ∃ (curr : Finset ℕ) (fd : ℕ) (bytes : ByteBlocks.Bytes) (locals : ReadLocals),
      i = .read bytes locals ∧ Reads s curr fd bytes ∧ s.receiveID = true ∧
      Carries (s.sendBuffer.receive bytes) c ∧ c' = resumed fd c ∧
      sends = (drain fd ⟨s.stack, locals.calls⟩ c.inWaiting).1 := by
  have hmoved : c' ≠ c := fun heq => hon (by rw [heq]; exact hoff)
  cases step_change h hc hc' with
  | keep => exact absurd rfl hmoved
  | publish bytes addr locals _ _ =>
    rw [kept, if_pos hoff] at hon
    exact absurd hoff hon
  | release curr fd locals _ hvisit hsock => exact absurd rfl hon
  | edit curr fd bytes locals _ _ hread hflag hsock hedit =>
    rw [hedit.frame.1] at hon
    exact absurd hoff hon
  | resume curr fd bytes locals _ hread hflag hcarries _ =>
    refine ⟨curr, fd, bytes, locals, rfl, hread, hflag, hcarries, rfl, ?_⟩
    cases h with
    | disconnect curr' fd' _ hvisit hfd hpeer => exact absurd rfl hread.nonempty
    | request curr' fd' _ _ clients hvisit hfd hpeer hne hlen hclear hr =>
      rw [hflag] at hclear
      cases hclear
    | identify curr' fd' _ _ r hvisit hfd hpeer hne hlen _ hr =>
      have hfd := hread.visits.unique hvisit
      subst hfd
      have hcases := handleIdClient_cases _ _ _ _ hr
      change r.clients[j]? = _ at hc'
      generalize hclients : s.clients = clients at hcases hc
      cases hcases with
      | refused pre d post hpre hd honline =>
        rw [hc, Option.some.injEq] at hc'
        exact absurd hc'.symm hmoved
      | appended _ hnone =>
        rw [List.getElem?_append_left (List.getElem?_eq_some_iff.mp hc).1, hc,
          Option.some.injEq] at hc'
        exact absurd hc'.symm hmoved
      | resumed pre d post hpre hd hoffline =>
        by_cases hj : j = pre.length
        · subst hj
          rw [getElem?_middle, Option.some.injEq] at hc
          rw [hc]
        · rw [getElem?_replaced hj, hc, Option.some.injEq] at hc'
          exact absurd hc'.symm hmoved

/-- Why a frame is sent to a record: it is live, or it comes from the queue. -/
inductive Delivery (s t : Server) : Input → ℕ → Send → Prop
  | live (bytes : ByteBlocks.Bytes) (addr : SockaddrIn) (locals : UdpLocals) (j : ℕ) (c : Client)
      (hc : s.clients[j]? = some c) (hc' : t.clients[j]? = some c) (hon : c.sock ≠ -1)
      (hmatch : 0 < copiesIn (topicText bytes) c.topics) :
      Delivery s t (.datagram bytes addr locals) j ⟨c.sock, frameOf (padded bytes) addr⟩
  | stored (fd : ℕ) (bytes : ByteBlocks.Bytes) (locals : ReadLocals) (j : ℕ) (c : Client)
      (frame : Frame) (hne : bytes ≠ []) (hflag : s.receiveID = true)
      (hcarries : Carries (s.sendBuffer.receive bytes) c) (hc : s.clients[j]? = some c)
      (hoff : c.sock = -1) (hc' : t.clients[j]? = some (resumed fd c))
      (hword : frame ∈ (DeadWord.mk s.stack locals.calls).frames c.inWaiting.length) :
      Delivery s t (.read bytes locals) j ⟨fd, frame⟩

/-- Nothing is sent for another reason. -/
theorem step_delivery (h : Step cfg s i t sends) {e : Send} (he : e ∈ sends) :
    ∃ j, Delivery s t i j e := by
  cases h with
  | publish curr bytes addr locals p hvisit hp =>
    have hspec := receiveUdpMessage_spec hp
    rw [hspec.sends_eq, List.mem_flatMap] at he
    obtain ⟨c, hmem, he⟩ := he
    obtain ⟨j, hc⟩ := List.mem_iff_getElem?.mp hmem
    unfold routed at he
    split at he
    · cases he
    · rename_i hon
      obtain ⟨hcopies, rfl⟩ := List.mem_replicate.mp he
      refine ⟨j, Delivery.live bytes addr locals j c hc ?_ hon (Nat.pos_of_ne_zero hcopies)⟩
      change p.clients[j]? = _
      rw [hspec.clients_eq, List.getElem?_map, hc, Option.map_some, kept, if_neg hon]
  | identify curr fd bytes locals r hvisit hfd hpeer hne hlen hflag hr =>
    have hcases := handleIdClient_cases _ _ _ _ hr
    generalize hclients : s.clients = clients at hcases
    cases hcases with
    | refused pre c post hpre hc honline => cases he
    | appended _ hnone => cases he
    | resumed pre c post hpre hc hoffline =>
      change e ∈ (drain fd ⟨s.stack, locals.calls⟩ c.inWaiting).1 at he
      rw [drain_sends] at he
      obtain ⟨frame, hframe, rfl⟩ := List.mem_map.mp he
      refine ⟨pre.length, Delivery.stored fd bytes locals pre.length c frame hne hflag hc ?_
        hoffline ?_ hframe⟩
      · rw [hclients]
        exact getElem?_middle
      · exact getElem?_middle
  | _ => cases he

end Queue

theorem length_le_copies {l : List Missed} (hpos : ∀ m ∈ l, 0 < m.copies) :
    l.length ≤ copies l := by
  have hone : ∀ k ∈ l.map Missed.copies, 1 ≤ k := by
    intro k hk
    obtain ⟨m, hm, rfl⟩ := List.mem_map.mp hk
    exact hpos m hm
  have hle := List.length_le_sum_of_one_le _ hone
  rwa [List.length_map] at hle

/-- As many copies of one frame as were stored are what is owed only in this case. -/
theorem replicate_eq_owed_iff {l : List Missed} (hpos : ∀ m ∈ l, 0 < m.copies) (frame : Frame) :
    List.replicate (copies l) frame = l.map Missed.frame ↔
      ∀ m ∈ l, m.copies = 1 ∧ m.frame = frame := by
  induction l with
  | nil => simp [copies]
  | cons m l ih =>
    have htail : ∀ m ∈ l, 0 < m.copies := fun m hm => hpos m (List.mem_cons_of_mem _ hm)
    have hcopies : copies (m :: l) = m.copies + copies l := by
      simp only [copies, List.map_cons, List.sum_cons]
    rw [List.forall_mem_cons, ← ih htail, hcopies]
    constructor
    · intro heq
      have hlength := congrArg List.length heq
      rw [List.length_replicate, List.length_map, List.length_cons] at hlength
      have hle := length_le_copies htail
      have hm := hpos m (List.mem_cons_self ..)
      have hone : m.copies = 1 := by omega
      rw [hone, Nat.add_comm, List.replicate_succ, List.map_cons, List.cons.injEq] at heq
      exact ⟨⟨hone, heq.1.symm⟩, heq.2⟩
    · rintro ⟨⟨hone, hframe⟩, htail⟩
      rw [hone, Nat.add_comm, List.replicate_succ, List.map_cons, hframe, htail]

/-- The frames that a word which is left alone points at are those owed in this case only. -/
theorem frames_kept_iff {w : DeadWord} {l : List Missed} (hkept : ∀ r ∈ w.calls, r = .kept)
    (hpos : ∀ m ∈ l, 0 < m.copies) :
    w.frames (copies l) = l.map Missed.frame ↔
      ∀ m ∈ l, m.copies = 1 ∧ w.stack.temp = some m.frame := by
  rw [DeadWord.frames, DeadWord.contents_kept hkept]
  cases htemp : w.stack.temp with
  | none =>
    rw [List.reduceOption_replicate_none]
    constructor
    · intro hnil
      rw [List.map_eq_nil_iff.mp hnil.symm]
      exact fun m hm => absurd hm List.not_mem_nil
    · intro hall
      cases l with
      | nil => rfl
      | cons m l => cases (hall m (List.mem_cons_self ..)).2
  | some frame =>
    have hframes : (List.replicate (copies l) (some frame)).reduceOption =
        List.replicate (copies l) frame := by
      rw [← List.map_replicate, List.reduceOption, List.filterMap_map]
      exact List.filterMap_some
    rw [hframes, replicate_eq_owed_iff hpos]
    simp only [Option.some.injEq, eq_comm]

/-- A client that returns gets the frames it missed, once each and in order, in exactly
this case: these are the frames that the stack word points at when it is read once for
every stored copy. With calls that leave the word alone each of them was stored once and
is what the word pointed at before. -/
theorem resumed_frames_iff {cfg : Config} {tr : List (Server × Input)} {s t : Server} {i : Input}
    {j : ℕ} {c c' : Client} (h : Run cfg tr s) (hnext : next cfg s i = some t)
    (hc : s.clients[j]? = some c) (hoff : c.sock = -1) (hc' : t.clients[j]? = some c')
    (hon : c'.sock ≠ -1) :
    (sent cfg s i = (missed j tr).map (fun m => ⟨c'.sock, m.frame⟩) ↔
      (deadWord s i).frames (copies (missed j tr)) = (missed j tr).map Missed.frame) ∧
    ((∀ r ∈ (deadWord s i).calls, r = .kept) →
      (sent cfg s i = (missed j tr).map (fun m => ⟨c'.sock, m.frame⟩) ↔
        ∀ m ∈ missed j tr, m.copies = 1 ∧ s.stack.temp = some m.frame)) := by
  obtain ⟨sends, hstep, hsent⟩ := next_cases hnext
  obtain ⟨curr, fd, bytes, locals, rfl, hread, hflag, hcarries, rfl, hdrain⟩ :=
    resume_step hstep hc hoff hc' hon
  have hpos : ∀ m ∈ missed j tr, 0 < m.copies := fun m hm => missed_copies_pos tr hm
  have hinjective : Function.Injective (List.map (Send.mk fd)) :=
    List.map_injective_iff.mpr fun a b hab => (Send.mk.inj hab).2
  have howed : (missed j tr).map (fun m => Send.mk fd m.frame) =
      ((missed j tr).map Missed.frame).map (Send.mk fd) := List.map_map.symm
  have hiff : sent cfg s (.read bytes locals) =
      (missed j tr).map (fun m => ⟨(resumed fd c).sock, m.frame⟩) ↔
      (deadWord s (.read bytes locals)).frames (copies (missed j tr)) =
        (missed j tr).map Missed.frame := by
    rw [hsent, hdrain, drain_sends, queue_length h hc hoff]
    exact Iff.trans (by rw [← howed]; rfl) hinjective.eq_iff
  exact ⟨hiff, fun hkept => hiff.trans (frames_kept_iff hkept hpos)⟩

/-- The scan of a round up to the first connection. -/
def upToConnection : List Input := .select {5} :: List.replicate 5 .tick

/-- A client subscribes with storing, leaves, and comes back after these datagrams. -/
def awayInputs (contents : List UInt8) : List Input :=
  roundInputs 5 [(3, .connection 5 true)] ++ roundInputs 5 [(5, readInput (idMessage 97))] ++
  roundInputs 5 [(5, readInput (subscribeMessage 116 1))] ++ roundInputs 5 [(5, readInput [])] ++
  (contents.flatMap fun content => roundInputs 5 [(4, publishInput 116 content)]) ++
  roundInputs 5 [(3, .connection 5 true)] ++ upToConnection

/-- The record before and after the ID message of its client. -/
structure Returns (tr : List (Server × Input)) (s t : Server) (c c' : Client) : Prop where
  run : Run usual tr s
  next_eq : next usual s (readInput (idMessage 97)) = some t
  before : s.clients[0]? = some c
  offline : c.sock = -1
  after : t.clients[0]? = some c'
  online : c'.sock = 5

/-- The test of a state that the message brings the record back. -/
def returning (s : Server) : Bool :=
  (s.clients[0]?).any (fun c => c.sock = -1) &&
  (next usual s (readInput (idMessage 97))).any fun t => (t.clients[0]?).any fun c => c.sock = 5

private theorem exists_returns (contents : List UInt8) (P : List (Server × Input) → Server → Bool)
    (h : (exec (next usual) (initial usual) (awayInputs contents)).any (fun s =>
      returning s && P (traceOf (next usual) (initial usual) (awayInputs contents)) s) = true) :
    ∃ tr s t c c', Returns tr s t c c' ∧ P tr s = true := by
  obtain ⟨tr, s, hrun, hs⟩ := run_of_inputs usual (fun tr s => returning s && P tr s) _ h
  rw [Bool.and_eq_true, returning, Bool.and_eq_true] at hs
  obtain ⟨⟨hbefore, hafter⟩, hP⟩ := hs
  obtain ⟨c, hc, hoff⟩ := (Option.any_eq_true _ _).mp hbefore
  obtain ⟨t, ht, hafter⟩ := (Option.any_eq_true _ _).mp hafter
  obtain ⟨c', hc', hon⟩ := (Option.any_eq_true _ _).mp hafter
  exact ⟨tr, s, t, c, c',
    ⟨hrun, ht, hc, of_decide_eq_true hoff, hc', of_decide_eq_true hon⟩, hP⟩

theorem resumed_frames_iff_once :
    ∃ tr s t c c', Returns tr s t c c' ∧ (missed 0 tr).length = 1 ∧
      (sent usual s (readInput (idMessage 97)) = (missed 0 tr).map (fun m => ⟨c'.sock, m.frame⟩) ↔
        ∀ m ∈ missed 0 tr, m.copies = 1 ∧ s.stack.temp = some m.frame) := by
  obtain ⟨tr, s, t, c, c', hreturns, hlength⟩ := exists_returns [120]
    (fun tr _ => decide ((missed 0 tr).length = 1)) (by decide +kernel)
  refine ⟨tr, s, t, c, c', hreturns, of_decide_eq_true hlength, ?_⟩
  have hon : c'.sock ≠ -1 := by
    rw [hreturns.online]
    decide
  exact (resumed_frames_iff hreturns.run hreturns.next_eq hreturns.before hreturns.offline
    hreturns.after hon).2 fun r hr => absurd hr List.not_mem_nil

/-- Of two messages missed the second one is sent twice. -/
theorem first_message_lost :
    ∃ tr s t c c', Returns tr s t c c' ∧
      sent usual s (readInput (idMessage 97)) ≠
        (missed 0 tr).map fun m => ⟨c'.sock, m.frame⟩ := by
  obtain ⟨tr, s, t, c, c', hreturns, hsent⟩ := exists_returns [120, 121]
    (fun tr s => decide (sent usual s (readInput (idMessage 97)) ≠
      (missed 0 tr).map fun m => ⟨5, m.frame⟩)) (by decide +kernel)
  refine ⟨tr, s, t, c, c', hreturns, ?_⟩
  rw [hreturns.online]
  exact of_decide_eq_true hsent

end TopicBroker.StoreForward
