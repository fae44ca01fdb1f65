import TopicBroker.Binding
import TopicBroker.Refinement

/-!
Delivery over a whole run. When IDs come in turn and fit, and a returning client finds
its own messages in the stack word, one at each read, the frames sent to a client on all
its connections are those published for it, once each and in their order, up to what
still waits.
-/
namespace TopicBroker.ExactlyOnce

open ByteBlocks Message Registry Publish Identify Identity MainLoop Runs Handshakes Persistence
  Binding PubSub Refinement

/-- The frames that a step sends on the socket that the record at a position has after it. -/
def inboxOf (cfg : Config) (j : ℕ) (e : Server × Input) : List Frame :=
  match (next cfg e.1 e.2).bind fun t => t.clients[j]? with
  | some c => ((sent cfg e.1 e.2).filter (·.sock = c.sock)).map Send.frame
  | none => []

/-- All frames sent to the client of a record. -/
def inbox (cfg : Config) (j : ℕ) (tr : List (Server × Input)) : List Frame :=
  tr.flatMap (inboxOf cfg j)

/-- Every client that returns finds its messages in the stack word, one after the other. -/
def AllWorded (tr : List (Server × Input)) : Prop :=
  ∀ n < tr.length, ∀ e ∈ tr[n]?, Worded e.1 e.2 (after (actions (tr.take n)))

instance (tr : List (Server × Input)) : Decidable (AllWorded tr) :=
  inferInstanceAs (Decidable (∀ n < tr.length, ∀ e ∈ tr[n]?, _))

theorem AllWorded.of_concat {tr : List (Server × Input)} {s : Server} {i : Input}
    (h : AllWorded (tr ++ [(s, i)])) : AllWorded tr ∧ Worded s i (after (actions tr)) := by
  constructor
  · intro n hn e he
    have hlast := h n (by simp; omega) e (by rwa [List.getElem?_append_left hn])
    rwa [List.take_append_of_le_length hn.le] at hlast
  · have hlast := h tr.length (by simp) (s, i) (by simp)
    rwa [List.take_left' rfl] at hlast

theorem AllWorded.worded {pre post : List (Server × Input)} {s : Server} {i : Input}
    (h : AllWorded (pre ++ (s, i) :: post)) : Worded s i (after (actions pre)) := by
  have hhere := h pre.length (by simp) (s, i) (by simp)
  rwa [List.take_left' rfl] at hhere

section Steps

variable {cfg : Config} {tr : List (Server × Input)} {s t : Server} {i : Input} {b : Ideal}

theorem inbox_concat (j : ℕ) (e : Server × Input) :
    inbox cfg j (tr ++ [e]) = inbox cfg j tr ++ inboxOf cfg j e := by
  rw [inbox, inbox, List.flatMap_append, List.flatMap_singleton]

/-- Records that are bound to their own connections are accounts on their own links. -/
theorem apart_of_pairwise (h : Mirrors s b) (hapart : s.clients.Pairwise Binding.Apart) :
    b.Apart := by
  intro a ha a' ha' link hlink hlink'
  obtain ⟨c, hc, hrep⟩ := h.record ha
  obtain ⟨c', hc', hrep'⟩ := h.record ha'
  obtain ⟨_, hsock, hne, _⟩ := hrep.online hlink
  obtain ⟨_, hsock', _, _⟩ := hrep'.online hlink'
  have hor : ∀ ⦃x⦄, x ∈ s.clients → ∀ ⦃y⦄, y ∈ s.clients → x = y ∨ Binding.Apart x y :=
    List.Pairwise.forall_of_forall_of_flip (fun x _ => Or.inl rfl) (hapart.imp Or.inr)
      (hapart.imp fun hxy => Or.inr (apart_symm hxy))
  rcases hor hc hc' with rfl | hxy
  · exact b.unique ha ha' (hrep.id_eq.symm.trans hrep'.id_eq)
  · exact absurd (hsock.symm.trans (hxy (hsock.trans hsock'.symm))) hne

/-- What a step sends to a record is what the broker delivers to its account. -/
theorem inboxOf_eq {x : Action Bytes ℤ Bytes Frame} (hnext : next cfg s i = some t)
    (hsent : sent cfg s i = delivers b (some x))
    (h : Mirrors t (b.next x)) (hapart : (b.next x).Apart) {j : ℕ} {c : Client}
    (hc : t.clients[j]? = some c) : inboxOf cfg j (s, i) = b.receives (idOf c) x := by
  obtain ⟨a, ha, hrep⟩ := h.account (List.mem_of_getElem? hc)
  have hinbox : inboxOf cfg j (s, i) =
      ((b.deliveries x).filter (·.link = c.sock)).map Delivery.message := by
    simp only [inboxOf, hnext, Option.bind_some, hc, hsent, delivers, Option.elim_some,
      List.filter_map, List.map_map]
    rfl
  rw [hinbox, hrep.id_eq]
  by_cases hsock : c.sock = -1
  · have hoff : a.link = none := by
      cases hlink : a.link with
      | none => rfl
      | some link =>
        obtain ⟨_, hsame, hne, _⟩ := hrep.online hlink
        exact absurd (hsame.symm.trans hsock) hne
    rw [Broker.receives_of_offline ha hoff, List.map_eq_nil_iff, List.filter_eq_nil_iff]
    intro d hd hlink
    obtain ⟨a', ha', hon⟩ := Broker.recipient hd
    obtain ⟨c', _, hrep'⟩ := h.record ha'
    obtain ⟨_, _, hne, _⟩ := hrep'.online hon.2
    exact hne ((of_decide_eq_true hlink).trans hsock)
  · rw [Broker.deliveries_on_link hapart ha ((hrep.link_iff hsock).mpr rfl), Broker.receives]

/-- A position without a record has no frames. -/
theorem inbox_of_length_le (h : Run cfg tr s) {j : ℕ} (hj : s.clients.length ≤ j) :
    inbox cfg j tr = [] := by
  refine Path.invariant (fun tr s => s.clients.length ≤ j → inbox cfg j tr = []) (fun _ => rfl) ?_
    h hj
  intro tr s i t _ ih hnext hj
  obtain ⟨sends, hstep, _⟩ := next_cases hnext
  obtain ⟨old, new, hclients, hold, _⟩ := step_changes hstep
  have hlength : s.clients.length ≤ t.clients.length := by
    rw [hclients, List.length_append, hold.length_eq]
    exact Nat.le_add_right _ _
  rw [inbox_concat, ih (hlength.trans hj), inboxOf, hnext, Option.bind_some,
    List.getElem?_eq_none hj]
  rfl

/-- The identity of a record that a step adds is new to the broker. -/
theorem added_absent {b' : Ideal} {sends : List Send} (hstep : Step cfg s i t sends)
    (h : Mirrors s b) (h' : Mirrors t b') {j : ℕ} {c : Client} (hj : s.clients.length ≤ j)
    (hc : t.clients[j]? = some c) : ∀ a ∈ b.accounts, a.id ≠ idOf c := by
  intro a ha hid
  obtain ⟨d, hd, hrep⟩ := h.record ha
  obtain ⟨k, hk⟩ := List.mem_iff_getElem?.mp hd
  obtain ⟨d', hd', hchange⟩ := step_record hstep hk
  have hsame : idOf d' = idOf c := by
    rw [idOf, hchange.framed.id_eq]
    exact hrep.id_eq.trans hid
  have hbefore : k < s.clients.length := (List.getElem?_eq_some_iff.mp hk).1
  have hlt : k < (t.clients.map idOf).length := by
    rw [List.length_map]
    exact (List.getElem?_eq_some_iff.mp hd').1
  have hkj : k = j := by
    apply (List.getElem?_inj hlt h'.ids_nodup).mp
    rw [List.getElem?_map, List.getElem?_map, hd', hc, Option.map_some, Option.map_some, hsame]
  omega

/-- The frames sent to a record and those delivered to its account are the same. -/
theorem inbox_eq_received (h : Run cfg tr s) (hfits : ∀ e ∈ tr, Fits e.1 e.2)
    (hturn : InTurn (log tr)) (hword : AllWorded tr) {j : ℕ} {c : Client}
    (hc : s.clients[j]? = some c) : inbox cfg j tr = received (idOf c) (actions tr) := by
  refine Path.invariant (fun tr s => (∀ e ∈ tr, Fits e.1 e.2) → InTurn (log tr) → AllWorded tr →
    ∀ j c, s.clients[j]? = some c → inbox cfg j tr = received (idOf c) (actions tr))
    ?_ ?_ h hfits hturn hword j c hc
  · intro _ _ _ j c hc
    simp [initial] at hc
  · intro tr s i t hrun ih hnext hfits hturn hword j c hc
    have hfits₁ : ∀ e ∈ tr, Fits e.1 e.2 := fun e he => hfits e (List.mem_append_left _ he)
    have hturn₁ : InTurn (log tr) := by
      rw [log_append] at hturn
      exact hturn.of_append
    have hrun' : Run cfg (tr ++ [(s, i)]) t := Path.tail hrun hnext
    have hmirrors := run_mirrors hrun hfits₁
    have hmirrors' := run_mirrors hrun' hfits
    obtain ⟨sends, hstep, hsent⟩ := next_cases hnext
    have hsends := (step_sends_iff hstep hmirrors
      (hfits (s, i) (List.mem_append_right _ (List.mem_singleton_self _)))).mpr
      hword.of_concat.2
    rw [← hsent] at hsends
    -- the record was there before, or its identity is new to the broker
    have hbefore : inbox cfg j tr = received (idOf c) (actions tr) := by
      rcases record_origin hstep hc with ⟨d, hd, hchange⟩ | ⟨hj, hadded⟩
      · have hid : idOf c = idOf d := by rw [idOf, idOf, hchange.framed.id_eq]
        rw [hid]
        exact ih hfits₁ hturn₁ hword.of_concat.1 j d hd
      · rw [inbox_of_length_le hrun hj.ge,
          received_of_absent (added_absent hstep hmirrors hmirrors' hj.ge hc)]
    rw [inbox_concat, actions_append, hbefore]
    rw [after_actions] at hmirrors'
    cases hx : actionOf s i with
    | none =>
      rw [hx] at hsends
      have hempty : inboxOf cfg j (s, i) = [] := by
        simp only [inboxOf, hnext, Option.bind_some, hc, hsends, delivers, Option.elim_none,
          List.map_nil, List.filter_nil]
      rw [hempty, Option.toList_none, List.append_nil, List.append_nil]
    | some x =>
      rw [hx] at hsends hmirrors'
      rw [Option.toList_some, received_concat,
        inboxOf_eq hnext hsends hmirrors' (apart_of_pairwise hmirrors' (run_bound hrun' hturn).apart) hc]

/-- A record's queue has the length of what waits for it, and is empty while it is online. -/
theorem pending_record (h : Mirrors s b) {c : Client} (hc : c ∈ s.clients) :
    (b.pending (idOf c)).length = c.inWaiting.length ∧ (c.sock ≠ -1 → b.pending (idOf c) = []) := by
  obtain ⟨a, ha, hrep⟩ := h.account hc
  rw [hrep.id_eq, Broker.pending_of_mem ha]
  have hpresent := hrep.present
  cases hp : a.presence with
  | online link =>
    rw [hp] at hpresent
    cases hpresent with
    | online hsock hqueue => simp [Account.pending, hp, hqueue]
  | offline pending =>
    rw [hp] at hpresent
    cases hpresent with
    | offline _ hsock hqueue => simp [Account.pending, hp, hqueue, hsock]

/-- What was published for a client has been sent to it, once and in its order, or waits
in its queue, which is empty while the client is online. -/
theorem frames_exactly_once (h : Run cfg tr s) (hfits : ∀ e ∈ tr, Fits e.1 e.2)
    (hturn : InTurn (log tr)) (hword : AllWorded tr) {j : ℕ} {c : Client}
    (hc : s.clients[j]? = some c) :
    ∃ pending, inbox cfg j tr ++ pending = due (idOf c) (actions tr) ∧
      pending.length = c.inWaiting.length ∧ (c.sock ≠ -1 → pending = []) := by
  refine ⟨(after (actions tr)).pending (idOf c), ?_,
    pending_record (run_mirrors h hfits) (List.mem_of_getElem? hc)⟩
  rw [inbox_eq_received h hfits hturn hword hc, received_append_pending]

end Steps

/-- The connection that sends a message. -/
def speaker : Handshakes.Event → Option ℕ
  | .accepted _ => none
  | .message conn _ _ => some conn

/-- A test for the turns. -/
def Turns (events : List Handshakes.Event) : Prop :=
  ∀ n < events.length, ∀ conn ∈ (events[n]?).bind speaker,
    ((∃ e ∈ (events.take n).getLast?, speaker e = none) ↔
      ∀ e ∈ events.take n, speaker e ≠ some conn)

instance (events : List Handshakes.Event) : Decidable (Turns events) :=
  inferInstanceAs (Decidable (∀ n < events.length, ∀ conn ∈ (events[n]?).bind speaker, _))

theorem inTurn_of_turns {events : List Handshakes.Event} (h : Turns events) : InTurn events := by
  rintro pre conn handler id post rfl
  have htest := h pre.length (by simp) conn (by simp [speaker])
  rw [List.take_left' rfl] at htest
  have hawaiting : Awaiting pre ↔ ∃ e ∈ pre.getLast?, speaker e = none := by
    constructor
    · rintro ⟨c, hlast⟩
      exact ⟨_, hlast, rfl⟩
    · rintro ⟨e, hlast, he⟩
      cases e with
      | accepted c => exact ⟨c, hlast⟩
      | message c handler id => cases he
  have hsilent : Silent conn pre ↔ ∀ e ∈ pre, speaker e ≠ some conn := by
    constructor
    · intro hsilent e he hspeaker
      cases e with
      | accepted c => cases hspeaker
      | message c handler id =>
        cases hspeaker
        exact hsilent handler id he
    · intro hall handler id hmem
      exact hall _ hmem rfl
  rw [hawaiting, hsilent, htest]

/-- A client gets one message while it is online and misses another, which it is sent when
it comes back. -/
def missedInputs : List Input :=
  roundInputs 5 [(3, .connection 5 true)] ++ roundInputs 5 [(5, readInput (idMessage 97))] ++
  roundInputs 5 [(5, readInput (subscribeMessage 116 1))] ++
  roundInputs 5 [(4, publishInput 116 120)] ++ roundInputs 5 [(5, readInput [])] ++
  roundInputs 5 [(4, publishInput 116 121)] ++ roundInputs 5 [(3, .connection 5 true)] ++
  roundInputs 5 [(5, readInput (idMessage 97))]

theorem frames_exactly_once_missed :
    ∃ tr s c, Run usual tr s ∧ s.clients[0]? = some c ∧ c.sock = 5 ∧
      (inbox usual 0 tr).length = 2 ∧ inbox usual 0 tr = due (idOf c) (actions tr) := by
  obtain ⟨tr, s, hrun, hs⟩ := run_of_inputs usual (fun tr s => decide
    ((s.clients[0]?).map Client.sock = some 5 ∧ (inbox usual 0 tr).length = 2 ∧
      (∀ e ∈ tr, Fits e.1 e.2) ∧ Turns (log tr) ∧ AllWorded tr)) missedInputs (by decide +kernel)
  obtain ⟨hsock, hlength, hfits, hturns, hword⟩ := of_decide_eq_true hs
  obtain ⟨c, hc, hsock⟩ := Option.map_eq_some_iff.mp hsock
  obtain ⟨pending, hdue, _, honline⟩ :=
    frames_exactly_once hrun hfits (inTurn_of_turns hturns) hword hc
  have hnone : pending = [] := honline (by rw [hsock]; decide)
  rw [hnone, List.append_nil] at hdue
  exact ⟨tr, s, c, hrun, hc, hsock, hlength, hdue⟩

end TopicBroker.ExactlyOnce
