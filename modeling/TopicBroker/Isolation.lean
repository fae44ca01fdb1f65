import TopicBroker.ExactlyOnce
import TopicBroker.Lives

/-!
Clients do not see each other. Two runs of two servers in which a client does the same,
between the same datagrams, leave it with the same subscriptions and the same frames,
whatever other clients do in them, and whatever descriptors they are on.
-/
namespace TopicBroker.Isolation

open ByteBlocks Message Frames Registry Identity MainLoop Runs Handshakes Subscriptions PubSub Refinement
  ExactlyOnce Lives

/-- The subscriptions of a record as far as they count: texts, and whether they store. -/
def table (c : Client) : List (Bytes × Bool) :=
  (c.topics.zip c.sfs).map fun p => (text p.1, decide (p.2 = 1))

section Records

variable {c c' : Client} {a a' : Account Bytes ℤ Bytes Frame}

/-- Records of accounts that are the same up to names. -/
theorem same_record (h : Represents c a) (h' : Represents c' a')
    (herase : eraseAccount a = eraseAccount a') :
    table c = table c' ∧ (c.sock = -1 ↔ c'.sock = -1) ∧
      c.inWaiting.length = c'.inWaiting.length := by
  injection herase with _ hsubs hpresence
  refine ⟨h.subs_eq.trans (hsubs.trans h'.subs_eq.symm), ?_⟩
  have hpresent := h.present
  have hpresent' := h'.present
  cases hp : a.presence with
  | online link =>
    cases hp' : a'.presence with
    | online link' =>
      rw [hp] at hpresent
      rw [hp'] at hpresent'
      cases hpresent with
      | online hon hqueue =>
        cases hpresent' with
        | online hon' hqueue' => exact ⟨iff_of_false hon hon', by rw [hqueue, hqueue']⟩
    | offline pending' =>
      rw [hp, hp'] at hpresence
      cases hpresence
  | offline pending =>
    cases hp' : a'.presence with
    | online link' =>
      rw [hp, hp'] at hpresence
      cases hpresence
    | offline pending' =>
      rw [hp, hp'] at hpresence
      cases hpresence
      rw [hp] at hpresent
      rw [hp'] at hpresent'
      cases hpresent with
      | offline _ hoff hlength =>
        cases hpresent' with
        | offline _ hoff' hlength' =>
          exact ⟨iff_of_true hoff hoff', hlength.trans hlength'.symm⟩

end Records

/-- Two clients with the same life have been sent the same frames and have the same
subscriptions; both are online or both have as much waiting. -/
theorem clients_isolated {cfg cfg' : Config} {tr tr' : List (Server × Input)} {s s' : Server}
    (h : Run cfg tr s) (h' : Run cfg' tr' s') (hfits : ∀ e ∈ tr, Fits e.1 e.2)
    (hfits' : ∀ e ∈ tr', Fits e.1 e.2) (hturn : InTurn (log tr)) (hturn' : InTurn (log tr'))
    (hword : AllWorded tr) (hword' : AllWorded tr') {j j' : ℕ} {c c' : Client}
    (hc : s.clients[j]? = some c) (hc' : s'.clients[j']? = some c')
    (hlife : life (idOf c) (actions tr) = life (idOf c') (actions tr')) :
    inbox cfg j tr = inbox cfg' j' tr' ∧ table c = table c' ∧ (c.sock = -1 ↔ c'.sock = -1) ∧
      c.inWaiting.length = c'.inWaiting.length := by
  obtain ⟨a, ha, hrep⟩ := (run_mirrors h hfits).account (List.mem_of_getElem? hc)
  obtain ⟨a', ha', hrep'⟩ := (run_mirrors h' hfits').account (List.mem_of_getElem? hc')
  refine ⟨?_, same_record hrep hrep' ?_⟩
  · rw [inbox_eq_received h hfits hturn hword hc, inbox_eq_received h' hfits' hturn' hword' hc',
      received_life, received_life (idOf c'), hlife]
  · rw [hrep.id_eq, hrep'.id_eq] at hlife
    exact account_life ha ha' hlife

/-- A client that connects, subscribes and is sent a message. -/
def story : List (Action Unit Unit Bytes Frame) :=
  [.connect () (), .subscribe () [116] true,
    .publish [116] (frameOf (padded (116 :: List.replicate (topicLen - 1) 0 ++ [3, 120]))
      (.ofSender ⟨127, 0, 0, 1⟩ 8080))]

def aloneInputs : List Input :=
  roundInputs 5 [(3, .connection 5 true)] ++ roundInputs 5 [(5, readInput (idMessage 97))] ++
  roundInputs 5 [(5, readInput (subscribeMessage 116 1))] ++
  roundInputs 5 [(4, publishInput 116 120)]

/-- Another client is there first, subscribes to the same topic and leaves. -/
def amongInputs : List Input :=
  roundInputs 5 [(3, .connection 5 true)] ++ roundInputs 5 [(5, readInput (idMessage 98))] ++
  roundInputs 6 [(3, .connection 6 true)] ++ roundInputs 6 [(6, readInput (idMessage 97))] ++
  roundInputs 6 [(5, readInput (subscribeMessage 116 1)), (6, readInput (subscribeMessage 116 1))] ++
  roundInputs 6 [(5, readInput [])] ++ roundInputs 6 [(4, publishInput 116 120)]

/-- The client with the ID a lives the story at a position of the table. -/
def Lived (j : ℕ) (tr : List (Server × Input)) (s : Server) : Prop :=
  (s.clients[j]?).map idOf = some [97] ∧ life [97] (actions tr) = story ∧
    (∀ e ∈ tr, Fits e.1 e.2) ∧ Turns (log tr) ∧ AllWorded tr

instance (j : ℕ) (tr : List (Server × Input)) (s : Server) : Decidable (Lived j tr s) :=
  inferInstanceAs (Decidable (_ ∧ _ ∧ _ ∧ _ ∧ _))

theorem clients_isolated_among :
    ∃ tr s tr' s' c c', Run usual tr s ∧ Run usual tr' s' ∧ s.clients[0]? = some c ∧
      s'.clients[1]? = some c' ∧ c.sock = 5 ∧ c'.sock = 6 ∧ (inbox usual 0 tr).length = 1 ∧
      inbox usual 0 tr = inbox usual 1 tr' := by
  obtain ⟨tr, s, hrun, hs⟩ := run_of_inputs usual (fun tr s => decide
    (Lived 0 tr s ∧ (s.clients[0]?).map Client.sock = some 5 ∧ (inbox usual 0 tr).length = 1))
    aloneInputs (by decide +kernel)
  obtain ⟨tr', s', hrun', hs'⟩ := run_of_inputs usual (fun tr s => decide
    (Lived 1 tr s ∧ (s.clients[1]?).map Client.sock = some 6)) amongInputs (by decide +kernel)
  obtain ⟨⟨hid, hlife, hfits, hturns, hword⟩, hsock, hlength⟩ := of_decide_eq_true hs
  obtain ⟨⟨hid', hlife', hfits', hturns', hword'⟩, hsock'⟩ := of_decide_eq_true hs'
  obtain ⟨c, hc, hid⟩ := Option.map_eq_some_iff.mp hid
  obtain ⟨c', hc', hid'⟩ := Option.map_eq_some_iff.mp hid'
  rw [hc, Option.map_some, Option.some.injEq] at hsock
  rw [hc', Option.map_some, Option.some.injEq] at hsock'
  exact ⟨tr, s, tr', s', c, c', hrun, hrun', hc, hc', hsock, hsock', hlength,
    (clients_isolated hrun hrun' hfits hfits' (inTurn_of_turns hturns) (inTurn_of_turns hturns') hword
      hword' hc hc' (by rw [hid, hid', hlife, hlife'])).1⟩

end TopicBroker.Isolation
