import TopicBroker.Registry

/-!
Connecting and leaving: `handle_id_client` and `disconnect_client` on the registry.
-/
namespace TopicBroker.Identify

open ByteBlocks Message Buffer Registry

/-- The draining loop: every element is the address of the word that is sent from, and
the word is read anew in every round, after the calls of the round. -/
def drain (sock : ℤ) (word : DeadWord) : List StackWord → List Send × Stack
  | [] => ([], word.stack)
  | message :: rest =>
    let word := word.next
    let (sends, stack) := drain sock word rest
    match word.stack.load message with
    | some frame => (⟨sock, frame⟩ :: sends, stack)
    | none => (sends, stack)

/-- How the loop over the records ended. -/
inductive Found
  | online
  | offline (sends : List Send) (stack : Stack)
  | nobody

/-- The loop stops at the first record whose ID compares equal. -/
def findClient (sock : ℤ) (data : Bytes) (word : DeadWord) : List Client → List Client × Found
  | [] => ([], .nobody)
  | c :: rest =>
    if strcmp (c.ID.bytes ++ c.following) data = 0 then
      if c.sock ≠ -1 then (c :: rest, .online)
      else
        let (sends, stack) := drain sock word c.inWaiting
        ({ c with sock := sock, inWaiting := [] } :: rest, .offline sends stack)
    else
      let (rest, found) := findClient sock data word rest
      (c :: rest, found)

/-- The calls of `send` that the loop makes, one for every element of the queue. -/
def sendCalls (data : Bytes) : List Client → ℕ
  | [] => 0
  | c :: rest =>
    if strcmp (c.ID.bytes ++ c.following) data = 0 then
      if c.sock ≠ -1 then 0 else c.inWaiting.length
    else sendCalls data rest

/-- `closes` tells whether the descriptor was closed and taken out of the set. -/
structure Handled where
  clients : List Client
  closes : Bool
  sends : List Send
  stack : Stack

/-- The new record is a local variable: what lies behind its ID was never written. -/
def newClient (sock : ℤ) (data : Block bufferServerLen) (following : Bytes) : Client where
  sock := sock
  ID := data.slice 0 idLen (by decide)
  following := following
  topics := []
  sfs := []
  inWaiting := queueCreate

def handleIdClient (sock : ℤ) (data : Block bufferServerLen) (following : Bytes) (word : DeadWord)
    (clients : List Client) : Except Stop Handled :=
  match findClient sock data.bytes word clients with
  | (clients, .online) => .ok ⟨clients, true, [], word.stack⟩
  | (clients, .offline sends stack) => .ok ⟨clients, false, sends, stack⟩
  | (clients, .nobody) => do
    let clients ← insertAt clients (newClient sock data following) clients.length
    .ok ⟨clients, false, [], word.stack⟩

/-- Every record with the socket is released; the descriptor is closed once for each. -/
def disconnectClient (sock : ℤ) : List Client → List Client × Bool
  | [] => ([], false)
  | c :: rest =>
    let (rest, closes) := disconnectClient sock rest
    if c.sock ≠ sock then (c :: rest, closes) else ({ c with sock := -1 } :: rest, true)

/-- The ID in the message compares equal to that of the record: the comparison
reads on behind the ID array when the array holds no NUL. -/
def Carries (data : Block bufferServerLen) (c : Client) : Prop :=
  cstr (c.ID.bytes ++ c.following) = cstr data.bytes

instance (data : Block bufferServerLen) (c : Client) : Decidable (Carries data c) :=
  inferInstanceAs (Decidable (_ = _))

/-- A record after its client came back. -/
def resumed (sock : ℤ) (c : Client) : Client := { c with sock := sock, inWaiting := [] }

section Handshake

variable (sock : ℤ) (data : Block bufferServerLen) (following : Bytes) (word : DeadWord)

/-- The three outcomes of an ID message. -/
inductive Handshake : List Client → Handled → Prop
  | refused (pre : List Client) (c : Client) (post : List Client)
      (hpre : ∀ d ∈ pre, ¬ Carries data d) (hc : Carries data c) (honline : c.sock ≠ -1) :
      Handshake (pre ++ c :: post) ⟨pre ++ c :: post, true, [], word.stack⟩
  | resumed (pre : List Client) (c : Client) (post : List Client)
      (hpre : ∀ d ∈ pre, ¬ Carries data d) (hc : Carries data c) (hoffline : c.sock = -1) :
      Handshake (pre ++ c :: post)
        ⟨pre ++ resumed sock c :: post, false, (drain sock word c.inWaiting).1,
          (drain sock word c.inWaiting).2⟩
  | appended (clients : List Client) (hnone : ∀ d ∈ clients, ¬ Carries data d) :
      Handshake clients ⟨clients ++ [newClient sock data following], false, [], word.stack⟩

private theorem findClient_cases (clients : List Client) :
    (∃ pre c post, clients = pre ++ c :: post ∧ (∀ d ∈ pre, ¬ Carries data d) ∧ Carries data c ∧
      c.sock ≠ -1 ∧ findClient sock data.bytes word clients = (clients, .online)) ∨
    (∃ pre c post, clients = pre ++ c :: post ∧ (∀ d ∈ pre, ¬ Carries data d) ∧ Carries data c ∧
      c.sock = -1 ∧ findClient sock data.bytes word clients =
        (pre ++ resumed sock c :: post, .offline (drain sock word c.inWaiting).1
          (drain sock word c.inWaiting).2)) ∨
    ((∀ d ∈ clients, ¬ Carries data d) ∧
      findClient sock data.bytes word clients = (clients, .nobody)) := by
  induction clients with
  | nil => exact Or.inr (Or.inr ⟨fun d hd => absurd hd List.not_mem_nil, rfl⟩)
  | cons c rest ih =>
    by_cases hc : Carries data c
    · have hcmp := (strcmp_eq_zero_iff (c.ID.bytes ++ c.following) data.bytes).mpr hc
      by_cases hsock : c.sock = -1
      · refine Or.inr (Or.inl ⟨[], c, rest, rfl, fun d hd => absurd hd List.not_mem_nil, hc, hsock, ?_⟩)
        rw [findClient, if_pos hcmp, if_neg (not_not.mpr hsock)]
        rfl
      · refine Or.inl ⟨[], c, rest, rfl, fun d hd => absurd hd List.not_mem_nil, hc, hsock, ?_⟩
        rw [findClient, if_pos hcmp, if_pos hsock]
    · have hcmp : ¬ strcmp (c.ID.bytes ++ c.following) data.bytes = 0 := fun h =>
        hc ((strcmp_eq_zero_iff _ _).mp h)
      have hcons : ∀ {pre : List Client}, (∀ d ∈ pre, ¬ Carries data d) →
          ∀ d ∈ c :: pre, ¬ Carries data d := by
        intro pre hpre d hd
        rcases List.mem_cons.mp hd with rfl | hd
        · exact hc
        · exact hpre d hd
      rcases ih with ⟨pre, d, post, rfl, hpre, hd, hsock, hfind⟩ |
        ⟨pre, d, post, rfl, hpre, hd, hsock, hfind⟩ | ⟨hnone, hfind⟩
      · refine Or.inl ⟨c :: pre, d, post, rfl, hcons hpre, hd, hsock, ?_⟩
        rw [findClient, if_neg hcmp, hfind]
      · refine Or.inr (Or.inl ⟨c :: pre, d, post, rfl, hcons hpre, hd, hsock, ?_⟩)
        rw [findClient, if_neg hcmp, hfind]
        rfl
      · refine Or.inr (Or.inr ⟨hcons hnone, ?_⟩)
        rw [findClient, if_neg hcmp, hfind]

/-- An ID message is always handled, in one of the three ways. -/
theorem handleIdClient_spec (clients : List Client) :
    ∃ r, handleIdClient sock data following word clients = .ok r ∧
      Handshake sock data following word clients r := by
  rcases findClient_cases sock data word clients with
    ⟨pre, c, post, hsplit, hpre, hc, hsock, hfind⟩ |
    ⟨pre, c, post, hsplit, hpre, hc, hsock, hfind⟩ | ⟨hnone, hfind⟩
  · refine ⟨_, by rw [handleIdClient, hfind], ?_⟩
    subst hsplit
    exact Handshake.refused pre c post hpre hc hsock
  · refine ⟨_, by rw [handleIdClient, hfind], ?_⟩
    subst hsplit
    exact Handshake.resumed pre c post hpre hc hsock
  · refine ⟨⟨clients ++ [newClient sock data following], false, [], word.stack⟩, ?_,
      Handshake.appended clients hnone⟩
    rw [handleIdClient, hfind]
    simp only [insertAt_length]
    rfl

theorem handleIdClient_cases {clients : List Client} {r : Handled}
    (h : handleIdClient sock data following word clients = .ok r) :
    Handshake sock data following word clients r := by
  obtain ⟨r', hr', hspec⟩ := handleIdClient_spec sock data following word clients
  rw [h] at hr'
  cases hr'
  exact hspec

end Handshake

/-- What is sent is what the word points at, one read for every element of the queue. -/
theorem drain_sends (sock : ℤ) (word : DeadWord) (queue : List StackWord) :
    (drain sock word queue).1 = (word.frames queue.length).map (Send.mk sock) := by
  induction queue generalizing word with
  | nil => rfl
  | cons message rest ih =>
    cases message
    rw [List.length_cons, DeadWord.frames, DeadWord.contents]
    have hload : word.next.stack.load .temp = word.next.stack.temp := rfl
    cases htemp : word.next.stack.temp with
    | none =>
      simp only [drain, hload, htemp, List.reduceOption_cons_of_none]
      exact ih word.next
    | some frame =>
      simp only [drain, hload, htemp, List.reduceOption_cons_of_some, List.map_cons]
      rw [ih word.next, DeadWord.frames]

/-- There is one if the first record with the ID is offline and something waits for it. -/
theorem sendCalls_pos_iff {data : Block bufferServerLen} {clients : List Client} :
    0 < sendCalls data.bytes clients ↔ ∃ pre c post, clients = pre ++ c :: post ∧
      (∀ d ∈ pre, ¬ Carries data d) ∧ Carries data c ∧ c.sock = -1 ∧ c.inWaiting ≠ [] := by
  induction clients with
  | nil =>
    refine iff_of_false (lt_irrefl 0) ?_
    rintro ⟨pre, c, post, hsplit, -⟩
    cases pre <;> cases hsplit
  | cons c rest ih =>
    have hcmp := strcmp_eq_zero_iff (c.ID.bytes ++ c.following) data.bytes
    by_cases hc : Carries data c
    · rw [sendCalls, if_pos (hcmp.mpr hc)]
      constructor
      · intro hpos
        by_cases hsock : c.sock = -1
        · rw [if_neg (not_not.mpr hsock)] at hpos
          exact ⟨[], c, rest, rfl, fun d hd => absurd hd List.not_mem_nil, hc, hsock,
            List.ne_nil_of_length_pos hpos⟩
        · rw [if_pos hsock] at hpos
          exact absurd hpos (lt_irrefl 0)
      · rintro ⟨pre, d, post, hsplit, hpre, hd, hoffline, hqueue⟩
        cases pre with
        | nil =>
          cases hsplit
          rw [if_neg (not_not.mpr hoffline)]
          exact List.length_pos_of_ne_nil hqueue
        | cons e pre =>
          cases hsplit
          exact absurd hc (hpre c (List.mem_cons_self ..))
    · rw [sendCalls, if_neg fun h => hc (hcmp.mp h), ih]
      constructor
      · rintro ⟨pre, d, post, rfl, hpre, hfacts⟩
        exact ⟨c :: pre, d, post, rfl, List.forall_mem_cons.mpr ⟨hc, hpre⟩, hfacts⟩
      · rintro ⟨pre, d, post, hsplit, hpre, hd, hfacts⟩
        cases pre with
        | nil =>
          cases hsplit
          exact absurd hd hc
        | cons e pre =>
          cases hsplit
          exact ⟨pre, d, post, rfl, (List.forall_mem_cons.mp hpre).2, hd, hfacts⟩

/-- A record after a connection was closed. -/
def released (sock : ℤ) (c : Client) : Client :=
  if c.sock = sock then { c with sock := -1 } else c

theorem disconnectClient_eq (sock : ℤ) (clients : List Client) :
    disconnectClient sock clients =
      (clients.map (released sock), decide (∃ c ∈ clients, c.sock = sock)) := by
  induction clients with
  | nil => rfl
  | cons c rest ih =>
    rw [disconnectClient, ih]
    by_cases hsock : c.sock = sock
    · simp [released, hsock]
    · simp [released, hsock]

end TopicBroker.Identify
