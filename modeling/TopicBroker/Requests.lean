import TopicBroker.Registry

/-!
Subscribe and unsubscribe requests, from action.c. Both visit every record that
names the requesting socket.
-/
namespace TopicBroker.Requests

open ByteBlocks ByteOrder Message Buffer Registry

def subscribe (topic : Topic) (sf : CInt) (sock : ℤ) (clients : List Client) :
    Except Stop (List Client) :=
  eachClient (fun c =>
    if c.sock = sock then do
      let topics ← insertAt c.topics topic 0
      let sfs ← insertAt c.sfs sf 0
      .ok { c with topics := topics, sfs := sfs }
    else .ok c) clients

/-- The inner loop; its index grows and its bound does not, so the length is fuel enough. -/
def unsubscribeTopics (topic : Bytes) : ℕ → ℕ → List Topic → List CInt →
    Except Stop (List Topic × List CInt)
  | 0, _, topics, sfs => .ok (topics, sfs)
  | fuel + 1, j, topics, sfs =>
    if j < topics.length then do
      let t ← readAt topics j
      if strcmp t.bytes topic = 0 then do
        let topics ← deleteAt topics j
        let sfs ← deleteAt sfs j
        unsubscribeTopics topic fuel (j + 1) topics sfs
      else unsubscribeTopics topic fuel (j + 1) topics sfs
    else .ok (topics, sfs)

def unsubscribe (topic : Bytes) (sock : ℤ) (clients : List Client) : Except Stop (List Client) :=
  eachClient (fun c =>
    if c.sock = sock then do
      let (topics, sfs) ← unsubscribeTopics topic c.topics.length 0 c.topics c.sfs
      .ok { c with topics := topics, sfs := sfs }
    else .ok c) clients

/-- A request as `handle_request` reads it. -/
inductive Request
  | subscribe (topic : Topic) (sf : CInt)
  | unsubscribe (topic : Bytes)
  | invalid
deriving DecidableEq

/-- Only the subscribe branch fills the local `topic`: the other one passes on
what the stack held at its address. -/
def requestOf (data : Block bufferServerLen) (topic : Bytes) : Request :=
  let action := (data.slice 0 1 (by decide)).bytes.headD 0
  if action = 115 then
    .subscribe (data.slice commandSendLen (topicLen + commandSendLen) (by decide))
      (intOfBytes (data.slice (topicLen + commandSendLen + 1) 4 (by decide)).bytes)
  else if action = 117 then .unsubscribe topic
  else .invalid

def handleRequest (sock : ℤ) (data : Block bufferServerLen) (topic : Bytes)
    (clients : List Client) : Except Stop (List Client) :=
  match requestOf data topic with
  | .subscribe topic sf => subscribe topic sf sock clients
  | .unsubscribe topic => unsubscribe topic sock clients
  | .invalid => .ok clients

/-- A record after a subscribe request on a socket. -/
def subscribed (topic : Topic) (sf : CInt) (sock : ℤ) (c : Client) : Client :=
  if c.sock = sock then { c with topics := topic :: c.topics, sfs := sf :: c.sfs } else c

theorem subscribe_eq (topic : Topic) (sf : CInt) (sock : ℤ) (clients : List Client) :
    subscribe topic sf sock clients = .ok (clients.map (subscribed topic sf sock)) := by
  apply eachClient_map
  intro c
  unfold subscribed
  split
  · rw [insertAt_zero, insertAt_zero]
    rfl
  · rfl

/-- The loop goes on only while it finds nothing, or when what it finds is last. -/
theorem unsubscribeTopics_ok {topic : Bytes} (fuel : ℕ) :
    ∀ {j : ℕ} {topics topics' : List Topic} {sfs sfs' : List CInt}, topics.length ≤ j + fuel →
      unsubscribeTopics topic fuel j topics sfs = .ok (topics', sfs') →
      (topics' = topics ∧ sfs' = sfs ∧ ∀ t ∈ topics.drop j, cstr t.bytes ≠ cstr topic) ∨
      (topics.length = sfs.length ∧ topics' = topics.dropLast ∧ sfs' = sfs.dropLast ∧
        ∃ t, topics.getLast? = some t ∧ cstr t.bytes = cstr topic) := by
  induction fuel with
  | zero =>
    intro j topics topics' sfs sfs' hfuel h
    cases h
    rw [List.drop_eq_nil_of_le (by omega)]
    exact Or.inl ⟨rfl, rfl, fun t ht => absurd ht List.not_mem_nil⟩
  | succ fuel ih =>
    intro j topics topics' sfs sfs' hfuel h
    rw [unsubscribeTopics] at h
    by_cases hj : j < topics.length
    · rw [if_pos hj, readAt_of_lt hj] at h
      change (if strcmp topics[j].bytes topic = 0 then _ else _) = _ at h
      by_cases hmatch : cstr topics[j].bytes = cstr topic
      · rw [if_pos ((strcmp_eq_zero_iff _ _).mpr hmatch)] at h
        obtain ⟨topics₁, htopics, h⟩ := bind_eq_ok.mp h
        obtain ⟨sfs₁, hsfs, h⟩ := bind_eq_ok.mp h
        obtain ⟨hlast, rfl⟩ := deleteAt_eq_ok htopics
        obtain ⟨hlast', rfl⟩ := deleteAt_eq_ok hsfs
        have hend : unsubscribeTopics topic fuel (j + 1) topics.dropLast sfs.dropLast =
            .ok (topics.dropLast, sfs.dropLast) := by
          cases fuel with
          | zero => rfl
          | succ fuel =>
            rw [unsubscribeTopics, if_neg (by rw [List.length_dropLast]; omega)]
        rw [hend] at h
        cases h
        refine Or.inr ⟨hlast.symm.trans hlast', rfl, rfl, topics[j], ?_, hmatch⟩
        rw [List.getLast?_eq_getElem?, ← hlast, Nat.add_sub_cancel]
        exact List.getElem?_eq_getElem hj
      · rw [if_neg (fun he => hmatch ((strcmp_eq_zero_iff _ _).mp he))] at h
        rcases ih (by omega) h with ⟨ht, hs, hnone⟩ | hremoved
        · refine Or.inl ⟨ht, hs, ?_⟩
          rw [List.drop_eq_getElem_cons hj]
          intro t hmem
          rcases List.mem_cons.mp hmem with rfl | hmem
          · exact hmatch
          · exact hnone t hmem
        · exact Or.inr hremoved
    · rw [if_neg hj] at h
      cases h
      rw [List.drop_eq_nil_of_le (by omega)]
      exact Or.inl ⟨rfl, rfl, fun t ht => absurd ht List.not_mem_nil⟩

theorem unsubscribeTopics_absent {topic : Bytes} {topics : List Topic}
    (hnone : ∀ t ∈ topics, cstr t.bytes ≠ cstr topic) (sfs : List CInt) (fuel j : ℕ) :
    unsubscribeTopics topic fuel j topics sfs = .ok (topics, sfs) := by
  induction fuel generalizing j with
  | zero => rfl
  | succ fuel ih =>
    rw [unsubscribeTopics]
    by_cases hj : j < topics.length
    · have hdiffers : ¬ strcmp topics[j].bytes topic = 0 := fun h =>
        hnone _ (List.getElem_mem hj) ((strcmp_eq_zero_iff _ _).mp h)
      rw [if_pos hj, readAt_of_lt hj]
      change (if strcmp topics[j].bytes topic = 0 then _ else _) = _
      rw [if_neg hdiffers, ih]
    · rw [if_neg hj]

/-- A topic that no record of the socket has is removed from none. -/
theorem unsubscribe_absent {topic : Bytes} {sock : ℤ} {clients : List Client}
    (hnone : ∀ c ∈ clients, c.sock = sock → ∀ t ∈ c.topics, cstr t.bytes ≠ cstr topic) :
    unsubscribe topic sock clients = .ok clients := by
  refine eachClient_eq_ok.mpr (List.forall₂_same.mpr fun c hc => ?_)
  by_cases hsock : c.sock = sock
  · rw [if_pos hsock, unsubscribeTopics_absent (hnone c hc hsock)]
    rfl
  · rw [if_neg hsock]

/-- What a request handled to completion does to a record. -/
inductive Edit (sock : ℤ) : Request → Client → Client → Prop
  | elsewhere (r : Request) (c : Client) (h : c.sock ≠ sock) : Edit sock r c c
  | subscribe (topic : Topic) (sf : CInt) (c : Client) (h : c.sock = sock) :
      Edit sock (.subscribe topic sf) c { c with topics := topic :: c.topics, sfs := sf :: c.sfs }
  | absent (topic : Bytes) (c : Client) (h : c.sock = sock)
      (hnone : ∀ t ∈ c.topics, cstr t.bytes ≠ cstr topic) : Edit sock (.unsubscribe topic) c c
  | unsubscribe (topic : Bytes) (c : Client) (t : Topic) (h : c.sock = sock)
      (hlength : c.topics.length = c.sfs.length) (hlast : c.topics.getLast? = some t)
      (hmatch : cstr t.bytes = cstr topic) :
      Edit sock (.unsubscribe topic) c
        { c with topics := c.topics.dropLast, sfs := c.sfs.dropLast }
  | invalid (c : Client) (h : c.sock = sock) : Edit sock .invalid c c

/-- A request touches the subscriptions alone, and only of records with its socket. -/
theorem Edit.frame {sock : ℤ} {r : Request} {c c' : Client} (h : Edit sock r c c') :
    c' = { c with topics := c'.topics, sfs := c'.sfs } ∧ (c.sock ≠ sock → c' = c) := by
  cases h with
  | elsewhere _ h => exact ⟨rfl, fun _ => rfl⟩
  | subscribe topic sf _ h => exact ⟨rfl, fun hne => absurd h hne⟩
  | absent topic _ h hnone => exact ⟨rfl, fun _ => rfl⟩
  | unsubscribe topic _ t h hlength hlast hmatch => exact ⟨rfl, fun hne => absurd h hne⟩
  | invalid _ h => exact ⟨rfl, fun _ => rfl⟩

theorem unsubscribe_edits {sock : ℤ} {topic : Bytes} {clients clients' : List Client}
    (h : unsubscribe topic sock clients = .ok clients') :
    List.Forall₂ (Edit sock (.unsubscribe topic)) clients clients' := by
  refine (eachClient_ok h).imp ?_
  intro c c' hc
  by_cases hsock : c.sock = sock
  · rw [if_pos hsock] at hc
    obtain ⟨⟨topics', sfs'⟩, hloop, hc⟩ := bind_eq_ok.mp hc
    cases hc
    rcases unsubscribeTopics_ok _ (by omega) hloop with ⟨rfl, rfl, hnone⟩ | hremoved
    · rw [List.drop_zero] at hnone
      exact Edit.absent topic c hsock hnone
    · obtain ⟨hlength, rfl, rfl, t, hlast, hmatch⟩ := hremoved
      exact Edit.unsubscribe topic c t hsock hlength hlast hmatch
  · rw [if_neg hsock] at hc
    cases hc
    exact Edit.elsewhere _ c hsock

theorem handleRequest_edits {sock : ℤ} {data : Block bufferServerLen} {topic : Bytes}
    {clients clients' : List Client} (h : handleRequest sock data topic clients = .ok clients') :
    List.Forall₂ (Edit sock (requestOf data topic)) clients clients' := by
  unfold handleRequest at h
  cases hr : requestOf data topic with
  | subscribe topic sf =>
    rw [hr] at h
    simp only [subscribe_eq] at h
    cases h
    rw [List.forall₂_map_right_iff, List.forall₂_same]
    intro c _
    unfold subscribed
    split
    · rename_i hsock
      exact Edit.subscribe topic sf c hsock
    · rename_i hsock
      exact Edit.elsewhere _ c hsock
  | unsubscribe topic =>
    rw [hr] at h
    exact unsubscribe_edits h
  | invalid =>
    rw [hr] at h
    cases h
    rw [List.forall₂_same]
    intro c _
    by_cases hsock : c.sock = sock
    · exact Edit.invalid c hsock
    · exact Edit.elsewhere _ c hsock

end TopicBroker.Requests
