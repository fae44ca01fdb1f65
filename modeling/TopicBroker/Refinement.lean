import TopicBroker.Handshakes
import TopicBroker.Identity
import TopicBroker.PubSub
import TopicBroker.Removal
import TopicBroker.StoreForward
import TopicBroker.Subscriptions

/-!
The server as an ideal broker. Every step of the server stands for an action of the
broker, or for none, and the registry mirrors the broker's accounts in every run whose
IDs fit their arrays. What a step sends is what the broker delivers, with one
exception: a client that returns gets the frames that the stack word points at.
-/
namespace TopicBroker.Refinement

open ByteBlocks Message Frames Registry Requests Publish Identify Identity MainLoop Runs Handshakes
  Removal Persistence Subscriptions PubSub

/-- The links of the broker are the descriptors of the server. -/
abbrev Ideal := Broker Bytes ℤ Bytes Frame

/-- The action that a request stands for. -/
def requested (fd : ℤ) : Request → Option (Action Bytes ℤ Bytes Frame)
  | .subscribe topic sf => some (.subscribe fd (text topic) (sf = 1))
  | .unsubscribe topic => some (.unsubscribe fd (cstr topic))
  | .invalid => none

/-- The action that a step stands for. -/
def actionOf (s : Server) (i : Input) : Option (Action Bytes ℤ Bytes Frame) :=
  match i, s.pc with
  | .datagram bytes addr _, _ => some (.publish (topicText bytes) (frameOf (padded bytes) addr))
  | .read bytes locals, .scan _ fd =>
    match dispatch s.receiveID bytes.length with
    | .disconnect => some (.leave fd)
    | .idClient => some (.connect fd (presentedId s bytes))
    | .request => requested fd (requestOf (s.sendBuffer.receive bytes) locals.topic)
  | _, _ => none

def actions (tr : List (Server × Input)) : List (Action Bytes ℤ Bytes Frame) :=
  tr.filterMap fun e => actionOf e.1 e.2

/-- The presence of a record: the queue has an element for each message that waits. -/
inductive Present (c : Client) : Presence ℤ Frame → Prop
  | online (hsock : c.sock ≠ -1) (hqueue : c.inWaiting = []) : Present c (.online c.sock)
  | offline (pending : List Frame) (hsock : c.sock = -1)
      (hqueue : c.inWaiting.length = pending.length) : Present c (.offline pending)

structure Represents (c : Client) (a : Account Bytes ℤ Bytes Frame) : Prop where
  id_eq : idOf c = a.id
  subs_eq : (c.topics.zip c.sfs).map (fun p => (text p.1, decide (p.2 = 1))) = a.subs
  length_eq : c.topics.length = c.sfs.length
  present : Present c a.presence

structure Mirrors (s : Server) (b : Ideal) : Prop where
  accounts : List.Forall₂ Represents s.clients b.accounts
  sealed : ∀ c ∈ s.clients, Sealed c

/-- The string that an ID message presents, and the memory behind a record made for it. -/
def presents (s : Server) (i : Input) : Option (Bytes × Bytes) :=
  match i, s.pc with
  | .read bytes locals, .scan _ _ =>
    if bytes ≠ [] ∧ s.receiveID = true then
      some (cstr (s.sendBuffer.receive bytes).bytes, locals.following)
    else none
  | _, _ => none

/-- The ID is shorter than its array, or fills it and a NUL is behind it. -/
def Fits (s : Server) (i : Input) : Prop :=
  ∀ p ∈ presents s i, p.1.length < idLen ∨ (p.1.length = idLen ∧ cstr p.2 = [])

instance (s : Server) (i : Input) : Decidable (Fits s i) :=
  inferInstanceAs (Decidable (∀ p ∈ presents s i, _))

/-- What waits for the identity that connects in an action. -/
def waiting (b : Ideal) : Option (Action Bytes ℤ Bytes Frame) → List Frame
  | some (.connect _ id) => b.pending id
  | _ => []

/-- The stack word, read once for every message that waits for the ID in an ID message,
points at each of them in turn. -/
def Worded (s : Server) (i : Input) (b : Ideal) : Prop :=
  (deadWord s i).contents (waiting b (actionOf s i)).length = (waiting b (actionOf s i)).map some

instance (s : Server) (i : Input) (b : Ideal) : Decidable (Worded s i b) :=
  inferInstanceAs (Decidable (_ = _))

def sendOf (d : Delivery Bytes ℤ Frame) : Send := ⟨d.link, d.message⟩

/-- What the broker delivers in a step. -/
def delivers (b : Ideal) (x : Option (Action Bytes ℤ Bytes Frame)) : List Send :=
  (x.elim [] b.deliveries).map sendOf

section Records

variable {c : Client} {a : Account Bytes ℤ Bytes Frame}

theorem Represents.link_iff (h : Represents c a) {sock : ℤ} (hsock : sock ≠ -1) :
    a.link = some sock ↔ c.sock = sock := by
  have hpresent := h.present
  cases hp : a.presence with
  | online link =>
    rw [hp] at hpresent
    cases hpresent
    simp [Account.link, hp]
  | offline pending =>
    rw [hp] at hpresent
    cases hpresent with
    | offline _ hoff _ =>
      refine iff_of_false (by simp [Account.link, hp]) ?_
      rw [hoff]
      exact hsock.symm

theorem Represents.copies_eq (h : Represents c a) (x : Bytes) :
    a.copies x = copiesIn x c.topics := by
  have hfst := List.map_fst_zip (le_of_eq h.length_eq)
  calc
    a.copies x = (c.topics.zip c.sfs).countP fun p => text p.1 = x := by
      rw [Account.copies, ← h.subs_eq, List.countP_map]
      rfl
    _ = ((c.topics.zip c.sfs).map Prod.fst).countP fun t => text t = x := by
      rw [List.countP_map]
      rfl
    _ = copiesIn x c.topics := by
      rw [hfst]
      rfl

theorem Represents.stored_eq (h : Represents c a) (x : Bytes) :
    a.stored x = storedIn x c.topics c.sfs := by
  rw [Account.stored, ← h.subs_eq, List.countP_map, storedIn]
  apply List.countP_congr
  intro p _
  simp [text]

end Records

section Handlers

variable {c : Client} {a : Account Bytes ℤ Bytes Frame}

/-- An account that is online has a record without a queue. -/
theorem Represents.online {sock : ℤ} (h : Represents c a) (hlink : a.link = some sock) :
    a.presence = .online sock ∧ c.sock = sock ∧ sock ≠ -1 ∧ c.inWaiting = [] := by
  have hpresent := h.present
  cases hp : a.presence with
  | offline pending => simp [Account.link, hp] at hlink
  | online link =>
    rw [hp] at hpresent
    simp only [Account.link, hp, Option.some.injEq] at hlink
    subst hlink
    cases hpresent with
    | online hsock hqueue => exact ⟨rfl, rfl, hsock, hqueue⟩

private theorem present_of_eq {d : Client} {p : Presence ℤ Frame} (h : Present c p)
    (hsock : d.sock = c.sock) (hqueue : d.inWaiting = c.inWaiting) : Present d p := by
  cases h with
  | online hon hempty =>
    rw [← hsock] at hon ⊢
    exact Present.online hon (hqueue.trans hempty)
  | offline pending hoff hlength =>
    exact Present.offline pending (hsock.trans hoff) (by rw [hqueue]; exact hlength)

/-- A datagram and a publication. -/
theorem Represents.publish (h : Represents c a) (x : Bytes) (frame : Frame) :
    Represents (kept x c) (a.next (.publish x frame)) := by
  have hpresent := h.present
  cases hp : a.presence with
  | online link =>
    rw [hp] at hpresent
    cases hpresent with
    | online hsock hqueue =>
      simp only [kept, if_neg hsock, Account.next, hp]
      exact h
  | offline pending =>
    rw [hp] at hpresent
    cases hpresent with
    | offline _ hsock hqueue =>
      simp only [kept, if_pos hsock, Account.next, hp]
      refine ⟨h.id_eq, h.subs_eq, h.length_eq, Present.offline _ hsock ?_⟩
      simp only [List.length_append, List.length_replicate, hqueue, h.stored_eq]

theorem Represents.routed_eq (h : Represents c a) (x : Bytes) (frame : Frame) :
    routed x frame c = (a.receives (.publish x frame)).map sendOf := by
  have hpresent := h.present
  cases hp : a.presence with
  | online link =>
    rw [hp] at hpresent
    cases hpresent with
    | online hsock hqueue =>
      simp only [routed, if_neg hsock, Account.receives, hp, List.map_replicate, h.copies_eq]
      rfl
  | offline pending =>
    rw [hp] at hpresent
    cases hpresent with
    | offline _ hsock hqueue => simp [routed, hsock, Account.receives, hp]

/-- A zero-byte read and a leave. -/
theorem Represents.release (h : Represents c a) (fd : ℕ) :
    Represents (released fd c) (a.next (.leave fd)) := by
  have hlink := h.link_iff (show (fd : ℤ) ≠ -1 by omega)
  by_cases hsock : c.sock = fd
  · obtain ⟨_, _, _, hqueue⟩ := h.online (hlink.mpr hsock)
    simp only [released, if_pos hsock, Account.next, if_pos (hlink.mpr hsock)]
    refine ⟨h.id_eq, h.subs_eq, h.length_eq, Present.offline _ rfl ?_⟩
    rw [hqueue]
    rfl
  · simp only [released, if_neg hsock, Account.next, if_neg (fun he => hsock (hlink.mp he))]
    exact h

/-- A record after an ID message in a table keyed by IDs. -/
def recalled (sock : ℤ) (id : Bytes) (c : Client) : Client :=
  if idOf c = id ∧ c.sock = -1 then resumed sock c else c

/-- An ID message and a connect. -/
theorem Represents.recall (h : Represents c a) (fd : ℕ) (id : Bytes) :
    Represents (recalled fd id c) (a.next (.connect fd id)) := by
  have hpresent := h.present
  cases hp : a.presence with
  | online link =>
    rw [hp] at hpresent
    cases hpresent with
    | online hsock hqueue =>
      simp only [recalled, hsock, and_false, if_false, Account.next, hp]
      exact h
  | offline pending =>
    rw [hp] at hpresent
    cases hpresent with
    | offline _ hsock hqueue =>
      simp only [recalled, hsock, and_true, Account.next, hp, h.id_eq]
      by_cases hid : a.id = id
      · rw [if_pos hid, if_pos hid]
        have honline : (resumed fd c).sock ≠ -1 := by
          change (fd : ℤ) ≠ -1
          omega
        exact ⟨h.id_eq, h.subs_eq, h.length_eq, Present.online honline rfl⟩
      · rw [if_neg hid, if_neg hid]
        exact h

/-- A subscribe request. -/
theorem Represents.subscribe (h : Represents c a) (fd : ℕ) (topic : Topic) (sf : CInt) :
    Represents (subscribed topic sf fd c) (a.next (.subscribe fd (text topic) (sf = 1))) := by
  have hlink := h.link_iff (show (fd : ℤ) ≠ -1 by omega)
  by_cases hsock : c.sock = fd
  · simp only [subscribed, if_pos hsock, Account.next, if_pos (hlink.mpr hsock)]
    refine ⟨h.id_eq, ?_, ?_, ?_⟩
    · simp only [List.zip_cons_cons, List.map_cons, h.subs_eq]
    · simp only [List.length_cons, h.length_eq]
    · exact present_of_eq h.present rfl rfl
  · simp only [subscribed, if_neg hsock, Account.next, if_neg (fun he => hsock (hlink.mp he))]
    exact h

/-- An unsubscribe request. -/
theorem Represents.unsubscribe (h : Represents c a) (fd : ℕ) (topic : Bytes) :
    Represents (unsubscribed topic fd c) (a.next (.unsubscribe fd (cstr topic))) := by
  have hlink := h.link_iff (show (fd : ℤ) ≠ -1 by omega)
  by_cases hsock : c.sock = fd
  · simp only [unsubscribed, if_pos hsock, Account.next, if_pos (hlink.mpr hsock)]
    refine ⟨h.id_eq, ?_, ?_, ?_⟩
    · simp only [List.zip_map', Prod.mk.eta, List.map_id', ← h.subs_eq, remaining, List.filter_map]
      rfl
    · simp only [List.length_map]
    · exact present_of_eq h.present rfl rfl
  · simp only [unsubscribed, if_neg hsock, Account.next, if_neg (fun he => hsock (hlink.mp he))]
    exact h

end Handlers

section Handshakes

variable {s : Server} {b : Ideal} {bytes following : Bytes} {fd : ℕ}

/-- The comparison with a sealed ID is a comparison of IDs when the string presented fits. -/
theorem carries_iff_presented {c : Client} (hc : Sealed c)
    (hfits : (cstr (s.sendBuffer.receive bytes).bytes).length ≤ idLen) :
    Carries (s.sendBuffer.receive bytes) c ↔ idOf c = presentedId s bytes := by
  rw [Carries, hc, idOf, presentedId, cstr_take, List.take_of_length_le hfits]

theorem Mirrors.account (h : Mirrors s b) {c : Client} (hc : c ∈ s.clients) :
    ∃ a ∈ b.accounts, Represents c a := by
  obtain ⟨j, hj⟩ := List.mem_iff_getElem?.mp hc
  obtain ⟨hlt, rfl⟩ := List.getElem?_eq_some_iff.mp hj
  have hlt' : j < b.accounts.length := h.accounts.length_eq ▸ hlt
  exact ⟨b.accounts[j], List.getElem_mem hlt', h.accounts.get hlt hlt'⟩

theorem Mirrors.record (h : Mirrors s b) {a : Account Bytes ℤ Bytes Frame} (ha : a ∈ b.accounts) :
    ∃ c ∈ s.clients, Represents c a := by
  obtain ⟨j, hj⟩ := List.mem_iff_getElem?.mp ha
  obtain ⟨hlt, rfl⟩ := List.getElem?_eq_some_iff.mp hj
  have hlt' : j < s.clients.length := h.accounts.length_eq ▸ hlt
  exact ⟨s.clients[j], List.getElem_mem hlt', h.accounts.get hlt' hlt⟩

theorem Mirrors.ids_nodup (h : Mirrors s b) : (s.clients.map idOf).Nodup := by
  have hids : ∀ {clients : List Client} {accounts : List (Account Bytes ℤ Bytes Frame)},
      List.Forall₂ Represents clients accounts → clients.map idOf = accounts.map Account.id := by
    intro clients accounts hall
    induction hall with
    | nil => rfl
    | cons hhead _ ih => rw [List.map_cons, List.map_cons, hhead.id_eq, ih]
  rw [hids h.accounts]
  exact b.nodup

/-- In a table keyed by IDs an ID message reaches the record of its ID. -/
theorem handshake_map {word : DeadWord} {data : Block bufferServerLen} {id : Bytes}
    {clients : List Client} {r : Handled} (hnodup : (clients.map idOf).Nodup)
    (hid : ∀ c ∈ clients, Carries data c ↔ idOf c = id)
    (h : Handshake fd data following word clients r) :
    r.clients = clients.map (recalled fd id) ++
      if ∃ c ∈ clients, idOf c = id then [] else [newClient fd data following] := by
  have hother : ∀ xs : List Client, (∀ d ∈ xs, idOf d ≠ id) → xs.map (recalled fd id) = xs := by
    intro xs hxs
    calc
      xs.map (recalled fd id) = xs.map fun d => d :=
        List.map_congr_left fun d hd => if_neg fun hmatch => hxs d hd hmatch.1
      _ = xs := List.map_id' xs
  have hrest : ∀ {pre post : List Client} {c : Client}, clients = pre ++ c :: post → idOf c = id →
      (∀ d ∈ pre, idOf d ≠ id) ∧ ∀ d ∈ post, idOf d ≠ id := by
    intro pre post c hsplit hc
    rw [hsplit, List.map_append, List.map_cons, List.nodup_append] at hnodup
    obtain ⟨_, hpost, hpre⟩ := hnodup
    refine ⟨fun d hd hdid => ?_, fun d hd hdid => ?_⟩
    · exact hpre _ (List.mem_map_of_mem hd) _ (List.mem_cons_self ..) (hdid.trans hc.symm)
    · exact (List.nodup_cons.mp hpost).1 (hc.trans hdid.symm ▸ List.mem_map_of_mem hd)
  cases h with
  | refused pre c post hpre hc honline =>
    have hcid := (hid c (by simp)).mp hc
    obtain ⟨hbefore, hbehind⟩ := hrest rfl hcid
    have hsame : recalled fd id c = c := if_neg fun hmatch => honline hmatch.2
    rw [if_pos ⟨c, by simp, hcid⟩, List.append_nil, List.map_append, List.map_cons, hother pre hbefore,
      hother post hbehind, hsame]
  | resumed pre c post hpre hc hoffline =>
    have hcid := (hid c (by simp)).mp hc
    obtain ⟨hbefore, hbehind⟩ := hrest rfl hcid
    have hsame : recalled fd id c = resumed fd c := if_pos ⟨hcid, hoffline⟩
    rw [if_pos ⟨c, by simp, hcid⟩, List.append_nil, List.map_append, List.map_cons, hother pre hbefore,
      hother post hbehind, hsame]
  | appended _ hnone =>
    have hothers : ∀ d ∈ clients, idOf d ≠ id := fun d hd hdid => hnone d hd ((hid d hd).mpr hdid)
    rw [if_neg (fun ⟨c, hc, hcid⟩ => hothers c hc hcid), hother clients hothers]

/-- What is sent for an ID message is what waits for the ID if the stack word points at it. -/
theorem handshake_sends_iff {word : DeadWord} {data : Block bufferServerLen} {id : Bytes}
    {r : Handled} (hm : Mirrors s b) (hid : ∀ c ∈ s.clients, Carries data c ↔ idOf c = id)
    (h : Handshake fd data following word s.clients r) :
    r.sends = (b.pending id).map (fun m => ⟨fd, m⟩) ↔
      word.contents (b.pending id).length = (b.pending id).map some := by
  generalize hclients : s.clients = clients at h
  cases h with
  | refused pre c post hpre hc honline =>
    have hmem : c ∈ s.clients := by
      rw [hclients]
      simp
    obtain ⟨a, ha, hrep⟩ := hm.account hmem
    have hnone : b.pending id = [] := by
      rw [← (hid c hmem).mp hc, hrep.id_eq, Broker.pending_of_mem ha]
      have hpresent := hrep.present
      cases hp : a.presence with
      | online link => simp [Account.pending, hp]
      | offline pending =>
        rw [hp] at hpresent
        cases hpresent with
        | offline _ hoff _ => exact absurd hoff honline
    rw [hnone]
    exact iff_of_true rfl rfl
  | appended _ hnone =>
    have habsent : b.pending id = [] := by
      apply Broker.pending_of_absent
      intro a ha hida
      obtain ⟨c, hc, hrep⟩ := hm.record ha
      refine hnone c (by rw [← hclients]; exact hc) ((hid c hc).mpr ?_)
      rw [hrep.id_eq, hida]
    rw [habsent]
    exact iff_of_true rfl rfl
  | resumed pre c post hpre hc hoffline =>
    have hmem : c ∈ s.clients := by
      rw [hclients]
      simp
    obtain ⟨a, ha, hrep⟩ := hm.account hmem
    have hlength : c.inWaiting.length = (b.pending id).length := by
      rw [← (hid c hmem).mp hc, hrep.id_eq, Broker.pending_of_mem ha]
      have hpresent := hrep.present
      cases hp : a.presence with
      | online link =>
        rw [hp] at hpresent
        cases hpresent with
        | online hon _ => exact absurd hoffline hon
      | offline pending =>
        rw [hp] at hpresent
        cases hpresent with
        | offline _ _ hqueue => simpa [Account.pending, hp] using hqueue
    have hinjective : Function.Injective (List.map (Send.mk fd)) :=
      List.map_injective_iff.mpr fun a b hab => (Send.mk.inj hab).2
    change (drain fd word c.inWaiting).1 = (b.pending id).map (Send.mk fd) ↔ _
    rw [drain_sends, hlength, hinjective.eq_iff, DeadWord.frames_eq_iff rfl]

end Handshakes

section Steps

variable {cfg : Config} {s t : Server} {b : Ideal} {i : Input} {sends : List Send}

private theorem forall₂_flatMap {α β γ : Type} {R : α → β → Prop} {f : α → List γ} {g : β → List γ}
    {xs : List α} {ys : List β} (h : List.Forall₂ R xs ys) (hfg : ∀ x y, R x y → f x = g y) :
    xs.flatMap f = ys.flatMap g := by
  induction h with
  | nil => rfl
  | cons hhead _ ih => rw [List.flatMap_cons, List.flatMap_cons, hfg _ _ hhead, ih]

private theorem sealed_of_identity {c d : Client} (h : identity d = identity c) (hc : Sealed c) :
    Sealed d := by
  obtain ⟨hID, hfollowing⟩ := Prod.mk.inj h
  unfold Sealed at hc ⊢
  rwa [hID, hfollowing]

/-- A step that treats every record by itself. -/
theorem Mirrors.map {f : Client → Client} {x : Action Bytes ℤ Bytes Frame} (h : Mirrors s b)
    (hclients : t.clients = s.clients.map f)
    (hf : ∀ c a, Represents c a → Represents (f c) (a.next x))
    (hidentity : ∀ c, identity (f c) = identity c) (hjoins : b.joins x = []) :
    Mirrors t (b.next x) := by
  constructor
  · rw [hclients, Broker.next_accounts, hjoins, List.append_nil, List.forall₂_map_left_iff,
      List.forall₂_map_right_iff]
    exact h.accounts.imp fun c a hrep => hf c a hrep
  · rw [hclients, List.forall_mem_map]
    exact fun c hc => sealed_of_identity (hidentity c) (h.sealed c hc)

theorem Mirrors.lengths (h : Mirrors s b) : ∀ c ∈ s.clients, c.topics.length = c.sfs.length := by
  intro c hc
  obtain ⟨a, _, hrep⟩ := h.account hc
  exact hrep.length_eq

/-- An ID message that fits keeps the registry a mirror. -/
theorem Mirrors.identify (h : Mirrors s b) {fd : ℕ} {bytes : Bytes} {locals : ReadLocals}
    {r : Handled} (hclients : t.clients = r.clients)
    (hfits : (cstr (s.sendBuffer.receive bytes).bytes).length < idLen ∨
      ((cstr (s.sendBuffer.receive bytes).bytes).length = idLen ∧ cstr locals.following = []))
    {word : DeadWord}
    (hr : Handshake fd (s.sendBuffer.receive bytes) locals.following word s.clients r) :
    Mirrors t (b.next (.connect fd (presentedId s bytes))) := by
  have hle : (cstr (s.sendBuffer.receive bytes).bytes).length ≤ idLen := by omega
  have hmap := handshake_map h.ids_nodup
    (fun c hc => carries_iff_presented (h.sealed c hc) hle) hr
  have hnew : idOf (newClient fd (s.sendBuffer.receive bytes) locals.following) =
      presentedId s bytes := rfl
  have hexists : (∃ c ∈ s.clients, idOf c = presentedId s bytes) ↔
      ∃ a ∈ b.accounts, a.id = presentedId s bytes := by
    constructor
    · rintro ⟨c, hc, hid⟩
      obtain ⟨a, ha, hrep⟩ := h.account hc
      exact ⟨a, ha, hrep.id_eq.symm.trans hid⟩
    · rintro ⟨a, ha, hid⟩
      obtain ⟨c, hc, hrep⟩ := h.record ha
      exact ⟨c, hc, hrep.id_eq.trans hid⟩
  have hold : List.Forall₂ Represents (s.clients.map (recalled fd (presentedId s bytes)))
      (b.accounts.map (·.next (.connect fd (presentedId s bytes)))) := by
    rw [List.forall₂_map_left_iff, List.forall₂_map_right_iff]
    exact h.accounts.imp fun c a hrep => hrep.recall fd (presentedId s bytes)
  have hsealed : ∀ c ∈ s.clients.map (recalled fd (presentedId s bytes)), Sealed c := by
    rw [List.forall_mem_map]
    intro c hc
    apply sealed_of_identity _ (h.sealed c hc)
    unfold recalled
    split <;> rfl
  by_cases hknown : ∃ c ∈ s.clients, idOf c = presentedId s bytes
  · rw [if_pos hknown, List.append_nil] at hmap
    constructor
    · rw [hclients, hmap]
      rw [Broker.next_accounts, Broker.joins, if_pos (hexists.mp hknown), List.append_nil]
      exact hold
    · rw [hclients, hmap]
      exact hsealed
  · rw [if_neg hknown] at hmap
    constructor
    · rw [hclients, hmap]
      rw [Broker.next_accounts, Broker.joins, if_neg (fun hex => hknown (hexists.mpr hex))]
      refine List.rel_append hold (List.Forall₂.cons ?_ List.Forall₂.nil)
      have honline : (newClient fd (s.sendBuffer.receive bytes) locals.following).sock ≠ -1 := by
        change (fd : ℤ) ≠ -1
        omega
      exact ⟨hnew, rfl, rfl, Present.online honline rfl⟩
    · rw [hclients, hmap]
      intro c hc
      rcases List.mem_append.mp hc with hc | hc
      · exact hsealed c hc
      · rw [List.mem_singleton.mp hc, sealed_iff, hnew]
        rcases hfits with hlt | ⟨_, hnul⟩
        · exact Or.inl (by rw [presentedId, cstr_take, List.length_take]; omega)
        · exact Or.inr hnul

end Steps

/-- The broker after the action of a step. -/
def follows (b : Ideal) (x : Option (Action Bytes ℤ Bytes Frame)) : Ideal := x.elim b b.next

section Simulation

variable {cfg : Config} {s t : Server} {b : Ideal} {i : Input} {sends : List Send}

theorem actionOf_read {curr : Finset ℕ} {fd : ℕ} {bytes : Bytes} (locals : ReadLocals)
    (hvisit : Visits s curr fd) :
    actionOf s (.read bytes locals) =
      match dispatch s.receiveID bytes.length with
      | .disconnect => some (.leave fd)
      | .idClient => some (.connect fd (presentedId s bytes))
      | .request => requested fd (requestOf (s.sendBuffer.receive bytes) locals.topic) := by
  simp only [actionOf, hvisit.pc_eq]

theorem dispatch_nonempty {bytes : Bytes} (hne : bytes ≠ []) (flag : Bool) :
    dispatch flag bytes.length = if flag = true then .idClient else .request :=
  if_neg fun hz => hne (List.eq_nil_of_length_eq_zero hz)

theorem Mirrors.quiet (h : Mirrors s b) (hclients : t.clients = s.clients)
    (hx : actionOf s i = none) : Mirrors t (follows b (actionOf s i)) := by
  rw [hx]
  refine ⟨?_, ?_⟩
  · rw [hclients]
    exact h.accounts
  · rw [hclients]
    exact h.sealed

/-- Every step of the server is a step of the broker or none. -/
theorem step_mirrors (hstep : Step cfg s i t sends) (h : Mirrors s b) (hfits : Fits s i) :
    Mirrors t (follows b (actionOf s i)) := by
  cases hstep with
  | reuse word => exact h.quiet rfl (by simp [actionOf])
  | select ready hpc hopen hready => exact h.quiet rfl (by simp [actionOf])
  | wrap curr fd hpc hend => exact h.quiet rfl (by simp [actionOf])
  | skip curr fd hpc hle hclear => exact h.quiet rfl (by simp [actionOf])
  | accept curr new hvisit hfresh => exact h.quiet rfl (by simp [actionOf])
  | publish curr bytes addr locals p hvisit hp =>
    refine h.map (receiveUdpMessage_spec hp).clients_eq ?_ ?_ rfl
    · exact fun c a hrep => hrep.publish _ _
    · intro c
      unfold kept
      split <;> rfl
  | disconnect curr fd locals hvisit hfd hpeer =>
    rw [actionOf_read locals hvisit]
    refine h.map (f := released fd) ?_ (fun c a hrep => hrep.release fd) ?_ rfl
    · change (disconnectClient fd s.clients).1 = _
      rw [disconnectClient_eq]
    · intro c
      unfold released
      split <;> rfl
  | identify curr fd bytes locals r hvisit hfd hpeer hne hlen hflag hr =>
    rw [actionOf_read locals hvisit, dispatch_nonempty hne, if_pos hflag]
    have hpresents : presents s (.read bytes locals) =
        some (cstr (s.sendBuffer.receive bytes).bytes, locals.following) := by
      simp only [presents, hvisit.pc_eq, hne, hflag, ne_eq, not_false_eq_true, and_self, if_true]
    exact h.identify rfl (hfits _ hpresents) (handleIdClient_cases _ _ _ _ hr)
  | request curr fd bytes locals clients hvisit hfd hpeer hne hlen hflag hr =>
    rw [actionOf_read locals hvisit, dispatch_nonempty hne, hflag]
    simp only [Bool.false_eq_true, if_false]
    unfold handleRequest at hr
    cases hrequest : requestOf (s.sendBuffer.receive bytes) locals.topic with
    | subscribe topic sf =>
      simp only [hrequest, subscribe_eq, Except.ok.injEq] at hr
      refine h.map hr.symm (fun c a hrep => hrep.subscribe fd topic sf) ?_ rfl
      intro c
      unfold subscribed
      split <;> rfl
    | unsubscribe topic =>
      simp only [hrequest] at hr
      refine h.map (unsubscribe_map h.lengths hr) (fun c a hrep => hrep.unsubscribe fd topic) ?_ rfl
      intro c
      unfold unsubscribed
      split <;> rfl
    | invalid =>
      simp only [hrequest, Except.ok.injEq] at hr
      subst hr
      exact ⟨h.accounts, h.sealed⟩

/-- A step sends what the broker delivers unless the stack word points elsewhere. -/
theorem step_sends_iff (hstep : Step cfg s i t sends) (h : Mirrors s b) (hfits : Fits s i) :
    sends = delivers b (actionOf s i) ↔ Worded s i b := by
  have hquiet : ∀ x : Action Bytes ℤ Bytes Frame,
      (∀ a : Account Bytes ℤ Bytes Frame, a.receives x = []) →
      delivers b (some x) = [] := by
    intro x hx
    have hnone : b.deliveries x = [] := by
      rw [Broker.deliveries, List.flatMap_eq_nil_iff]
      exact fun a _ => hx a
    simp only [delivers, Option.elim_some, hnone, List.map_nil]
  have hvacuous : ∀ {x}, actionOf s i = x → waiting b x = [] → Worded s i b := by
    intro x hx hnone
    rw [Worded, hx, hnone]
    rfl
  cases hstep with
  | publish curr bytes addr locals p hvisit hp =>
    refine iff_of_true ?_ (hvacuous (x := some (.publish _ _)) (by simp only [actionOf]; rfl) rfl)
    rw [(receiveUdpMessage_spec hp).sends_eq]
    change _ = (b.accounts.flatMap _).map sendOf
    rw [List.map_flatMap]
    exact forall₂_flatMap h.accounts fun c a hrep => hrep.routed_eq _ _
  | disconnect curr fd locals hvisit hfd hpeer =>
    rw [actionOf_read locals hvisit]
    exact iff_of_true (hquiet _ fun a => rfl).symm (hvacuous (actionOf_read locals hvisit) rfl)
  | identify curr fd bytes locals r hvisit hfd hpeer hne hlen hflag hr =>
    have hpresents : presents s (.read bytes locals) =
        some (cstr (s.sendBuffer.receive bytes).bytes, locals.following) := by
      simp only [presents, hvisit.pc_eq, hne, hflag, ne_eq, not_false_eq_true, and_self, if_true]
    have hle : (cstr (s.sendBuffer.receive bytes).bytes).length ≤ idLen := by
      have hor := hfits _ hpresents
      simp only at hor
      omega
    have hiff := handshake_sends_iff h (fun c hc => carries_iff_presented (h.sealed c hc) hle)
      (handleIdClient_cases _ _ _ _ hr)
    rw [Worded, actionOf_read locals hvisit, dispatch_nonempty hne, if_pos hflag]
    simp only [delivers, Option.elim_some, Broker.deliveries_connect, List.map_map]
    exact hiff
  | request curr fd bytes locals clients hvisit hfd hpeer hne hlen hflag hr =>
    have hx : actionOf s (.read bytes locals) =
        requested fd (requestOf (s.sendBuffer.receive bytes) locals.topic) := by
      rw [actionOf_read locals hvisit, dispatch_nonempty hne, hflag]
      simp only [Bool.false_eq_true, if_false]
    rw [hx]
    cases hrequest : requestOf (s.sendBuffer.receive bytes) locals.topic with
    | subscribe topic sf =>
      rw [hrequest] at hx
      exact iff_of_true (hquiet _ fun a => rfl).symm (hvacuous hx rfl)
    | unsubscribe topic =>
      rw [hrequest] at hx
      exact iff_of_true (hquiet _ fun a => rfl).symm (hvacuous hx rfl)
    | invalid =>
      rw [hrequest] at hx
      exact iff_of_true rfl (hvacuous hx rfl)
  | _ =>
    refine iff_of_true ?_ (hvacuous (x := none) (by simp only [actionOf]) rfl)
    simp only [actionOf]
    rfl

theorem actions_append (tr : List (Server × Input)) (s : Server) (i : Input) :
    actions (tr ++ [(s, i)]) = actions tr ++ (actionOf s i).toList := by
  rw [actions, actions, List.filterMap_append]
  cases hx : actionOf s i <;> simp [hx]

theorem after_actions (tr : List (Server × Input)) (s : Server) (i : Input) :
    after (actions (tr ++ [(s, i)])) = follows (after (actions tr)) (actionOf s i) := by
  rw [actions_append]
  cases actionOf s i with
  | none => rw [Option.toList_none, List.append_nil, follows, Option.elim_none]
  | some x => rw [Option.toList_some, after_concat, follows, Option.elim_some]

/-- The registry mirrors the broker after the actions of the run. -/
theorem run_mirrors {tr : List (Server × Input)} (h : Run cfg tr s)
    (hfits : ∀ e ∈ tr, Fits e.1 e.2) : Mirrors s (after (actions tr)) := by
  refine run_invariant (fun tr s => (∀ e ∈ tr, Fits e.1 e.2) → Mirrors s (after (actions tr)))
    ?_ ?_ h hfits
  · intro _
    exact ⟨List.Forall₂.nil, fun c hc => absurd hc List.not_mem_nil⟩
  · intro tr s i t sends _ ih hstep _ hfits
    rw [after_actions]
    exact step_mirrors hstep (ih fun e he => hfits e (List.mem_append_left _ he))
      (hfits (s, i) (List.mem_append_right _ (List.mem_singleton_self _)))

/-- In a run whose IDs fit, the registry is that of the ideal broker after the same actions,
and a step sends what the broker delivers exactly when the stack word points, read by read,
at the messages that wait for the client that returns in it, if one does. -/
theorem server_refines_broker {tr : List (Server × Input)} (h : Run cfg tr s)
    (hfits : ∀ e ∈ tr, Fits e.1 e.2) :
    Mirrors s (after (actions tr)) ∧
    ∀ pre s₁ i post, tr = pre ++ (s₁, i) :: post →
      (sent cfg s₁ i = delivers (after (actions pre)) (actionOf s₁ i) ↔
        Worded s₁ i (after (actions pre))) := by
  refine ⟨run_mirrors h hfits, ?_⟩
  rintro pre s₁ i post rfl
  obtain ⟨s₂, hbefore, hnext, _⟩ := Path.split h
  obtain ⟨sends, hstep, hsent⟩ := next_cases hnext
  rw [hsent]
  exact step_sends_iff hstep
    (run_mirrors hbefore fun e he => hfits e (List.mem_append_left _ he))
    (hfits (s₁, i) (List.mem_append_right _ (List.mem_cons_self ..)))

end Simulation

/-- A client misses two messages and comes back. -/
theorem server_refines_broker_return :
    ∃ tr s, Run usual tr s ∧ (actions tr).length = 6 ∧ (after (actions tr)).accounts.length = 1 ∧
      Mirrors s (after (actions tr)) := by
  obtain ⟨tr, s, hrun, hs⟩ := run_of_inputs usual (fun tr _ => decide
    ((actions tr).length = 6 ∧ (after (actions tr)).accounts.length = 1 ∧
      ∀ e ∈ tr, Fits e.1 e.2))
    (StoreForward.awayInputs [120, 121] ++ [readInput (idMessage 97)]) (by decide +kernel)
  obtain ⟨hlength, hone, hfits⟩ := of_decide_eq_true hs
  exact ⟨tr, s, hrun, hlength, hone, (server_refines_broker hrun hfits).1⟩

end TopicBroker.Refinement
