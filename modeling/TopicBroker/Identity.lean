import Mathlib.Data.List.Perm.Basic
import TopicBroker.Client
import TopicBroker.Identify
import TopicBroker.Runs

/-!
Identities. A record keeps the ten bytes of its ID without a terminator, so an ID
that fills them is compared together with the memory behind it. Where that memory
starts with a NUL the registry behaves as a table keyed by IDs.
-/
namespace TopicBroker.Identity

open ByteBlocks Message Registry Identify Runs

/-- An ID as a subscriber presents it. -/
structure IdText where
  text : Bytes
  nonempty : text ≠ []
  fits : text.length ≤ idLen
  noNul : ∀ b ∈ text, b ≠ 0

/-- The eleven bytes of the ID message. -/
def IdText.message (id : IdText) : Bytes :=
  id.text ++ List.replicate (idLen - id.text.length) 0 ++ [0]

theorem IdText.message_length (id : IdText) : id.message.length = idLen + 1 := by
  have h := id.fits
  simp only [message, List.length_append, List.length_replicate, List.length_singleton]
  omega

/-- The text of an ID message is always followed by a NUL. -/
theorem IdText.message_terminated (id : IdText) (rest : Bytes) :
    ∃ rest', id.message ++ rest = id.text ++ 0 :: rest' := by
  refine ⟨List.replicate (idLen - id.text.length) 0 ++ rest, ?_⟩
  rw [message, List.append_assoc id.text, ← List.replicate_succ', List.replicate_succ]
  simp only [List.append_assoc, List.cons_append]

/-- The subscriber sends these bytes for every argument that is not empty. -/
theorem sendId_message (sendBuffer : Frame) (argument : Bytes) (id : IdText)
    (h : id.text = (cstr argument).take idLen) :
    (Client.sendId sendBuffer argument).bytes = id.message := by
  have hpad : idLen - (cstr argument).length = idLen - id.text.length := by
    rw [h, List.length_take]
    omega
  have hcopy : (Client.copyId argument).bytes =
      id.text ++ List.replicate (idLen - id.text.length) 0 := by
    change (cstr argument).take idLen ++ List.replicate (idLen - (cstr argument).length) 0 = _
    rw [hpad, ← h]
  have hsize := (Client.copyId argument).size
  dsimp only [Client.sendId]
  rw [Block.slice_bytes, Block.write_at [0] _ _ _ (Block.write_zero _ hsize) hsize rfl, hcopy,
    List.drop_zero]
  exact List.take_left' id.message_length

/-- The ID in the array of a record. -/
def idOf (c : Client) : Bytes := cstr c.ID.bytes

/-- The comparison of the record's ID stays inside its array. -/
def Sealed (c : Client) : Prop := cstr (c.ID.bytes ++ c.following) = cstr c.ID.bytes

section Presented

variable (sendBuffer : Block bufferServerLen) (id : IdText)

theorem cstr_received : cstr (sendBuffer.receive id.message).bytes = id.text := by
  rw [Block.receive_bytes_of_le _ _ (by rw [id.message_length]; decide)]
  obtain ⟨rest, hrest⟩ := id.message_terminated (sendBuffer.bytes.drop id.message.length)
  rw [hrest, cstr_append_zero id.noNul]

theorem idOf_newClient (sock : ℤ) (following : Bytes) :
    idOf (newClient sock (sendBuffer.receive id.message) following) = id.text := by
  change cstr ((sendBuffer.receive id.message).bytes.take idLen) = id.text
  rw [cstr_take, cstr_received, List.take_of_length_le id.fits]

variable {sendBuffer id}

theorem carries_iff {c : Client} (hc : Sealed c) :
    Carries (sendBuffer.receive id.message) c ↔ idOf c = id.text := by
  unfold Carries
  rw [hc, cstr_received, idOf]

end Presented

theorem idOf_length_lt_iff (c : Client) : (idOf c).length < idLen ↔ 0 ∈ c.ID.bytes := by
  have hiff := cstr_length_lt_iff c.ID.bytes
  rwa [c.ID.size] at hiff

/-- An ID shorter than its array, or a NUL behind the array. -/
theorem sealed_iff (c : Client) :
    Sealed c ↔ (idOf c).length < idLen ∨ cstr c.following = [] := by
  have hiff := cstr_append_eq_iff (Eq.refl c.ID.bytes.length) c.following []
  rw [List.append_nil, cstr_nil, and_iff_right rfl] at hiff
  rw [Sealed, hiff, idOf_length_lt_iff]
  exact or_iff_not_imp_left.symm

/-- The calls that change who is registered and who is online. -/
inductive Call
  | handshake (fd : ℕ) (id : IdText) (sendBuffer : Block bufferServerLen) (word : DeadWord)
      (following : Bytes)
  | disconnect (fd : ℕ)

/-- The registry after a call. -/
def callNext (clients : List Client) : Call → Option (List Client)
  | .handshake fd id sendBuffer word following =>
    match handleIdClient fd (sendBuffer.receive id.message) following word clients with
    | .ok r => some r.clients
    | .error _ => none
  | .disconnect fd => some (disconnectClient fd clients).1

def Calls (tr : List (List Client × Call)) (clients : List Client) : Prop :=
  Path (fun a i b => callNext a i = some b) [] tr clients

/-- The ID of the call ends inside the array, or there is a NUL behind the array of a
record made for it. -/
def Bounded : Call → Prop
  | .handshake _ id _ _ following => id.text.length < idLen ∨ cstr following = []
  | .disconnect _ => True

instance (call : Call) : Decidable (Bounded call) :=
  match call with
  | .handshake _ _ _ _ _ => inferInstanceAs (Decidable (_ ∨ _))
  | .disconnect _ => inferInstanceAs (Decidable True)

/-- The outcome of an ID message in a table keyed by IDs. -/
structure Decided (fd : ℕ) (id : IdText) (word : DeadWord) (clients : List Client) (r : Handled) :
    Prop where
  online : ∀ c ∈ clients, idOf c = id.text → c.sock ≠ -1 →
    r = ⟨clients, true, [], word.stack⟩
  offline : ∀ c ∈ clients, idOf c = id.text → c.sock = -1 →
    ∃ pre post, clients = pre ++ c :: post ∧ r.clients = pre ++ resumed fd c :: post ∧
      r.closes = false
  unknown : (∀ c ∈ clients, idOf c ≠ id.text) →
    ∃ d, idOf d = id.text ∧ d.sock = fd ∧ r = ⟨clients ++ [d], false, [], word.stack⟩

/-- The registry is a table keyed by IDs. -/
structure Keyed (clients : List Client) : Prop where
  nodup : (clients.map idOf).Nodup
  sealed : ∀ c ∈ clients, Sealed c

section Keyed

variable {fd : ℕ} {id : IdText} {sendBuffer : Block bufferServerLen} {word : DeadWord}
  {following : Bytes} {clients : List Client} {r : Handled}

theorem Keyed.unique (h : Keyed clients) {c d : Client} (hc : c ∈ clients) (hd : d ∈ clients)
    (hid : idOf c = idOf d) : c = d :=
  List.inj_on_of_nodup_map h.nodup hc hd hid

/-- On a keyed registry the code decides by the ID alone. -/
theorem handshake_decided (h : Keyed clients)
    (hr : handleIdClient fd (sendBuffer.receive id.message) following word clients = .ok r) :
    Decided fd id word clients r := by
  have hcases := handleIdClient_cases _ _ _ _ hr
  cases hcases with
  | refused pre c post hpre hc honline =>
    have hmem : c ∈ pre ++ c :: post := List.mem_append_right pre (List.mem_cons_self ..)
    have hid := (carries_iff (h.sealed c hmem)).mp hc
    exact {
      online := fun d hd hdid _ => rfl
      offline := fun d hd hdid hoff => by
        rw [h.unique hd hmem (hdid.trans hid.symm)] at hoff
        exact absurd hoff honline
      unknown := fun hnone => absurd hid (hnone c hmem)
    }
  | resumed pre c post hpre hc hoffline =>
    have hmem : c ∈ pre ++ c :: post := List.mem_append_right pre (List.mem_cons_self ..)
    have hid := (carries_iff (h.sealed c hmem)).mp hc
    exact {
      online := fun d hd hdid hon => by
        rw [h.unique hd hmem (hdid.trans hid.symm)] at hon
        exact absurd hoffline hon
      offline := fun d hd hdid hoff => by
        rw [h.unique hd hmem (hdid.trans hid.symm)]
        exact ⟨pre, post, rfl, rfl, rfl⟩
      unknown := fun hnone => absurd hid (hnone c hmem)
    }
  | appended _ hnone =>
    have hother : ∀ d ∈ clients, idOf d ≠ id.text := fun d hd hid =>
      hnone d hd ((carries_iff (h.sealed d hd)).mpr hid)
    exact {
      online := fun d hd hdid _ => absurd hdid (hother d hd)
      offline := fun d hd hdid _ => absurd hdid (hother d hd)
      unknown := fun _ => ⟨_, idOf_newClient sendBuffer id fd following, rfl, rfl⟩
    }

/-- The ID of a record with the memory behind it. -/
def identity (c : Client) : Block idLen × Bytes := (c.ID, c.following)

/-- Only identities matter to a keyed registry. -/
theorem Keyed.of_identities {clients' : List Client} (h : Keyed clients)
    (hsame : clients'.map identity = clients.map identity) : Keyed clients' := by
  constructor
  · have hids : ∀ xs : List Client, xs.map idOf = (xs.map identity).map fun p => cstr p.1.bytes := by
      intro xs
      rw [List.map_map]
      rfl
    rw [hids, hsame, ← hids]
    exact h.nodup
  · intro c hc
    have hmem : identity c ∈ clients.map identity := by
      rw [← hsame]
      exact List.mem_map_of_mem hc
    obtain ⟨d, hd, hdc⟩ := List.mem_map.mp hmem
    obtain ⟨hID, hfollowing⟩ := Prod.mk.inj hdc
    have hsealed := h.sealed d hd
    unfold Sealed at hsealed ⊢
    rwa [hID, hfollowing] at hsealed

theorem handshake_keyed (h : Keyed clients) (hb : Bounded (.handshake fd id sendBuffer word following))
    (hr : handleIdClient fd (sendBuffer.receive id.message) following word clients = .ok r) :
    Keyed r.clients := by
  have hcases := handleIdClient_cases _ _ _ _ hr
  cases hcases with
  | refused pre c post hpre hc honline => exact h
  | resumed pre c post hpre hc hoffline =>
    apply h.of_identities
    simp only [List.map_append, List.map_cons]
    rfl
  | appended _ hnone =>
    have hid := idOf_newClient sendBuffer id fd following
    constructor
    · rw [List.map_append, List.map_singleton, hid]
      refine List.nodup_append.mpr ⟨h.nodup, List.nodup_singleton _, ?_⟩
      intro a ha b hb' hab
      obtain ⟨d, hd, rfl⟩ := List.mem_map.mp ha
      rw [List.mem_singleton.mp hb'] at hab
      exact hnone d hd ((carries_iff (h.sealed d hd)).mpr hab)
    · intro d hd
      rcases List.mem_append.mp hd with hd | hd
      · exact h.sealed d hd
      · rw [List.mem_singleton.mp hd, sealed_iff, hid]
        exact hb

theorem disconnect_keyed (h : Keyed clients) (fd : ℕ) : Keyed (disconnectClient fd clients).1 := by
  apply h.of_identities
  rw [disconnectClient_eq, List.map_map]
  apply List.map_congr_left
  intro c _
  unfold identity released
  simp only [Function.comp_apply]
  split <;> rfl

end Keyed

/-- Every call of the run keeps the comparison inside the ID arrays. -/
theorem calls_keyed {tr : List (List Client × Call)} {clients : List Client} (h : Calls tr clients)
    (hbounded : ∀ e ∈ tr, Bounded e.2) : Keyed clients := by
  induction h with
  | refl => exact ⟨List.nodup_nil, fun c hc => absurd hc List.not_mem_nil⟩
  | @tail clients clients' tr call _ hnext ih =>
    have hkeyed := ih fun e he => hbounded e (List.mem_append_left _ he)
    have hcall := hbounded (clients, call) (List.mem_append_right _ (List.mem_singleton_self _))
    cases call with
    | handshake fd id sendBuffer word following =>
      simp only [callNext] at hnext
      cases hr : handleIdClient fd (sendBuffer.receive id.message) following word clients with
      | error e => simp [hr] at hnext
      | ok r =>
        simp only [hr, Option.some.injEq] at hnext
        subst hnext
        exact handshake_keyed hkeyed hcall hr
    | disconnect fd =>
      simp only [callNext, Option.some.injEq] at hnext
      subst hnext
      exact disconnect_keyed hkeyed fd

/-- The next ID message is decided by its ID, whoever sends it. -/
def DecidedNext (clients : List Client) : Prop :=
  ∀ (fd : ℕ) (id : IdText) (sendBuffer : Block bufferServerLen) (word : DeadWord)
    (following : Bytes), ∃ r,
    handleIdClient fd (sendBuffer.receive id.message) following word clients = .ok r ∧
    Decided fd id word clients r

theorem Keyed.decidedNext {clients : List Client} (h : Keyed clients) : DecidedNext clients := by
  intro fd id sendBuffer word following
  obtain ⟨r, hr, _⟩ := handleIdClient_spec fd (sendBuffer.receive id.message) following word clients
  exact ⟨r, hr, handshake_decided h hr⟩

/-- A record whose ID runs over its array is not found by its own ID. -/
theorem sealed_of_decidedNext {clients : List Client} (hnodup : (clients.map idOf).Nodup)
    (hdecided : DecidedNext clients) {c : Client} (hc : c ∈ clients) : Sealed c := by
  by_contra hopen
  have hlong := not_lt.mp (not_or.mp (mt (sealed_iff c).mpr hopen)).1
  have hfits : (idOf c).length ≤ idLen := (cstr_length_le c.ID.bytes).trans_eq c.ID.size
  let id : IdText := {
    text := idOf c
    nonempty := fun hnil => by
      rw [hnil] at hlong
      exact absurd hlong (by decide)
    fits := hfits
    noNul := fun b hb => ne_zero_of_mem_cstr hb
  }
  have hnone : ∀ d ∈ clients, ¬ Carries ((Block.fill bufferServerLen 0).receive id.message) d := by
    intro d hd hcarries
    unfold Carries at hcarries
    rw [cstr_received] at hcarries
    have hid : idOf d = idOf c := by
      have htake := congrArg (List.take idLen) hcarries
      rw [← cstr_take, List.take_left' d.ID.size] at htake
      rw [idOf, htake]
      exact List.take_of_length_le hfits
    obtain rfl := List.inj_on_of_nodup_map hnodup hd hc hid
    exact hopen hcarries
  obtain ⟨r, hr, hdec⟩ := hdecided 0 id (Block.fill bufferServerLen 0) ⟨⟨none⟩, []⟩ []
  have hcases := handleIdClient_cases _ _ _ _ hr
  cases hcases with
  | refused pre d post _ hcarries _ =>
    exact hnone d (List.mem_append_right pre (List.mem_cons_self ..)) hcarries
  | resumed pre d post _ hcarries _ =>
    exact hnone d (List.mem_append_right pre (List.mem_cons_self ..)) hcarries
  | appended _ _ =>
    by_cases hsock : c.sock = -1
    · obtain ⟨pre, post, hsplit, hresult, _⟩ := hdec.offline c hc rfl hsock
      have hlength := congrArg List.length hresult
      simp [hsplit] at hlength
    · have hresult := hdec.online c hc rfl hsock
      cases congrArg Handled.closes hresult

/-- In a run in which every ID is shorter than its array or followed by a NUL there,
no two records carry the same ID and the next ID message is decided by its ID. In any
other registry of distinct IDs some ID message is not. -/
theorem identities_unique {tr : List (List Client × Call)} {clients : List Client}
    (h : Calls tr clients) :
    ((∀ e ∈ tr, Bounded e.2) → (clients.map idOf).Nodup ∧ DecidedNext clients) ∧
    ((clients.map idOf).Nodup →
      (DecidedNext clients ↔
        ∀ c ∈ clients, (idOf c).length < idLen ∨ cstr c.following = [])) := by
  constructor
  · intro hbounded
    have hkeyed := calls_keyed h hbounded
    exact ⟨hkeyed.nodup, hkeyed.decidedNext⟩
  · intro hnodup
    constructor
    · intro hdecided c hc
      exact (sealed_iff c).mp (sealed_of_decidedNext hnodup hdecided hc)
    · intro hall
      exact Keyed.decidedNext ⟨hnodup, fun c hc => (sealed_iff c).mpr (hall c hc)⟩

/-- An ID of ten letters. -/
def longId : IdText where
  text := List.replicate idLen 97
  nonempty := by decide
  fits := by decide
  noNul := fun b hb => by
    rw [List.eq_of_mem_replicate hb]
    decide

/-- A client with a long ID connects, leaves and comes back. -/
def longCalls (behind : UInt8) : List Call :=
  [.handshake 5 longId (Block.fill _ 0) ⟨⟨none⟩, []⟩ [behind], .disconnect 5,
    .handshake 6 longId (Block.fill _ 0) ⟨⟨none⟩, []⟩ [behind]]

theorem identities_unique_long :
    ∃ tr clients, Calls tr clients ∧ (clients.map fun c => c.sock) = [6] ∧
      (clients.map idOf).Nodup ∧ DecidedNext clients := by
  obtain ⟨tr, clients, hcalls, hP⟩ := exists_path callNext
    (fun tr clients => decide ((clients.map fun c => c.sock) = [6] ∧ ∀ e ∈ tr, Bounded e.2))
    (show ((exec callNext [] (longCalls 0)).any _) = true by decide +kernel)
  obtain ⟨hsocks, hbounded⟩ := of_decide_eq_true hP
  exact ⟨tr, clients, hcalls, hsocks, (identities_unique hcalls).1 hbounded⟩

/-- With another byte behind the array the returning client is taken for a new one. -/
theorem long_id_twice :
    ∃ tr clients, Calls tr clients ∧ (clients.map fun c => c.sock) = [-1, 6] ∧
      ¬ (clients.map idOf).Nodup := by
  obtain ⟨tr, clients, hcalls, hP⟩ := exists_path callNext
    (fun tr clients => decide ((clients.map fun c => c.sock) = [-1, 6] ∧
      ¬ (clients.map idOf).Nodup))
    (show ((exec callNext [] (longCalls 1)).any _) = true by decide +kernel)
  obtain ⟨hsocks, htwice⟩ := of_decide_eq_true hP
  exact ⟨tr, clients, hcalls, hsocks, htwice⟩

end TopicBroker.Identity
