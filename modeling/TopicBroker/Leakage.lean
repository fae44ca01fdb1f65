import TopicBroker.Descriptors
import TopicBroker.Identity

/-!
What the memory that earlier calls left has to do with the registry after a read. The
buffer is shared by all descriptors and cleared once for each `select`, the request
handler has a local array that one branch reads and another fills, and nothing writes
behind the ID of a record. Each handler is compared with itself on the same registry
and message and on different memories.
-/
namespace TopicBroker.Leakage

open ByteBlocks ByteOrder Message Registry Requests Identify Identity MainLoop Runs Descriptors

/-- What a handler finds besides the registry, the descriptor and the message. -/
structure Memory where
  buffer : Block bufferServerLen
  locals : ReadLocals
  stack : Stack

def Memory.word (mem : Memory) : DeadWord := ⟨mem.stack, mem.locals.calls⟩

/-- A record without the memory behind its ID. -/
def bare (c : Client) : Client := { c with following := [] }

/-- The same records. -/
def Agree (clients clients' : List Client) : Prop := clients.map bare = clients'.map bare

/-- The registry after the message was handled as an ID. -/
def idRegistry (fd : ℕ) (message : Bytes) (mem : Memory) (clients : List Client) :
    Except Stop (List Client) :=
  (handleIdClient fd (mem.buffer.receive message) mem.locals.following mem.word clients).map
    Handled.clients

/-- The registry after the message was handled as a request. -/
def requestRegistry (fd : ℕ) (message : Bytes) (mem : Memory) (clients : List Client) :
    Except Stop (List Client) :=
  handleRequest fd (mem.buffer.receive message) mem.locals.topic clients

/-- Any two memories lead to the same records. -/
def Determined (registryOf : Memory → List Client → Except Stop (List Client))
    (clients : List Client) : Prop :=
  ∀ mem mem' clients₁ clients₂, Agree clients₁ clients → Agree clients₂ clients →
    (registryOf mem clients₁).map (List.map bare) = (registryOf mem' clients₂).map (List.map bare)

/-- The bytes of a subscribe request that the handler reads. -/
abbrev requestLen : ℕ := topicLen + commandSendLen + 1 + 4

/-- The message ends its ID, and either fills the ID field or names a record; or it
fills the field without ending it and no record has these bytes. -/
def IdCovered (message : Bytes) (clients : List Client) : Prop :=
  (0 ∈ message.take idLen ∧
    (idLen ≤ message.length ∨ ∃ c ∈ clients, idOf c = cstr message)) ∨
  (idLen ≤ message.length ∧ ∀ c ∈ clients, c.ID.bytes ≠ message.take idLen)

/-- A subscribe request for a record of the socket is whole, and an unsubscribe request
meets no subscription. -/
def RequestCovered (fd : ℕ) (message : Bytes) (clients : List Client) : Prop :=
  (message.head? = some 115 → requestLen ≤ message.length ∨ ∀ c ∈ clients, c.sock ≠ fd) ∧
  (message.head? = some 117 → ∀ c ∈ clients, c.sock = fd → c.topics = [])

theorem Agree.symm {clients clients' : List Client} (h : Agree clients clients') :
    Agree clients' clients := Eq.symm h

/-- The memory behind the IDs can be anything. -/
theorem agree_map (following : Bytes) (clients : List Client) :
    Agree (clients.map fun c => { c with following := following }) clients := by
  rw [Agree, List.map_map]
  rfl

/-- Every record has one that differs at most in what lies behind its ID. -/
theorem Agree.exists_mem {clients clients' : List Client} (h : Agree clients clients')
    {c : Client} (hc : c ∈ clients) :
    ∃ d ∈ clients', d.sock = c.sock ∧ d.ID = c.ID ∧ d.topics = c.topics := by
  have hmem : bare c ∈ clients'.map bare := by
    rw [← h]
    exact List.mem_map_of_mem hc
  obtain ⟨d, hd, hsame⟩ := List.mem_map.mp hmem
  obtain ⟨hsock, hID, _, htopics, _⟩ := Client.mk.inj hsame
  exact ⟨d, hd, hsock, hID, htopics⟩

/-- A handler whose result is the same records for every memory. -/
theorem Determined.of_eq {registryOf : Memory → List Client → Except Stop (List Client)}
    {clients result : List Client}
    (h : ∀ mem clients', Agree clients' clients →
      (registryOf mem clients').map (List.map bare) = .ok result) :
    Determined registryOf clients := by
  intro mem mem' clients₁ clients₂ h₁ h₂
  rw [h mem clients₁ h₁, h mem' clients₂ h₂]

section Greeting

/-- The registry after an ID message as a function of which records the message names:
the first of them is resumed if it is offline, and a new one is appended if there is none. -/
def greeted (sock : ℤ) (named : Client → Prop) [DecidablePred named] (new : Client) :
    List Client → List Client
  | [] => [new]
  | c :: rest =>
    if named c then (if c.sock = -1 then resumed sock c else c) :: rest
    else c :: greeted sock named new rest

variable {sock : ℤ} {named : Client → Prop} [DecidablePred named] {new : Client}

theorem greeted_append {pre : List Client} (hpre : ∀ c ∈ pre, ¬ named c) (rest : List Client) :
    greeted sock named new (pre ++ rest) = pre ++ greeted sock named new rest := by
  induction pre with
  | nil => rfl
  | cons c pre ih =>
    rw [List.cons_append, greeted, if_neg (hpre c (List.mem_cons_self ..)),
      ih fun d hd => hpre d (List.mem_cons_of_mem c hd), List.cons_append]

theorem greeted_of_none {clients : List Client} (h : ∀ c ∈ clients, ¬ named c) :
    greeted sock named new clients = clients ++ [new] := by
  have happend : greeted sock named new (clients ++ []) = clients ++ greeted sock named new [] :=
    greeted_append h []
  rwa [List.append_nil] at happend

theorem greeted_length {clients : List Client} (h : ∃ c ∈ clients, named c) :
    (greeted sock named new clients).length = clients.length := by
  induction clients with
  | nil =>
    obtain ⟨c, hc, _⟩ := h
    cases hc
  | cons c rest ih =>
    by_cases hc : named c
    · rw [greeted, if_pos hc, List.length_cons, List.length_cons]
    · have hrest : ∃ d ∈ rest, named d := by
        obtain ⟨d, hd, hnamed⟩ := h
        rcases List.mem_cons.mp hd with rfl | hd
        · exact absurd hnamed hc
        · exact ⟨d, hd, hnamed⟩
      rw [greeted, if_neg hc, List.length_cons, List.length_cons, ih hrest]

/-- The new record matters only if nobody is named. -/
theorem greeted_bare {named' : Client → Prop} [DecidablePred named'] {new' : Client}
    {clients : List Client} (hnamed : ∀ c ∈ clients, (named c ↔ named' (bare c)))
    (hnew : (∀ c ∈ clients, ¬ named c) → bare new = new') :
    (greeted sock named new clients).map bare =
      greeted sock named' new' (clients.map bare) := by
  induction clients with
  | nil =>
    rw [greeted, List.map_singleton, hnew fun c hc => absurd hc List.not_mem_nil]
    rfl
  | cons c rest ih =>
    have hc := hnamed c (List.mem_cons_self ..)
    rw [List.map_cons, greeted, greeted]
    by_cases hnamed' : named c
    · have hhead : bare (if c.sock = -1 then resumed sock c else c) =
          if (bare c).sock = -1 then resumed sock (bare c) else bare c :=
        apply_ite bare (c.sock = -1) (resumed sock c) c
      rw [if_pos hnamed', if_pos (hc.mp hnamed'), List.map_cons, hhead]
    · rw [if_neg hnamed', if_neg fun h => hnamed' (hc.mpr h), List.map_cons,
        ih (fun d hd => hnamed d (List.mem_cons_of_mem c hd)) ?_]
      intro hrest
      refine hnew fun d hd => ?_
      rcases List.mem_cons.mp hd with rfl | hd
      · exact hnamed'
      · exact hrest d hd

end Greeting

section Handshake

variable {fd : ℕ} {message : Bytes} {clients : List Client}

theorem idRegistry_eq (fd : ℕ) (message : Bytes) (mem : Memory) (clients : List Client) :
    idRegistry fd message mem clients =
      .ok (greeted fd (Carries (mem.buffer.receive message))
        (newClient fd (mem.buffer.receive message) mem.locals.following) clients) := by
  obtain ⟨r, hr, hspec⟩ := handleIdClient_spec fd (mem.buffer.receive message)
    mem.locals.following mem.word clients
  rw [idRegistry, hr]
  change Except.ok r.clients = _
  congr 1
  cases hspec with
  | refused pre c post hpre hc honline =>
    rw [greeted_append hpre, greeted, if_pos hc, if_neg honline]
  | resumed pre c post hpre hc hoffline =>
    rw [greeted_append hpre, greeted, if_pos hc, if_pos hoffline]
  | appended _ hnone => exact (greeted_of_none hnone).symm

/-- The memory behind an ID is looked at only if the ID fills its array. -/
theorem carries_front_iff (data : Block bufferServerLen) (c : Client) :
    Carries data c ↔ idOf c = cstr (data.bytes.take idLen) ∧
      (0 ∉ c.ID.bytes → cstr c.following = cstr (data.bytes.drop idLen)) := by
  have hfront : c.ID.bytes.length = (data.bytes.take idLen).length := by
    rw [c.ID.size, List.length_take, data.size]
    rfl
  have hiff := cstr_append_eq_iff hfront c.following (data.bytes.drop idLen)
  rwa [List.take_append_drop] at hiff

/-- A record that the message names ends its ID where the message does, or neither does. -/
theorem front_ends_iff {data : Block bufferServerLen} {c : Client} (h : Carries data c) :
    0 ∈ c.ID.bytes ↔ 0 ∈ data.bytes.take idLen := by
  rw [← idOf_length_lt_iff, ← cstr_length_lt_iff, ((carries_front_iff data c).mp h).1,
    List.length_take_of_le (by rw [data.size]; decide)]

/-- An ID that ends in the message is the same for every buffer. -/
theorem cstr_front (hend : 0 ∈ message.take idLen) (rest : Bytes) :
    cstr ((message ++ rest).take idLen) = cstr message ∧ (cstr message).length < idLen := by
  have hlt := (cstr_length_lt_iff (message.take idLen)).mpr hend
  have htake : (message.take idLen).length ≤ idLen := List.length_take_le _ _
  have hcut : ∀ tail, cstr (message.take idLen ++ tail) = cstr (message.take idLen) :=
    fun tail => cstr_append_of_lt tail hlt
  have hmessage : cstr message = cstr (message.take idLen) := by
    rw [← hcut (message.drop idLen), List.take_append_drop]
  have hwhole : cstr (message ++ rest) = cstr message := by
    rw [hmessage, ← hcut (message.drop idLen ++ rest), ← List.append_assoc,
      List.take_append_drop]
  rw [cstr_take, hwhole, hmessage]
  exact ⟨List.take_of_length_le (by omega), by omega⟩

theorem carries_short (hlen : message.length ≤ bufferServerLen) (hend : 0 ∈ message.take idLen)
    (buffer : Block bufferServerLen) (c : Client) :
    Carries (buffer.receive message) c ↔ idOf c = cstr message := by
  obtain ⟨hfront, hshort⟩ := cstr_front hend (buffer.bytes.drop message.length)
  rw [carries_front_iff, Block.receive_bytes_of_le buffer message hlen, hfront]
  refine and_iff_left_of_imp fun hid hfull => ?_
  rw [← hid, idOf_length_lt_iff] at hshort
  exact absurd hshort hfull

/-- The ID bytes of a new record when the message fills the field. -/
theorem newClient_bare (hlen : message.length ≤ bufferServerLen) (hfill : idLen ≤ message.length)
    (buffer buffer' : Block bufferServerLen) (following following' : Bytes) :
    bare (newClient fd (buffer.receive message) following) =
      bare (newClient fd (buffer'.receive message) following') := by
  have hID : (buffer.receive message).slice 0 idLen (by decide) =
      (buffer'.receive message).slice 0 idLen (by decide) := by
    apply Block.ext
    rw [Block.slice_bytes, Block.slice_bytes, List.drop_zero, List.drop_zero,
      Block.receive_bytes_of_le buffer message hlen, Block.receive_bytes_of_le buffer' message hlen,
      List.take_append_of_le_length hfill, List.take_append_of_le_length hfill]
  simp only [bare, newClient, hID]

theorem not_carries_long (hlen : message.length ≤ bufferServerLen) (hfill : idLen ≤ message.length)
    (hopen : 0 ∉ message.take idLen) (buffer : Block bufferServerLen) {c : Client}
    (hc : c.ID.bytes ≠ message.take idLen) : ¬ Carries (buffer.receive message) c := by
  rw [carries_front_iff, Block.receive_bytes_of_le buffer message hlen,
    List.take_append_of_le_length hfill]
  rintro ⟨hid, _⟩
  have hne : ∀ b ∈ message.take idLen, b ≠ 0 := fun b hb hzero => hopen (hzero ▸ hb)
  rw [cstr_of_ne_zero hne, idOf] at hid
  have hsame : cstr c.ID.bytes = c.ID.bytes :=
    cstr_eq_self (by rw [hid, c.ID.size, List.length_take_of_le hfill])
  exact hc (hsame.symm.trans hid)

/-- A covered ID message has the same outcome in every memory. -/
theorem idRegistry_covered (hlen : message.length ≤ bufferServerLen)
    (h : IdCovered message clients) :
    ∃ result, ∀ mem clients', Agree clients' clients →
      (idRegistry fd message mem clients').map (List.map bare) = .ok result := by
  have hbare : ∀ {clients'}, Agree clients' clients → clients'.map bare = clients.map bare := id
  by_cases hend : 0 ∈ message.take idLen
  · have hcase : idLen ≤ message.length ∨ ∃ c ∈ clients, idOf c = cstr message := by
      rcases h with ⟨_, hcase⟩ | ⟨hfill, _⟩
      · exact hcase
      · exact Or.inl hfill
    refine ⟨greeted fd (fun c => idOf c = cstr message)
      (bare (newClient fd ((Block.fill _ 0).receive message) [])) (clients.map bare), ?_⟩
    intro mem clients' hagree
    rw [idRegistry_eq, ← hbare hagree]
    change Except.ok _ = Except.ok _
    congr 1
    refine greeted_bare (fun c _ => carries_short hlen hend mem.buffer c) fun hnone => ?_
    rcases hcase with hfill | ⟨c, hc, hid⟩
    · exact newClient_bare hlen hfill mem.buffer _ _ _
    · obtain ⟨d, hd, _, hID, _⟩ := hagree.symm.exists_mem hc
      refine absurd ((carries_short hlen hend mem.buffer d).mpr ?_) (hnone d hd)
      rw [idOf, hID]
      exact hid
  · obtain ⟨hfill, hothers⟩ := h.resolve_left fun hleft => hend hleft.1
    refine ⟨clients.map bare ++ [bare (newClient fd ((Block.fill _ 0).receive message) [])], ?_⟩
    intro mem clients' hagree
    have hnone : ∀ c ∈ clients', ¬ Carries (mem.buffer.receive message) c := by
      intro c hc
      obtain ⟨d, hd, _, hID, _⟩ := hagree.exists_mem hc
      exact not_carries_long hlen hfill hend mem.buffer (hID ▸ hothers d hd)
    rw [idRegistry_eq, greeted_of_none hnone, ← hbare hagree]
    change Except.ok _ = Except.ok _
    rw [List.map_append, List.map_singleton, newClient_bare hlen hfill mem.buffer (Block.fill _ 0)]

/-- A memory in which the buffer holds one byte everywhere. -/
def filledWith (b : UInt8) : Memory := ⟨Block.fill bufferServerLen b, ⟨[], [], []⟩, ⟨none⟩⟩

/-- The registry with the same memory behind every ID. -/
def behind (following : Bytes) (clients : List Client) : List Client :=
  clients.map fun c => { c with following := following }

theorem not_carries_filled (hshort : message.length < idLen)
    (hno : 0 ∈ message → ∀ c ∈ clients, idOf c ≠ cstr message) {b : UInt8} (hb : b ≠ 0) :
    ∀ c ∈ behind [] clients, ¬ Carries ((Block.fill bufferServerLen b).receive message) c := by
  intro c hc hcarries
  obtain ⟨d, hd, rfl⟩ := List.mem_map.mp hc
  have hlen : message.length ≤ bufferServerLen := le_of_lt (lt_trans hshort (by decide))
  obtain ⟨hid, hbehind⟩ := (carries_front_iff _ _).mp hcarries
  have hends := front_ends_iff hcarries
  rw [Block.receive_bytes_of_le _ message hlen, Block.fill_bytes, List.drop_replicate]
    at hid hbehind hends
  by_cases hfull : 0 ∈ d.ID.bytes
  · have hzero := hends.mp hfull
    have hend : 0 ∈ message := by
      rcases List.mem_append.mp (List.mem_of_mem_take hzero) with hmem | hmem
      · exact hmem
      · exact absurd (List.eq_of_mem_replicate hmem).symm hb
    have hfront : 0 ∈ message.take idLen := by rwa [List.take_of_length_le hshort.le]
    exact hno hend d hd (hid.trans (cstr_front hfront _).1)
  · have hrest : (message ++ List.replicate (bufferServerLen - message.length) b).drop idLen =
        b :: List.replicate (bufferServerLen - idLen - 1) b := by
      rw [List.drop_append, List.drop_eq_nil_of_le hshort.le, List.nil_append, List.drop_replicate,
        ← List.replicate_succ]
      have hroom : idLen < bufferServerLen := by decide
      congr 1
      omega
    have hnil := hbehind hfull
    rw [hrest, cstr_cons_of_ne hb] at hnil
    cases hnil

theorem Determined.greeted_eq (h : Determined (idRegistry fd message) clients) (b b' : UInt8)
    (following following' : Bytes) :
    (greeted fd (Carries ((Block.fill bufferServerLen b).receive message))
      (newClient fd ((Block.fill bufferServerLen b).receive message) [])
      (behind following clients)).map bare =
    (greeted fd (Carries ((Block.fill bufferServerLen b').receive message))
      (newClient fd ((Block.fill bufferServerLen b').receive message) [])
      (behind following' clients)).map bare := by
  have hsame := h (filledWith b) (filledWith b') _ _ (agree_map following clients)
    (agree_map following' clients)
  rw [idRegistry_eq, idRegistry_eq] at hsame
  exact Except.ok.inj hsame

/-- A short ID message that names nobody makes a record of what the buffer held. -/
theorem short_undetermined (hshort : message.length < idLen)
    (hno : 0 ∈ message → ∀ c ∈ clients, idOf c ≠ cstr message) :
    ¬ Determined (idRegistry fd message) clients := by
  intro h
  have hlen : message.length ≤ bufferServerLen := le_of_lt (lt_trans hshort (by decide))
  have hsame := h.greeted_eq 1 2 [] []
  rw [greeted_of_none (not_carries_filled hshort hno (by decide)),
    greeted_of_none (not_carries_filled hshort hno (by decide)), List.map_append, List.map_append,
    List.append_cancel_left_eq, List.map_singleton, List.map_singleton] at hsame
  have hID := congrArg (fun c => c.ID.bytes[message.length]?) (List.cons.inj hsame).1
  simp only [bare, newClient, Block.slice_bytes, List.drop_zero,
    Block.receive_bytes_of_le _ message hlen, Block.fill_bytes, List.drop_replicate,
    List.getElem?_take_of_lt hshort] at hID
  have hroom : 0 < bufferServerLen - message.length := Nat.sub_pos_of_lt (lt_trans hshort (by decide))
  rw [List.getElem?_append_right le_rfl, List.getElem?_append_right le_rfl, Nat.sub_self,
    List.getElem?_replicate_of_lt hroom, List.getElem?_replicate_of_lt hroom] at hID
  exact absurd (Option.some.inj hID) (by decide)

/-- An ID that fills its array is compared with what lies behind it. -/
theorem full_undetermined (hlen : message.length ≤ bufferServerLen)
    (hfill : idLen ≤ message.length) (hopen : 0 ∉ message.take idLen)
    (hnamed : ∃ c ∈ clients, c.ID.bytes = message.take idLen) :
    ¬ Determined (idRegistry fd message) clients := by
  intro h
  obtain ⟨c, hc, hID⟩ := hnamed
  have hdata := Block.receive_bytes_of_le (Block.fill bufferServerLen 0) message hlen
  let tail := cstr (((Block.fill bufferServerLen 0).receive message).bytes.drop idLen)
  have htail : ∀ b ∈ tail, b ≠ 0 := fun b hb => ne_zero_of_mem_cstr hb
  have hne : ∀ b ∈ message.take idLen, b ≠ 0 := fun b hb hzero => hopen (hzero ▸ hb)
  have hfront : cstr (((Block.fill bufferServerLen 0).receive message).bytes.take idLen) =
      message.take idLen := by
    rw [hdata, List.take_append_of_le_length hfill, cstr_of_ne_zero hne]
  have hmet : ∃ d ∈ behind tail clients,
      Carries ((Block.fill bufferServerLen 0).receive message) d := by
    refine ⟨_, List.mem_map_of_mem hc, (carries_front_iff _ _).mpr ⟨?_, fun _ => cstr_of_ne_zero htail⟩⟩
    rw [hfront, ← hID]
    exact cstr_of_ne_zero fun b hb => hne b (hID ▸ hb)
  have hmissed : ∀ d ∈ behind (tail ++ [1]) clients,
      ¬ Carries ((Block.fill bufferServerLen 0).receive message) d := by
    intro d hd hcarries
    obtain ⟨e, _, rfl⟩ := List.mem_map.mp hd
    have hends := front_ends_iff hcarries
    rw [hdata, List.take_append_of_le_length hfill] at hends
    have hbehind := ((carries_front_iff _ _).mp hcarries).2 (mt hends.mp hopen)
    have hlength := congrArg List.length hbehind
    rw [cstr_append_of_ne_zero htail, List.length_append] at hlength
    change tail.length + 1 = tail.length at hlength
    omega
  have hlength := congrArg List.length (h.greeted_eq 0 0 tail (tail ++ [1]))
  rw [List.length_map, List.length_map, greeted_of_none hmissed, List.length_append,
    greeted_length hmet, behind, behind, List.length_map, List.length_map] at hlength
  exact absurd hlength (Nat.ne_of_lt (Nat.lt_succ_self _))

theorem idRegistry_determined_iff (hlen : message.length ≤ bufferServerLen) :
    Determined (idRegistry fd message) clients ↔ IdCovered message clients := by
  constructor
  · intro h
    by_contra huncovered
    rw [IdCovered, not_or, not_and_or, not_and_or] at huncovered
    obtain ⟨hshown, hopen⟩ := huncovered
    by_cases hshort : message.length < idLen
    · refine short_undetermined hshort (fun hend c hc hid => ?_) h
      rw [List.take_of_length_le hshort.le] at hshown
      exact hshown.resolve_left (not_not.mpr hend) (Or.inr ⟨c, hc, hid⟩)
    · have hfill := not_lt.mp hshort
      have hends := hshown.resolve_right fun hno => hno (Or.inl hfill)
      obtain ⟨c, hc⟩ := not_forall.mp (hopen.resolve_left (not_not.mpr hfill))
      rw [Classical.not_imp, not_not] at hc
      exact full_undetermined hlen hfill hends ⟨c, hc⟩ h
  · intro h
    obtain ⟨result, hresult⟩ := idRegistry_covered hlen h
    exact Determined.of_eq hresult

end Handshake

section Request

variable {fd : ℕ} {message : Bytes} {clients : List Client}

theorem request_inside : requestLen ≤ bufferServerLen := by decide

theorem topic_inside : commandSendLen + (topicLen + commandSendLen) ≤ requestLen := by decide

/-- The topic and the flag that a subscribe request is read with. -/
def topicOf (data : Block bufferServerLen) : Topic :=
  data.slice commandSendLen (topicLen + commandSendLen) (topic_inside.trans request_inside)

def sfOf (data : Block bufferServerLen) : CInt :=
  intOfBytes (data.slice (topicLen + commandSendLen + 1) 4 request_inside).bytes

/-- The first byte of the message selects the branch. -/
theorem requestRegistry_eq (hlen : message.length ≤ bufferServerLen) {b : UInt8}
    (hhead : message.head? = some b) (mem : Memory) (clients : List Client) :
    requestRegistry fd message mem clients =
      if b = 115 then
        .ok (clients.map (subscribed (topicOf (mem.buffer.receive message))
          (sfOf (mem.buffer.receive message)) fd))
      else if b = 117 then unsubscribe mem.locals.topic fd clients
      else .ok clients := by
  obtain ⟨rest, rfl⟩ := List.head?_eq_some_iff.mp hhead
  have haction : ((mem.buffer.receive (b :: rest)).slice 0 1 (by decide)).bytes.headD 0 = b := by
    rw [Block.slice_bytes, Block.receive_bytes_of_le mem.buffer _ hlen]
    rfl
  rw [requestRegistry, handleRequest]
  simp only [requestOf, haction]
  by_cases hsub : b = 115
  · rw [if_pos hsub, if_pos hsub]
    exact subscribe_eq _ _ _ _
  · by_cases hunsub : b = 117
    · rw [if_neg hsub, if_neg hsub, if_pos hunsub, if_pos hunsub]
    · rw [if_neg hsub, if_neg hsub, if_neg hunsub, if_neg hunsub]

/-- A field inside the message is the same for every buffer. -/
theorem slice_receive (hlen : message.length ≤ bufferServerLen) {off len : ℕ}
    (hinside : off + len ≤ message.length) (buffer buffer' : Block bufferServerLen) :
    (buffer.receive message).slice off len (hinside.trans hlen) =
      (buffer'.receive message).slice off len (hinside.trans hlen) := by
  have hdrop : len ≤ (message.drop off).length := by
    rw [List.length_drop]
    omega
  apply Block.ext
  rw [Block.slice_bytes, Block.slice_bytes, Block.receive_bytes_of_le buffer message hlen,
    Block.receive_bytes_of_le buffer' message hlen, List.drop_append_of_le_length (by omega),
    List.drop_append_of_le_length (by omega), List.take_append_of_le_length hdrop,
    List.take_append_of_le_length hdrop]

theorem map_subscribed_of_ne {topic : Topic} {sf : CInt} {sock : ℤ}
    (h : ∀ c ∈ clients, c.sock ≠ sock) : clients.map (subscribed topic sf sock) = clients := by
  refine (List.map_congr_left fun c hc => ?_).trans (List.map_id clients)
  rw [subscribed, if_neg (h c hc)]
  rfl

theorem map_bare_subscribed (topic : Topic) (sf : CInt) (sock : ℤ) (clients : List Client) :
    (clients.map (subscribed topic sf sock)).map bare =
      (clients.map bare).map (subscribed topic sf sock) := by
  rw [List.map_map, List.map_map]
  exact List.map_congr_left fun c _ => apply_ite bare (c.sock = sock) _ c

/-- A covered request has the same outcome in every memory. -/
theorem requestRegistry_covered (hne : message ≠ []) (hlen : message.length ≤ bufferServerLen)
    (h : RequestCovered fd message clients) :
    ∃ result, ∀ mem clients', Agree clients' clients →
      (requestRegistry fd message mem clients').map (List.map bare) = .ok result := by
  obtain ⟨b, hhead⟩ := Option.ne_none_iff_exists'.mp (mt List.head?_eq_none_iff.mp hne)
  by_cases hwhole : b = 115 ∧ requestLen ≤ message.length
  · obtain ⟨rfl, hinside⟩ := hwhole
    refine ⟨(clients.map bare).map (subscribed (topicOf ((Block.fill _ 0).receive message))
      (sfOf ((Block.fill _ 0).receive message)) fd), fun mem clients' hagree => ?_⟩
    have hfield : topicOf (mem.buffer.receive message) = topicOf ((Block.fill _ 0).receive message) :=
      slice_receive hlen (topic_inside.trans hinside) mem.buffer _
    have hflag : sfOf (mem.buffer.receive message) = sfOf ((Block.fill _ 0).receive message) :=
      congrArg (fun field : Block 4 => intOfBytes field.bytes)
        (slice_receive hlen hinside mem.buffer _)
    rw [requestRegistry_eq hlen hhead, if_pos rfl, hfield, hflag]
    change Except.ok _ = Except.ok _
    rw [map_bare_subscribed, hagree]
  · refine ⟨clients.map bare, fun mem clients' hagree => ?_⟩
    suffices hsame : requestRegistry fd message mem clients' = .ok clients' by
      rw [hsame, ← show clients'.map bare = clients.map bare from hagree]
      rfl
    rw [requestRegistry_eq hlen hhead]
    by_cases hsub : b = 115
    · rw [if_pos hsub, map_subscribed_of_ne]
      intro c hc
      obtain ⟨d, hd, hsock, _⟩ := hagree.exists_mem hc
      have hnobody := (h.1 (hsub ▸ hhead)).resolve_left fun hinside => hwhole ⟨hsub, hinside⟩
      exact hsock ▸ hnobody d hd
    · by_cases hunsub : b = 117
      · rw [if_neg hsub, if_pos hunsub]
        refine unsubscribe_absent fun c hc hsock t ht => ?_
        obtain ⟨d, hd, hsame, _, htopics⟩ := hagree.exists_mem hc
        have hempty := h.2 (hunsub ▸ hhead) d hd (hsame.trans hsock)
        rw [← htopics, hempty] at ht
        exact absurd ht List.not_mem_nil
      · rw [if_neg hsub, if_neg hunsub]

/-- A subscribe request that is cut short leaves the last byte of the flag to the buffer. -/
theorem subscribe_undetermined (hlen : message.length ≤ bufferServerLen)
    (hhead : message.head? = some 115) (hshort : message.length < requestLen)
    (hsock : ∃ c ∈ clients, c.sock = fd) : ¬ Determined (requestRegistry fd message) clients := by
  intro h
  obtain ⟨c, hc, hsock⟩ := hsock
  have hsame := h (filledWith 0) (filledWith 1) clients clients rfl rfl
  rw [requestRegistry_eq hlen hhead, requestRegistry_eq hlen hhead, if_pos rfl, if_pos rfl] at hsame
  have hmaps := Except.ok.inj hsame
  rw [List.map_map, List.map_map, List.map_inj_left] at hmaps
  have hrecord := congrArg Client.sfs (hmaps c hc)
  simp only [Function.comp_apply, subscribed, if_pos hsock] at hrecord
  have hbytes := intOfBytes_inj (Block.size _) (Block.size _) (List.cons.inj hrecord).1
  have hlast := congrArg (fun bytes => bytes[3]?) hbytes
  have hroom : requestLen - 1 - message.length < bufferServerLen - message.length := by
    have hbound := request_inside
    omega
  have hbyte : ∀ b, (((filledWith b).buffer.receive message).slice (topicLen + commandSendLen + 1) 4
      (by decide)).bytes[3]? = some b := by
    intro b
    rw [Block.slice_bytes, Block.receive_bytes_of_le _ message hlen]
    change (((message ++ (List.replicate bufferServerLen b).drop message.length).drop _).take 4)[3]? = _
    rw [List.getElem?_take_of_lt (by decide), List.getElem?_drop, List.drop_replicate,
      List.getElem?_append_right (Nat.le_of_lt_succ hshort)]
    exact List.getElem?_replicate_of_lt hroom
  rw [hbyte, hbyte] at hlast
  exact absurd (Option.some.inj hlast) (by decide)

/-- A record and what became of it in an agreeing registry. -/
theorem exists_of_agree {R : Client → Client → Prop} {result : List Client}
    (hrel : List.Forall₂ R clients result) (hagree : Agree result clients) {c : Client}
    (hc : c ∈ clients) : ∃ c', R c c' ∧ bare c' = bare c := by
  induction hrel with
  | nil => cases hc
  | cons hhead _ ih =>
    obtain ⟨hbare, hrest⟩ := List.cons.inj hagree
    rcases List.mem_cons.mp hc with rfl | hc
    · exact ⟨_, hhead, hbare⟩
    · exact ih hrest hc

/-- An unsubscribe request finds what the local array holds. -/
theorem unsubscribe_undetermined (hlen : message.length ≤ bufferServerLen)
    (hhead : message.head? = some 117) (hsock : ∃ c ∈ clients, c.sock = fd ∧ c.topics ≠ []) :
    ¬ Determined (requestRegistry fd message) clients := by
  intro h
  obtain ⟨c, hc, hsock, htopics⟩ := hsock
  obtain ⟨t, rest, htable⟩ := List.exists_cons_of_ne_nil htopics
  -- A string longer than any topic array is the topic of nobody.
  have hlong : cstr (List.replicate 52 1) = List.replicate 52 1 :=
    cstr_of_ne_zero fun b hb => by
      rw [List.eq_of_mem_replicate hb]
      decide
  have hkept : unsubscribe (List.replicate 52 1) fd clients = .ok clients := by
    refine unsubscribe_absent fun d _ _ u _ heq => ?_
    have hle := cstr_length_le u.bytes
    rw [heq, hlong, u.size, List.length_replicate] at hle
    exact absurd hle (by decide)
  have hsame := h ⟨Block.fill _ 0, ⟨t.bytes, [], []⟩, ⟨none⟩⟩
    ⟨Block.fill _ 0, ⟨List.replicate 52 1, [], []⟩, ⟨none⟩⟩ clients clients rfl rfl
  have hbranch : ∀ mem, requestRegistry fd message mem clients =
      unsubscribe mem.locals.topic fd clients := fun mem => by
    rw [requestRegistry_eq hlen hhead, if_neg (by decide), if_pos rfl]
  rw [hbranch, hbranch, hkept] at hsame
  cases hresult : unsubscribe t.bytes fd clients with
  | error e =>
    rw [hresult] at hsame
    cases hsame
  | ok result =>
    rw [hresult] at hsame
    obtain ⟨c', hedit, hbare⟩ :=
      exists_of_agree (unsubscribe_edits hresult) (Except.ok.inj hsame) hc
    cases hedit with
    | elsewhere _ _ hother => exact hother hsock
    | absent _ _ _ hnone => exact hnone t (htable ▸ List.mem_cons_self ..) rfl
    | unsubscribe _ _ u _ hlength hlast hmatch =>
      have hlost := congrArg (fun d => d.topics.length) hbare
      simp only [bare, htable, List.length_dropLast, List.length_cons] at hlost
      omega

theorem requestRegistry_determined_iff (hne : message ≠ [])
    (hlen : message.length ≤ bufferServerLen) :
    Determined (requestRegistry fd message) clients ↔ RequestCovered fd message clients := by
  constructor
  · intro h
    refine ⟨fun hhead => ?_, fun hhead c hc hsock => ?_⟩
    · by_contra huncovered
      rw [not_or, not_le] at huncovered
      obtain ⟨hshort, hsome⟩ := huncovered
      obtain ⟨c, hc⟩ := not_forall.mp hsome
      rw [Classical.not_imp, not_not] at hc
      exact subscribe_undetermined hlen hhead hshort ⟨c, hc⟩ h
    · by_contra htopics
      exact unsubscribe_undetermined hlen hhead ⟨c, hc, hsock, htopics⟩ h
  · intro h
    obtain ⟨result, hresult⟩ := requestRegistry_covered hne hlen h
    exact Determined.of_eq hresult

end Request

/-- A read of a connection in a run, at the descriptor. -/
structure AtRead (cfg : Config) (s : Server) (fd : ℕ) : Prop where
  run : ∃ tr, Run cfg tr s
  visit : ∃ curr, Visits s curr fd
  connection : Connection cfg fd

/-- The registry after the handler that the flag selects. -/
def readRegistry (receiveID : Bool) :
    ℕ → Bytes → Memory → List Client → Except Stop (List Client) :=
  if receiveID = true then idRegistry else requestRegistry

def Covered (receiveID : Bool) (fd : ℕ) (message : Bytes) (clients : List Client) : Prop :=
  if receiveID = true then IdCovered message clients else RequestCovered fd message clients

section Server

variable {cfg : Config} {s : Server} {fd : ℕ} {message : Bytes}

/-- The server goes on with the registry that the handler leaves. -/
theorem next_of_readRegistry (hne : message ≠ []) (hlen : message.length ≤ bufferServerLen)
    (hread : AtRead cfg s fd) (locals : ReadLocals) {result : List Client}
    (h : readRegistry s.receiveID fd message ⟨s.sendBuffer, locals, s.stack⟩ s.clients =
      .ok result) :
    ∃ t, next cfg s (.read message locals) = some t ∧ t.clients = result := by
  obtain ⟨tr, hrun⟩ := hread.run
  obtain ⟨curr, hvisit⟩ := hread.visit
  have hpeer := run_peer hrun hvisit hread.connection
  have hcount : ¬ message.length = 0 := fun hz => hne (List.eq_nil_of_length_eq_zero hz)
  rw [next, step_read locals hvisit hread.connection hpeer hlen, serveClient]
  simp only [dispatch, if_neg hcount]
  cases hflag : s.receiveID with
  | true =>
    rw [hflag, readRegistry, if_pos rfl, idRegistry, Memory.word] at h
    cases hr : handleIdClient fd (s.sendBuffer.receive message) locals.following
        ⟨s.stack, locals.calls⟩ s.clients with
    | error e =>
      rw [hr] at h
      cases h
    | ok r =>
      rw [hr] at h
      exact ⟨_, rfl, Except.ok.inj h⟩
  | false =>
    rw [hflag, readRegistry, if_neg Bool.false_ne_true, requestRegistry] at h
    rw [if_neg Bool.false_ne_true]
    simp only [h]
    exact ⟨_, rfl, rfl⟩

theorem readRegistry_covered (hne : message ≠ []) (hlen : message.length ≤ bufferServerLen)
    {receiveID : Bool} {clients : List Client} (h : Covered receiveID fd message clients) :
    ∃ result, ∀ mem clients', Agree clients' clients →
      (readRegistry receiveID fd message mem clients').map (List.map bare) = .ok result := by
  cases receiveID with
  | true => exact idRegistry_covered hlen h
  | false => exact requestRegistry_covered hne hlen h

/-- A covered read is handled, and its outcome is known. -/
theorem next_covered (hne : message ≠ []) (hlen : message.length ≤ bufferServerLen)
    (hread : AtRead cfg s fd) (locals : ReadLocals) {clients result : List Client}
    (hagree : Agree s.clients clients)
    (hresult : ∀ mem clients', Agree clients' clients →
      (readRegistry s.receiveID fd message mem clients').map (List.map bare) = .ok result) :
    ∃ t, next cfg s (.read message locals) = some t ∧ t.clients.map bare = result := by
  have hmapped := hresult ⟨s.sendBuffer, locals, s.stack⟩ s.clients hagree
  cases hregistry : readRegistry s.receiveID fd message ⟨s.sendBuffer, locals, s.stack⟩
      s.clients with
  | error e =>
    rw [hregistry] at hmapped
    cases hmapped
  | ok after =>
    obtain ⟨t, ht, hclients⟩ := next_of_readRegistry hne hlen hread locals hregistry
    rw [hregistry] at hmapped
    exact ⟨t, ht, hclients ▸ Except.ok.inj hmapped⟩

end Server

/-- Which messages the two handlers treat as a function of the registry, the descriptor
and the message alone; and any two runs of the server that read such a message with the
same registry go on with the same registry, whatever was handled before. -/
theorem read_determined_iff {fd : ℕ} {message : Bytes} (hne : message ≠ [])
    (hlen : message.length ≤ bufferServerLen) (clients : List Client) :
    (Determined (idRegistry fd message) clients ↔ IdCovered message clients) ∧
    (Determined (requestRegistry fd message) clients ↔ RequestCovered fd message clients) ∧
    ∀ cfg cfg' s s' locals locals', AtRead cfg s fd → AtRead cfg' s' fd →
      s'.receiveID = s.receiveID → Agree s.clients clients → Agree s'.clients clients →
      Covered s.receiveID fd message clients →
      ∃ t t', next cfg s (.read message locals) = some t ∧
        next cfg' s' (.read message locals') = some t' ∧ Agree t.clients t'.clients := by
  refine ⟨idRegistry_determined_iff hlen, requestRegistry_determined_iff hne hlen, ?_⟩
  intro cfg cfg' s s' locals locals' hread hread' hflag hagree hagree' hcovered
  obtain ⟨result, hresult⟩ := readRegistry_covered hne hlen hcovered
  obtain ⟨t, ht, hclients⟩ := next_covered hne hlen hread locals hagree hresult
  obtain ⟨t', ht', hclients'⟩ := next_covered hne hlen hread' locals' hagree' (hflag ▸ hresult)
  exact ⟨t, t', ht, ht', hclients.trans hclients'.symm⟩

/-- The record of a client that has sent its ID. -/
def knownClient : Client := newClient 5 ((Block.fill bufferServerLen 0).receive (idMessage 97)) []

theorem read_determined_iff_subscribe :
    Determined (requestRegistry 5 (subscribeMessage 98 1)) [knownClient] :=
  (read_determined_iff (by decide) (by decide) [knownClient]).2.1.mpr
    ⟨fun _ => Or.inl (by decide), fun h => absurd h (by decide)⟩

/-- A client connects and sends its ID. -/
def knownInputs : List Input :=
  roundInputs 5 [(3, .connection 5 true)] ++ roundInputs 5 [(5, readInput (idMessage 97))]

/-- A datagram for a topic to which nobody subscribed. -/
def strayDatagram : Input :=
  .datagram ([120, 120, 121, 122] ++ List.replicate 46 0 ++ [3, 120])
    (.ofSender ⟨127, 0, 0, 1⟩ 8080) ⟨Block.fill _ 0, Block.fill _ 0, Block.fill _ 0⟩

/-- The strings of the topics after a read. -/
def topicsAfter (s : Server) (bytes : Bytes) : Option (List (List Bytes)) :=
  (next usual s (readInput bytes)).map fun t =>
    t.clients.map fun c => c.topics.map fun topic => cstr topic.bytes

/-- The same short request subscribes to another topic when a datagram came before it. -/
theorem short_request_undetermined :
    ∃ s s' t t', AtRead usual s 5 ∧ AtRead usual s' 5 ∧ s'.receiveID = s.receiveID ∧
      s'.clients = s.clients ∧ next usual s (readInput [115, 98]) = some t ∧
      next usual s' (readInput [115, 98]) = some t' ∧ ¬ Agree t.clients t'.clients := by
  obtain ⟨tr, s, hrun, hs⟩ := run_of_inputs usual (fun _ s => decide (s.pc = .scan {5} 5 ∧
    5 ≤ s.fdClients ∧ s.receiveID = false ∧ s.clients = [knownClient] ∧
    topicsAfter s [115, 98] = some [[[98]]])) (knownInputs ++ .select {5} :: List.replicate 5 .tick)
    (by decide +kernel)
  obtain ⟨tr', s', hrun', hs'⟩ := run_of_inputs usual (fun _ s => decide (s.pc = .scan {4, 5} 5 ∧
    5 ≤ s.fdClients ∧ s.receiveID = false ∧ s.clients = [knownClient] ∧
    topicsAfter s [115, 98] = some [[[98, 121, 122]]]))
    (knownInputs ++ .select {4, 5} :: List.replicate 4 .tick ++ [strayDatagram]) (by decide +kernel)
  obtain ⟨hpc, hle, hflag, hclients, htopics⟩ := of_decide_eq_true hs
  obtain ⟨hpc', hle', hflag', hclients', htopics'⟩ := of_decide_eq_true hs'
  obtain ⟨t, ht, hshown⟩ := Option.map_eq_some_iff.mp htopics
  obtain ⟨t', ht', hshown'⟩ := Option.map_eq_some_iff.mp htopics'
  refine ⟨s, s', t, t', ⟨⟨tr, hrun⟩, ⟨{5}, hpc, hle, by decide⟩, by decide⟩,
    ⟨⟨tr', hrun'⟩, ⟨{4, 5}, hpc', hle', by decide⟩, by decide⟩, hflag'.trans hflag.symm,
    hclients'.trans hclients.symm, ht, ht', fun hagree => ?_⟩
  have hsame := congrArg (List.map fun c : Client => c.topics.map fun topic => cstr topic.bytes)
    hagree
  rw [List.map_map, List.map_map] at hsame
  exact absurd (hshown.symm.trans (hsame.trans hshown')) (by decide)

end TopicBroker.Leakage
