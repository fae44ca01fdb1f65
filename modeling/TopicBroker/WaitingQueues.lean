import Mathlib.Order.Lattice.Nat
import TopicBroker.QueueCalls
import TopicBroker.Refinement

/-!
The waiting queues of the server on its heap. Every record has the handle of a queue of
queue.c, and the loops that store a message and that send what waits make their calls
there. Whatever addresses `malloc` gives, the calls succeed, the queues hold what the
records are said to hold, and the messages that were stored are never freed. The stack is
not on this heap: an element of a queue is the address of the word of `temp`, and what
`handle_id_client` reads there is that of the model of the records.
-/
namespace TopicBroker.WaitingQueues

open ByteBlocks Message Buffer Frames Registry Publish Identify MainLoop Runs Queues QueueCalls

/-- The address of a stack word; `temp` is that of the local of `receive_udp_message`. -/
def address (temp : Addr) : StackWord → Addr
  | .temp => temp

section Code

variable (alloc : Memory → Addr) (temp : Addr)

/-- The inner loop over the topics of a record that is offline, from position `j` on: a
message is allocated, and the address of the local that points to it is put in the queue. -/
def storeTopics (topic : Topic) (sfs : List CInt) (q : Addr) : ℕ → List Topic → Memory →
    Except Stop Memory
  | _, [], m => .ok m
  | j, t :: rest, m =>
    if strcmp t.bytes topic.bytes = 0 then do
      let sf ← readAt sfs j
      if sf = 1 then
        let m ← Queues.malloc m (alloc m) .block
        let m ← Queues.queueEnq m q (alloc m) temp
        storeTopics topic sfs q (j + 1) rest m
      else storeTopics topic sfs q (j + 1) rest m
    else storeTopics topic sfs q (j + 1) rest m

def storeClients (topic : Topic) : List Client → List Addr → Memory → Except Stop Memory
  | c :: clients, q :: handles, m =>
    if c.sock ≠ -1 then storeClients topic clients handles m
    else do
      let m ← storeTopics alloc temp topic c.sfs q 0 c.topics m
      storeClients topic clients handles m
  | _, _, m => .ok m

/-- The loop of `handle_id_client` that takes the messages out of a queue, with a bound on
its rounds. -/
def drainLoop : ℕ → Memory → Addr → Except Stop (Memory × List Addr)
  | 0, _, _ => .error .impossible
  | rounds + 1, m, q => do
    if ← queueEmpty m q then .ok (m, [])
    else
      let out ← queueDeq m q
      let rest ← drainLoop rounds out.1 q
      .ok (rest.1, out.2 :: rest.2)

/-- What `handle_id_client` does on the heap: the memory, the handles, and the messages
that were taken out. -/
def recallClients (data : Bytes) : List Client → List Addr → Memory →
    Except Stop (Memory × List Addr × List Addr)
  | c :: clients, q :: handles, m =>
    if strcmp (c.ID.bytes ++ c.following) data = 0 then
      if c.sock ≠ -1 then .ok (m, q :: handles, [])
      else do
        let out ← drainLoop (m.keys.card + 1) m q
        .ok (out.1, q :: handles, out.2)
    else do
      let out ← recallClients data clients handles m
      .ok (out.1, q :: out.2.1, out.2.2)
  | _, handles, m => do
    let out ← Queues.queueCreate m (alloc m)
    .ok (out.1, handles ++ [out.2], [])

/-- What a step of the server does on the heap. -/
def heapStep (s : Server) (i : Input) (handles : List Addr) (m : Memory) :
    Except Stop (Memory × List Addr × List Addr) :=
  match i, s.pc with
  | .datagram bytes _ locals, .scan _ _ => do
    let m ← storeClients alloc temp (datagramTopic locals.topic (receiveDatagram s.sendBuffer bytes))
      s.clients handles m
    .ok (m, handles, [])
  | .read bytes _, .scan _ _ =>
    match dispatch s.receiveID bytes.length with
    | .idClient => recallClients alloc (s.sendBuffer.receive bytes).bytes s.clients handles m
    | _ => .ok (m, handles, [])
  | _, _ => .ok (m, handles, [])

end Code

section Calls

variable {m : Memory} {s : Store} {q fresh element x : Addr} {xs : List Addr}

theorem enq_represents (h : Represents m s) (hq : s.queues q = some xs) (hfresh : Fresh m fresh) :
    ∃ m', Queues.queueEnq m q fresh element = .ok m' ∧
      Represents m' (s.put q (some (xs ++ [element]))) := by
  have hfollows := call_follows h (.enq q fresh element) (by simpa [Granted, Call.fresh] using hfresh)
  obtain ⟨m', hcall, hrep⟩ := hfollows.ok (s.put q (some (xs ++ [element]))) .done
    (by simp only [Store.call, hq])
  obtain ⟨m'', henq, heq⟩ := bind_eq_ok.mp hcall
  cases heq
  exact ⟨m', henq, hrep⟩

theorem deq_represents (h : Represents m s) (hq : s.queues q = some (x :: xs)) :
    ∃ m', queueDeq m q = .ok (m', x) ∧ Represents m' (s.put q (some xs)) := by
  have hfollows := call_follows h (.deq q) (by simp [Granted, Call.fresh])
  obtain ⟨m', hcall, hrep⟩ := hfollows.ok (s.put q (some xs)) (.address x)
    (by simp only [Store.call, hq])
  obtain ⟨out, hdeq, heq⟩ := bind_eq_ok.mp hcall
  cases heq
  exact ⟨_, hdeq, hrep⟩

theorem empty_represents (h : Represents m s) (hq : s.queues q = some xs) :
    queueEmpty m q = .ok (decide (xs = [])) := by
  have hfollows := call_follows h (.empty q) (by simp [Granted, Call.fresh])
  obtain ⟨m', hcall, _⟩ := hfollows.ok s (.flag (decide (xs = []))) (by simp only [Store.call, hq])
  obtain ⟨b, hempty, heq⟩ := bind_eq_ok.mp hcall
  cases heq
  exact hempty

theorem create_represents (h : Represents m s) (hfresh : Fresh m fresh) :
    ∃ m', Queues.queueCreate m fresh = .ok (m', fresh) ∧ Represents m' (s.put fresh (some [])) := by
  have hfollows := call_follows h (.create fresh) (by simpa [Granted, Call.fresh] using hfresh)
  obtain ⟨m', hcall, hrep⟩ := hfollows.ok (s.put fresh (some [])) (.address fresh) rfl
  obtain ⟨out, hcreate, heq⟩ := bind_eq_ok.mp hcall
  cases heq
  exact ⟨_, hcreate, hrep⟩

theorem malloc_represents (h : Represents m s) (hfresh : Fresh m fresh) :
    ∃ m', Queues.malloc m fresh .block = .ok m' ∧
      Represents m' { s with blocks := insert fresh s.blocks } := by
  have hfollows := call_follows h (.malloc fresh) (by simpa [Granted, Call.fresh] using hfresh)
  obtain ⟨m', hcall, hrep⟩ := hfollows.ok _ _ rfl
  obtain ⟨out, hmalloc, heq⟩ := bind_eq_ok.mp hcall
  cases heq
  exact ⟨_, hmalloc, hrep⟩

/-- A handle is in use. -/
theorem handle_live (h : Represents m s) (hq : s.queues q = some xs) : q ∈ m := by
  obtain ⟨w, cells, hlaid, _, hcells, _⟩ := h.cells hq
  exact hlaid.live hcells (Or.inl rfl)

theorem queue_length_le (h : Represents m s) (hq : s.queues q = some xs) :
    xs.length ≤ m.keys.card := by
  obtain ⟨w, cells, hlaid, _, hcells, rfl⟩ := h.cells hq
  obtain ⟨head, tail, hat⟩ := hlaid.queue q cells hcells
  rw [List.length_map]
  exact length_le_card hlaid.null_free hat

end Calls

/-- Every call of `malloc` gives an address that is not in use. -/
def Mallocs (alloc : Memory → Addr) : Prop := ∀ m, Fresh m (alloc m)

/-- The queues of a store are those of the records, under their handles. -/
def Kept (temp : Addr) (store : Store) (clients : List Client) (handles : List Addr) : Prop :=
  List.Forall₂ (fun c q => store.queues q = some (c.inWaiting.map (address temp))) clients handles

theorem Kept.congr {temp : Addr} {store store' : Store} {clients : List Client} {handles : List Addr}
    (h : Kept temp store clients handles) (hsame : ∀ q ∈ handles, store'.queues q = store.queues q) :
    Kept temp store' clients handles := by
  induction h with
  | nil => exact List.Forall₂.nil
  | cons hhead _ ih =>
    rw [List.forall_mem_cons] at hsame
    exact List.Forall₂.cons (hsame.1.trans hhead) (ih hsame.2)

/-- How many messages wait. -/
def waitingCount (clients : List Client) : ℕ := (clients.map fun c => c.inWaiting.length).sum

section Loops

variable {alloc : Memory → Addr} {temp q : Addr} {m : Memory} {store : Store}

/-- The inner loop on the heap, along the one on the record. -/
theorem storeTopics_spec (halloc : Mallocs alloc) {data : Block bufferServerLen} {topic : Topic}
    {addr : SockaddrIn} {sfs : List CInt} {topics : List Topic} :
    ∀ {j : ℕ} {inWaiting inWaiting' : List StackWord} {r r' : Route} {m : Memory} {store : Store},
      routeTopics data topic addr (-1) sfs j topics inWaiting r = .ok (inWaiting', r') →
      Represents m store → store.queues q = some (inWaiting.map (address temp)) →
      ∃ m' blocks, storeTopics alloc temp topic sfs q j topics m = .ok m' ∧
        Represents m' ⟨Function.update store.queues q (some (inWaiting'.map (address temp))), blocks⟩ ∧
        blocks.card + inWaiting.length = store.blocks.card + inWaiting'.length := by
  induction topics with
  | nil =>
    intro j inWaiting inWaiting' r r' m store h hrep hq
    cases h
    refine ⟨m, store.blocks, rfl, ?_, rfl⟩
    rw [← hq, Function.update_eq_self]
    exact hrep
  | cons t rest ih =>
    intro j inWaiting inWaiting' r r' m store h hrep hq
    simp only [routeTopics] at h
    rw [storeTopics]
    by_cases hmatch : strcmp t.bytes topic.bytes = 0
    · rw [if_pos hmatch] at h
      rw [if_pos hmatch]
      simp only [ne_eq, not_true, if_false] at h
      obtain ⟨sf, hsf, h⟩ := bind_eq_ok.mp h
      simp only [hsf, ok_bind]
      by_cases hone : sf = 1
      · rw [if_pos hone] at h
        rw [if_pos hone]
        obtain ⟨m₁, hmalloc, hrep₁⟩ := malloc_represents hrep (halloc m)
        obtain ⟨m₂, henq, hrep₂⟩ : ∃ m₂, Queues.queueEnq m₁ q (alloc m₁) temp = .ok m₂ ∧ _ :=
          enq_represents hrep₁ hq (halloc m₁)
        obtain ⟨m', blocks, hloop, hrep', hcard⟩ := ih h hrep₂ (by
          rw [Registry.queueEnq, List.map_append]
          exact Function.update_self ..)
        refine ⟨m', blocks, ?_, ?_, ?_⟩
        · simp only [hmalloc, henq, ok_bind, hloop]
        · rw [Store.put, Function.update_idem] at hrep'
          exact hrep'
        · have hnew : alloc m ∉ store.blocks := fun hin => (halloc m).2 (hrep.live hin).2
          rw [Store.put, Finset.card_insert_of_notMem hnew, Registry.queueEnq, List.length_append,
            List.length_singleton] at hcard
          omega
      · rw [if_neg hone] at h
        rw [if_neg hone]
        exact ih h hrep hq
    · rw [if_neg hmatch] at h
      rw [if_neg hmatch]
      exact ih h hrep hq

/-- The outer loop: every queue is the one of its record, and the others stay. -/
theorem storeClients_spec (halloc : Mallocs alloc) {data : Block bufferServerLen} {topic : Topic}
    {addr : SockaddrIn} {clients : List Client} :
    ∀ {clients' : List Client} {handles : List Addr} {r r' : Route} {m : Memory} {store : Store},
      routeClients data topic addr clients r = .ok (clients', r') → Represents m store →
      Kept temp store clients handles → handles.Nodup →
      ∃ m' store', storeClients alloc temp topic clients handles m = .ok m' ∧ Represents m' store' ∧
        Kept temp store' clients' handles ∧ (∀ q ∉ handles, store'.queues q = store.queues q) ∧
        store'.blocks.card + waitingCount clients = store.blocks.card + waitingCount clients' := by
  induction clients with
  | nil =>
    intro clients' handles r r' m store h hrep hkept _
    cases h
    cases hkept
    exact ⟨m, store, rfl, hrep, List.Forall₂.nil, fun _ _ => rfl, rfl⟩
  | cons c rest ih =>
    intro clients' handles r r' m store h hrep hkept hnodup
    obtain ⟨⟨inWaiting, r₁⟩, hc, h⟩ := bind_eq_ok.mp h
    obtain ⟨⟨rest', r₂⟩, hrest, h⟩ := bind_eq_ok.mp h
    cases h
    cases hkept with
    | @cons _ q _ qs hhead htail =>
      rw [List.nodup_cons] at hnodup
      rw [storeClients]
      by_cases hsock : c.sock = -1
      · rw [if_neg (not_not.mpr hsock)]
        rw [hsock] at hc
        obtain ⟨m₁, blocks, hloop, hrep₁, hcard₁⟩ := storeTopics_spec halloc hc hrep hhead
        have hother : ∀ q' ∈ qs, Function.update store.queues q
            (some (inWaiting.map (address temp))) q' = store.queues q' := by
          intro q' hq'
          have hne : q' ≠ q := by
            rintro rfl
            exact hnodup.1 hq'
          exact Function.update_of_ne hne _ _
        obtain ⟨m', store', hclients, hrep', hkept', hframe, hcard⟩ :=
          ih hrest hrep₁ (Kept.congr htail hother) hnodup.2
        refine ⟨m', store', ?_, hrep', List.Forall₂.cons ?_ hkept', ?_, ?_⟩
        · simp only [hloop, ok_bind, hclients]
        · rw [hframe q hnodup.1]
          exact Function.update_self ..
        · intro q' hq'
          rw [List.mem_cons, not_or] at hq'
          rw [hframe q' hq'.2]
          exact Function.update_of_ne hq'.1 _ _
        · simp only [waitingCount, List.map_cons, List.sum_cons] at hcard ⊢
          omega
      · rw [if_pos hsock]
        have hsame : inWaiting = c.inWaiting := by
          have hspec := (routeTopics_spec hc).1
          rwa [if_neg hsock, List.append_nil] at hspec
        obtain ⟨m', store', hclients, hrep', hkept', hframe, hcard⟩ := ih hrest hrep htail hnodup.2
        refine ⟨m', store', hclients, hrep', List.Forall₂.cons ?_ hkept', ?_, ?_⟩
        · rw [hframe q hnodup.1, hsame]
          exact hhead
        · intro q' hq'
          rw [List.mem_cons, not_or] at hq'
          exact hframe q' hq'.2
        · simp only [waitingCount, List.map_cons, List.sum_cons, hsame] at hcard ⊢
          omega

/-- The loop takes out everything. -/
theorem drainLoop_spec {rounds : ℕ} :
    ∀ {xs : List Addr} {m : Memory} {store : Store}, Represents m store →
      store.queues q = some xs → xs.length < rounds →
      ∃ m', drainLoop rounds m q = .ok (m', xs) ∧ Represents m' (store.put q (some [])) := by
  induction rounds with
  | zero => exact fun _ _ hlt => absurd hlt (Nat.not_lt_zero _)
  | succ rounds ih =>
    intro xs m store hrep hq hlt
    rw [drainLoop, empty_represents hrep hq]
    cases xs with
    | nil =>
      refine ⟨m, rfl, ?_⟩
      rw [Store.put, ← hq, Function.update_eq_self]
      exact hrep
    | cons x xs =>
      obtain ⟨m₁, hdeq, hrep₁⟩ := deq_represents hrep hq
      obtain ⟨m', hloop, hrep'⟩ := ih hrep₁ (Function.update_self ..)
        (by rw [List.length_cons] at hlt; omega)
      refine ⟨m', ?_, ?_⟩
      · simp only [ok_bind, List.cons_ne_nil, decide_false, Bool.false_eq_true, if_false, hdeq, hloop]
      · rw [Store.put, Store.put, Function.update_idem] at hrep'
        exact hrep'

/-- What is sent is read from the stack word, once for every element that was taken out. -/
theorem drain_messages (sock : ℤ) (word : DeadWord) (queue : List StackWord) :
    (∀ a ∈ queue.map (address temp), a = temp) ∧
      (drain sock word queue).1.map Send.frame = word.frames (queue.map (address temp)).length := by
  constructor
  · rw [List.forall_mem_map]
    intro message _
    cases message
    rfl
  · rw [drain_sends, List.map_map, List.length_map]
    exact List.map_id _

end Loops

/-- The registry after an ID message, and what is sent, from the way in which the loop over
the records ended. -/
def settled (new : Client) : List Client × Found → List Client × List Send
  | (clients, .online) => (clients, [])
  | (clients, .offline sends _) => (clients, sends)
  | (clients, .nobody) => (clients ++ [new], [])

theorem handled_settled {sock : ℤ} {data : Block bufferServerLen} {following : Bytes}
    {word : DeadWord} {clients : List Client} {r : Handled}
    (h : handleIdClient sock data following word clients = .ok r) :
    (r.clients, r.sends) = settled (newClient sock data following)
      (findClient sock data.bytes word clients) := by
  unfold handleIdClient at h
  split at h
  · rename_i hfind
    cases h
    rw [hfind]
    rfl
  · rename_i hfind
    cases h
    rw [hfind]
    rfl
  · rename_i hfind
    rw [hfind]
    rw [insertAt_length] at h
    cases h
    rfl

theorem settled_cons (new c : Client) (out : List Client × Found) :
    settled new (c :: out.1, out.2) = (c :: (settled new out).1, (settled new out).2) := by
  obtain ⟨clients, found⟩ := out
  cases found <;> rfl

/-- The heap after an ID message: a queue was emptied or created, or nothing was done. -/
structure Recalled (temp : Addr) (m : Memory) (store : Store) (handles : List Addr)
    (clients' : List Client) (m' : Memory) (store' : Store) (handles' : List Addr) : Prop where
  represents : Represents m' store'
  kept : Kept temp store' clients' handles'
  nodup : handles'.Nodup
  blocks : store'.blocks = store.blocks
  fresh : ∀ q ∈ handles', q ∈ handles ∨ q ∉ m
  keeps : ∀ q ∈ handles, q ∈ handles'
  others : ∀ q, q ∉ handles' → store'.queues q = store.queues q

section Recalls

variable {temp q : Addr} {m m' : Memory} {store store' : Store} {c c' : Client}
  {rest clients' : List Client} {qs handles' : List Addr}

/-- A queue was created for a client without messages. -/
theorem Recalled.created (hrep : Represents m' (store.put q (some []))) (hfresh : Fresh m q)
    (hnew : c.inWaiting = []) :
    Recalled temp m store [] [c] m' (store.put q (some [])) [q] where
  represents := hrep
  kept := by
    refine List.Forall₂.cons ?_ List.Forall₂.nil
    rw [hnew]
    exact Function.update_self ..
  nodup := List.nodup_singleton _
  blocks := rfl
  fresh := by
    intro q' hq'
    rw [List.mem_singleton.mp hq']
    exact Or.inr hfresh.2
  keeps := fun q' hq' => absurd hq' List.not_mem_nil
  others := fun q' hq' => Function.update_of_ne (fun heq => hq' (List.mem_singleton.mpr heq)) _ _

/-- Nothing was done. -/
theorem Recalled.same (hrep : Represents m store) (hkept : Kept temp store rest qs)
    (hnodup : qs.Nodup) : Recalled temp m store qs rest m store qs where
  represents := hrep
  kept := hkept
  nodup := hnodup
  blocks := rfl
  fresh := fun _ hq => Or.inl hq
  keeps := fun _ hq => hq
  others := fun _ _ => rfl

/-- The queue of the first record was emptied. -/
theorem Recalled.drained (hrep : Represents m' (store.put q (some [])))
    (hkept : Kept temp store rest qs) (hnodup : (q :: qs).Nodup) (hc : c'.inWaiting = []) :
    Recalled temp m store (q :: qs) (c' :: rest) m' (store.put q (some [])) (q :: qs) where
  represents := hrep
  kept := by
    refine List.Forall₂.cons ?_ (Kept.congr hkept ?_)
    · rw [hc]
      exact Function.update_self ..
    · intro q' hq'
      have hne : q' ≠ q := by
        rintro rfl
        exact (List.nodup_cons.mp hnodup).1 hq'
      exact Function.update_of_ne hne _ _
  nodup := hnodup
  blocks := rfl
  fresh := fun _ hq => Or.inl hq
  keeps := fun _ hq => hq
  others := fun _ hq =>
    Function.update_of_ne (fun heq => hq (List.mem_cons.mpr (Or.inl heq))) _ _

/-- What is done for the records behind one leaves its queue alone. -/
theorem Recalled.cons (h : Recalled temp m store qs clients' m' store' handles') (hq : q ∉ qs)
    (hlive : q ∈ m) (hhead : store.queues q = some (c.inWaiting.map (address temp))) :
    Recalled temp m store (q :: qs) (c :: clients') m' store' (q :: handles') := by
  have hnew : q ∉ handles' := fun hin => (h.fresh q hin).elim hq fun hno => hno hlive
  refine ⟨h.represents, List.Forall₂.cons ((h.others q hnew).trans hhead) h.kept,
    List.nodup_cons.mpr ⟨hnew, h.nodup⟩, h.blocks, ?_, ?_, ?_⟩
  · intro q' hq'
    rcases List.mem_cons.mp hq' with rfl | hq'
    · exact Or.inl (List.mem_cons_self ..)
    · exact (h.fresh q' hq').imp (List.mem_cons_of_mem q) id
  · intro q' hq'
    rcases List.mem_cons.mp hq' with rfl | hq'
    · exact List.mem_cons_self ..
    · exact List.mem_cons_of_mem q (h.keeps q' hq')
  · intro q' hq'
    rw [List.mem_cons, not_or] at hq'
    exact h.others q' hq'.2

end Recalls

/-- The loop of `handle_id_client` on the heap, along the one on the records. -/
theorem recallClients_spec {alloc : Memory → Addr} {temp : Addr} (halloc : Mallocs alloc) (sock : ℤ)
    (data : Bytes) (word : DeadWord) {new : Client} (hnew : new.inWaiting = [])
    {clients : List Client} :
    ∀ {handles : List Addr} {m : Memory} {store : Store}, Represents m store →
      Kept temp store clients handles → handles.Nodup →
      ∃ m' handles' messages store',
        recallClients alloc data clients handles m = .ok (m', handles', messages) ∧
        Recalled temp m store handles (settled new (findClient sock data word clients)).1 m' store'
          handles' ∧
        (∀ a ∈ messages, a = temp) ∧
        (settled new (findClient sock data word clients)).2.map Send.frame =
          word.frames messages.length := by
  induction clients with
  | nil =>
    intro handles m store hrep hkept hnodup
    cases hkept
    obtain ⟨m', hcreate, hrep'⟩ := create_represents hrep (halloc m)
    refine ⟨m', [alloc m], [], store.put (alloc m) (some []), ?_,
      Recalled.created hrep' (halloc m) hnew, fun a ha => absurd ha List.not_mem_nil, rfl⟩
    rw [recallClients, hcreate]
    · rfl
    · intro c clients q handles h
      cases h
  | cons c rest ih =>
    intro handles m store hrep hkept hnodup
    cases hkept with
    | @cons _ q _ qs hhead htail =>
      rw [recallClients, findClient]
      by_cases hmatch : strcmp (c.ID.bytes ++ c.following) data = 0
      · rw [if_pos hmatch, if_pos hmatch]
        by_cases hsock : c.sock = -1
        · rw [if_neg (not_not.mpr hsock), if_neg (not_not.mpr hsock)]
          obtain ⟨m', hloop, hrep'⟩ := drainLoop_spec hrep hhead
            (Nat.lt_succ_of_le (queue_length_le hrep hhead))
          refine ⟨m', q :: qs, _, store.put q (some []), ?_,
            Recalled.drained hrep' htail hnodup rfl, drain_messages _ _ _⟩
          simp only [hloop, ok_bind]
        · rw [if_pos hsock, if_pos hsock]
          exact ⟨m, q :: qs, [], store, rfl,
            Recalled.same hrep (List.Forall₂.cons hhead htail) hnodup,
            fun a ha => absurd ha List.not_mem_nil, rfl⟩
      · rw [if_neg hmatch, if_neg hmatch]
        rw [List.nodup_cons] at hnodup
        obtain ⟨m', handles', messages, store', hloop, hout, htemp, hsends⟩ := ih hrep htail hnodup.2
        refine ⟨m', q :: handles', messages, store', ?_, ?_, htemp, ?_⟩
        · simp only [hloop, ok_bind]
        · rw [settled_cons]
          exact hout.cons hnodup.1 (handle_live hrep hhead) hhead
        · rw [settled_cons]
          exact hsends

/-- The messages that a step stores. -/
def storedBy (s : Server) : Input → ℕ
  | .datagram bytes _ _ => (s.clients.map fun c =>
      if c.sock = -1 then storedIn (topicText bytes) c.topics c.sfs else 0).sum
  | _ => 0

/-- The server with the heap of its queues. -/
structure Hosted where
  server : Server
  memory : Memory
  handles : List Addr

/-- An input of the server, and what `malloc` does in its step. -/
structure HostedInput where
  input : Input
  alloc : Memory → Addr

def Hosted.next (cfg : Config) (temp : Addr) (x : Hosted) (e : HostedInput) : Option Hosted :=
  match MainLoop.next cfg x.server e.input,
    heapStep e.alloc temp x.server e.input x.handles x.memory with
  | some t, .ok (m, handles, _) => some ⟨t, m, handles⟩
  | _, _ => none

def HostedRun (cfg : Config) (temp : Addr) (tr : List (Hosted × HostedInput)) (x : Hosted) : Prop :=
  Path (fun a e b => a.next cfg temp e = some b) ⟨initial cfg, ∅, []⟩ tr x

/-- The messages that were stored in a run. -/
def storedTotal (tr : List (Hosted × HostedInput)) : ℕ :=
  (tr.map fun e => storedBy e.1.server e.2.input).sum

/-- The heap holds the queues of the records, their cells, and the messages that were stored. -/
structure Housed (temp : Addr) (clients : List Client) (handles : List Addr) (m : Memory)
    (store : Store) (stored : ℕ) : Prop where
  represents : Represents m store
  kept : Kept temp store clients handles
  nodup : handles.Nodup
  absent : ∀ q ∉ handles, store.queues q = none
  blocks : store.blocks.card = stored

section Steps

variable {alloc : Memory → Addr} {temp : Addr} {cfg : Config} {s t : Server} {i : Input}
  {sends : List Send} {m : Memory} {store : Store} {handles : List Addr} {stored : ℕ}
  {clients clients' : List Client}

theorem Kept.records (h : Kept temp store clients handles)
    (hsame : List.Forall₂ (fun c c' => c'.inWaiting = c.inWaiting) clients clients') :
    Kept temp store clients' handles := by
  induction h generalizing clients' with
  | nil =>
    cases hsame
    exact List.Forall₂.nil
  | cons hhead _ ih =>
    cases hsame with
    | cons hfirst hrest =>
      refine List.Forall₂.cons ?_ (ih hrest)
      rw [hfirst]
      exact hhead

theorem Housed.records (h : Housed temp clients handles m store stored)
    (hsame : List.Forall₂ (fun c c' => c'.inWaiting = c.inWaiting) clients clients') :
    Housed temp clients' handles m store (stored + 0) :=
  ⟨h.represents, h.kept.records hsame, h.nodup, h.absent, h.blocks⟩

/-- What a datagram adds to the queues. -/
theorem waitingCount_kept (text : Bytes) : waitingCount (clients.map (kept text)) =
    waitingCount clients +
      (clients.map fun c => if c.sock = -1 then storedIn text c.topics c.sfs else 0).sum := by
  induction clients with
  | nil => rfl
  | cons c rest ih =>
    have hhead : (kept text c).inWaiting.length =
        c.inWaiting.length + if c.sock = -1 then storedIn text c.topics c.sfs else 0 := by
      unfold kept
      split
      · rw [List.length_append, List.length_replicate]
      · rfl
    simp only [waitingCount, List.map_cons, List.sum_cons] at ih ⊢
    rw [hhead]
    omega

theorem Housed.publish (halloc : Mallocs alloc) {bytes : Bytes} {addr : SockaddrIn}
    {locals : UdpLocals} {p : Published} (h : Housed temp s.clients handles m store stored)
    (hp : receiveUdpMessage s.sendBuffer bytes addr locals s.stack s.clients = .ok p) :
    ∃ m' store', storeClients alloc temp
        (datagramTopic locals.topic (receiveDatagram s.sendBuffer bytes)) s.clients handles m = .ok m' ∧
      Housed temp p.clients handles m' store' (stored + storedBy s (.datagram bytes addr locals)) := by
  have hclients := (receiveUdpMessage_spec hp).clients_eq
  obtain ⟨⟨routed, r⟩, hroute, hout⟩ := bind_eq_ok.mp hp
  cases hout
  obtain ⟨m', store', hloop, hrep, hkept, hothers, hcard⟩ :=
    storeClients_spec halloc hroute h.represents h.kept h.nodup
  refine ⟨m', store', hloop, hrep, hkept, h.nodup, ?_, ?_⟩
  · intro q hq
    rw [hothers q hq]
    exact h.absent q hq
  · simp only at hclients
    rw [hclients, waitingCount_kept] at hcard
    have hbefore := h.blocks
    simp only [storedBy]
    omega

theorem Housed.identify (halloc : Mallocs alloc) {fd : ℕ} {data : Block bufferServerLen}
    {following : Bytes} {r : Handled} (h : Housed temp s.clients handles m store stored)
    {word : DeadWord} (hr : handleIdClient fd data following word s.clients = .ok r) :
    ∃ m' handles' messages store',
      recallClients alloc data.bytes s.clients handles m = .ok (m', handles', messages) ∧
      Housed temp r.clients handles' m' store' stored ∧
      (∀ a ∈ messages, a = temp) ∧ r.sends.map Send.frame = word.frames messages.length := by
  have hsettled := handled_settled hr
  have hclients := congrArg Prod.fst hsettled
  have hsends := congrArg Prod.snd hsettled
  obtain ⟨m', handles', messages, store', hloop, hout, htemp, hmessages⟩ := recallClients_spec halloc fd
    data.bytes word (show (newClient fd data following).inWaiting = [] from rfl) h.represents h.kept
    h.nodup
  rw [← hclients] at hout
  rw [← hsends] at hmessages
  refine ⟨m', handles', messages, store', hloop, ⟨hout.represents, hout.kept, hout.nodup, ?_, ?_⟩,
    htemp, hmessages⟩
  · intro q hq
    rw [hout.others q hq]
    exact h.absent q fun hin => hq (hout.keeps q hin)
  · rw [hout.blocks]
    exact h.blocks

theorem heapStep_read {curr : Finset ℕ} {fd : ℕ} {bytes : Bytes} (locals : ReadLocals)
    (hvisit : Visits s curr fd) : heapStep alloc temp s (.read bytes locals) handles m =
      match dispatch s.receiveID bytes.length with
      | .idClient => recallClients alloc (s.sendBuffer.receive bytes).bytes s.clients handles m
      | _ => .ok (m, handles, []) := by
  simp only [heapStep, hvisit.pc_eq]

/-- What the server does in a step it can do on the heap. -/
theorem heapStep_spec (halloc : Mallocs alloc) (hstep : Step cfg s i t sends)
    (h : Housed temp s.clients handles m store stored) :
    ∃ m' handles' messages store', heapStep alloc temp s i handles m = .ok (m', handles', messages) ∧
      Housed temp t.clients handles' m' store' (stored + storedBy s i) ∧
      (∀ a ∈ messages, a = temp) ∧ ∀ bytes locals, i = .read bytes locals →
        sends.map Send.frame = (deadWord s i).frames messages.length := by
  have hnone : ∀ a ∈ ([] : List Addr), a = temp := fun a ha => absurd ha List.not_mem_nil
  cases hstep with
  | publish curr bytes addr locals p hvisit hp =>
    obtain ⟨m', store', hloop, hhoused⟩ := h.publish halloc hp
    refine ⟨m', handles, [], store', ?_, hhoused, hnone, fun _ _ hi => by cases hi⟩
    simp only [heapStep, hvisit.pc_eq, hloop, ok_bind]
  | disconnect curr fd locals hvisit hfd hpeer =>
    refine ⟨m, handles, [], store, heapStep_read locals hvisit, ?_, hnone, fun _ _ _ => rfl⟩
    refine h.records ?_
    change List.Forall₂ _ s.clients (disconnectClient fd s.clients).1
    rw [disconnectClient_eq, List.forall₂_map_right_iff, List.forall₂_same]
    intro c _
    unfold released
    split <;> rfl
  | identify curr fd bytes locals r hvisit hfd hpeer hne hlen hflag hr =>
    obtain ⟨m', handles', messages, store', hloop, hhoused, htemp, hmessages⟩ := h.identify halloc hr
    refine ⟨m', handles', messages, store', ?_, hhoused, htemp, fun _ _ _ => hmessages⟩
    rw [heapStep_read locals hvisit, Refinement.dispatch_nonempty hne, if_pos hflag]
    exact hloop
  | request curr fd bytes locals clients hvisit hfd hpeer hne hlen hflag hr =>
    refine ⟨m, handles, [], store, ?_, ?_, hnone, fun _ _ _ => rfl⟩
    · rw [heapStep_read locals hvisit, Refinement.dispatch_nonempty hne, hflag]
      rfl
    · refine h.records ((Requests.handleRequest_edits hr).imp fun c c' hedit => ?_)
      rw [hedit.frame.1]
  | _ => exact ⟨m, handles, [], store, rfl, h, hnone, fun _ _ _ => rfl⟩

end Steps

section Runs

variable {temp : Addr} {cfg : Config} {tr : List (Hosted × HostedInput)} {x : Hosted}

theorem hosted_next_cases {y : Hosted} {e : HostedInput} (h : x.next cfg temp e = some y) :
    MainLoop.next cfg x.server e.input = some y.server ∧
      ∃ messages, heapStep e.alloc temp x.server e.input x.handles x.memory =
        .ok (y.memory, y.handles, messages) := by
  unfold Hosted.next at h
  split at h
  · rename_i hnext hheap
    cases h
    exact ⟨hnext, _, hheap⟩
  · cases h

theorem housed_initial (temp : Addr) : Housed temp (initial cfg).clients [] ∅ noQueues 0 :=
  ⟨represents_empty, List.Forall₂.nil, List.nodup_nil, fun _ _ => rfl, Finset.card_empty⟩

theorem run_housed (h : HostedRun cfg temp tr x) (halloc : ∀ e ∈ tr, Mallocs e.2.alloc) :
    ∃ store, Housed temp x.server.clients x.handles x.memory store (storedTotal tr) := by
  refine Path.invariant (fun tr x => (∀ e ∈ tr, Mallocs e.2.alloc) →
    ∃ store, Housed temp x.server.clients x.handles x.memory store (storedTotal tr)) ?_ ?_ h halloc
  · exact fun _ => ⟨noQueues, housed_initial temp⟩
  · intro tr x e y _ ih hnext halloc
    obtain ⟨store, hhoused⟩ := ih fun e he => halloc e (List.mem_append_left _ he)
    obtain ⟨hserver, messages, hheap⟩ := hosted_next_cases hnext
    obtain ⟨sends, hstep, _⟩ := next_cases hserver
    obtain ⟨m', handles', messages', store', hheap', hhoused', _, _⟩ :=
      heapStep_spec (halloc (x, e) (by simp)) hstep hhoused
    rw [hheap] at hheap'
    cases hheap'
    refine ⟨store', ?_⟩
    have htotal : storedTotal (tr ++ [(x, e)]) = storedTotal tr + storedBy x.server e.input := by
      simp only [storedTotal, List.map_append, List.sum_append, List.map_cons, List.map_nil,
        List.sum_singleton]
    rw [htotal]
    exact hhoused'

/-- Whatever addresses `malloc` gives, the server can make its calls on the heap: no
assertion fails, and the calls touch no header, cell or block that is not in use. All that
is taken out of a queue is the address of the stack word, and a returning client is sent
what that word points at in as many reads. The queues on the heap are those of the records,
and the heap keeps every message that was ever stored. -/
theorem queues_hosted (h : HostedRun cfg temp tr x) (halloc : ∀ e ∈ tr, Mallocs e.2.alloc) :
    (∃ store, Housed temp x.server.clients x.handles x.memory store (storedTotal tr)) ∧
    ∀ i alloc t, MainLoop.next cfg x.server i = some t → Mallocs alloc →
      ∃ m handles messages, heapStep alloc temp x.server i x.handles x.memory =
          .ok (m, handles, messages) ∧ (∀ a ∈ messages, a = temp) ∧
        ∀ bytes locals, i = .read bytes locals → (sent cfg x.server i).map Send.frame =
          (deadWord x.server i).frames messages.length := by
  obtain ⟨store, hhoused⟩ := run_housed h halloc
  refine ⟨⟨store, hhoused⟩, ?_⟩
  intro i alloc t hnext hmalloc
  obtain ⟨sends, hstep, hsent⟩ := next_cases hnext
  obtain ⟨m, handles, messages, _, hheap, _, htemp, hmessages⟩ :=
    heapStep_spec hmalloc hstep hhoused
  rw [hsent]
  exact ⟨m, handles, messages, hheap, htemp, hmessages⟩

end Runs

/-- The address behind all that are in use. -/
def nextAddress (m : Memory) : Addr := m.keys.sup id + 1

theorem mallocs_nextAddress : Mallocs nextAddress := by
  intro m
  refine ⟨Nat.succ_ne_zero _, fun hin => ?_⟩
  have hle : nextAddress m ≤ m.keys.sup id := Finset.le_sup (f := id) (Finmap.mem_keys.mpr hin)
  exact absurd hle (Nat.not_succ_le_self _)

/-- Two messages are stored for a client that is away, and it connects again. -/
def hostedInputs : List HostedInput := (StoreForward.awayInputs [120, 121]).map (⟨·, nextAddress⟩)

theorem queues_hosted_return :
    ∃ tr x m handles messages, HostedRun usual 1 tr x ∧
      (∃ store, Housed 1 x.server.clients x.handles x.memory store 2) ∧
      heapStep nextAddress 1 x.server (readInput (idMessage 97)) x.handles x.memory =
        .ok (m, handles, messages) ∧
      (sent usual x.server (readInput (idMessage 97))).length = 2 ∧
      (∀ a ∈ messages, a = 1) ∧
      (sent usual x.server (readInput (idMessage 97))).map Send.frame =
        (deadWord x.server (readInput (idMessage 97))).frames messages.length := by
  obtain ⟨x, hx, hend⟩ := (Option.any_eq_true _ _).mp
    (show (exec (Hosted.next usual 1) ⟨initial usual, ∅, []⟩ hostedInputs).any (fun x => decide
      (storedTotal (traceOf (Hosted.next usual 1) ⟨initial usual, ∅, []⟩ hostedInputs) = 2 ∧
        (next usual x.server (readInput (idMessage 97))).isSome = true ∧
        (sent usual x.server (readInput (idMessage 97))).length = 2)) = true by decide +kernel)
  obtain ⟨htotal, hsome, hlength⟩ := of_decide_eq_true hend
  obtain ⟨t, ht⟩ := Option.isSome_iff_exists.mp hsome
  have hrun := path_of_exec (Hosted.next usual 1) hx
  have halloc : ∀ e ∈ traceOf (Hosted.next usual 1) ⟨initial usual, ∅, []⟩ hostedInputs,
      Mallocs e.2.alloc := by
    intro e he
    obtain ⟨i, _, hi⟩ := List.mem_map.mp (mem_traceOf _ he)
    rw [← hi]
    exact mallocs_nextAddress
  obtain ⟨hhoused, hsteps⟩ := queues_hosted hrun halloc
  obtain ⟨m, handles, messages, hheap, htemp, hmessages⟩ :=
    hsteps _ nextAddress t ht mallocs_nextAddress
  rw [htotal] at hhoused
  exact ⟨_, x, m, handles, messages, hrun, hhoused, hheap, hlength, htemp, hmessages _ _ rfl⟩

end TopicBroker.WaitingQueues
