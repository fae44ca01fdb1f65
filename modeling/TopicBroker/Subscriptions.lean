import TopicBroker.NewestFirst
import TopicBroker.Persistence

/-!
Subscription tables. The pairs of a record's topics and flags are those that the requests
handled for it leave, one after the other: a subscribe puts its pair in front, and an
unsubscribe that is handled to completion takes away the last pair if that has its topic.
So a topic is in the table once for every request that put it there, and its first pair
has the flag of the latest one.
-/
namespace TopicBroker.Subscriptions

open ByteBlocks Message Frames Registry Requests Publish MainLoop Runs Persistence NewestFirst

def text (topic : Topic) : Bytes := cstr topic.bytes

/-- The request that a step handles for a record. -/
def requestTo (s : Server) (i : Input) (c : Client) : Option Request :=
  match i, s.pc with
  | .read bytes locals, .scan _ fd =>
    if bytes ≠ [] ∧ s.receiveID = false ∧ c.sock = fd then
      some (requestOf (s.sendBuffer.receive bytes) locals.topic)
    else none
  | _, _ => none

/-- A request put in front of the subscribe requests before it. -/
def recorded (history : List (Topic × CInt)) : Option Request → List (Topic × CInt)
  | some (.subscribe topic sf) => (topic, sf) :: history
  | _ => history

def subscribesNext (j : ℕ) (history : List (Topic × CInt)) (e : Server × Input) :
    List (Topic × CInt) :=
  recorded history ((e.1.clients[j]?).bind (requestTo e.1 e.2))

/-- The subscribe requests handled for the record at a position, the newest first. -/
def subscribes (j : ℕ) (tr : List (Server × Input)) : List (Topic × CInt) :=
  tr.foldl (subscribesNext j) []

/-- What a request that is handled to completion leaves of a table. -/
def tableAfter (table : List (Topic × CInt)) : Option Request → List (Topic × CInt)
  | some (.subscribe topic sf) => (topic, sf) :: table
  | some (.unsubscribe topic) =>
    if (table.getLast?).any (fun p => text p.1 = cstr topic) then table.dropLast else table
  | _ => table

def tableNext (j : ℕ) (table : List (Topic × CInt)) (e : Server × Input) : List (Topic × CInt) :=
  tableAfter table ((e.1.clients[j]?).bind (requestTo e.1 e.2))

/-- The pairs that the requests handled for the record at a position leave. -/
def table (j : ℕ) (tr : List (Server × Input)) : List (Topic × CInt) := tr.foldl (tableNext j) []

/-- The topics and the flags of a record side by side are the pairs of a table. -/
structure Tabled (pairs : List (Topic × CInt)) (c : Client) : Prop where
  length_eq : c.topics.length = c.sfs.length
  zip_eq : c.topics.zip c.sfs = pairs

/-- No unsubscribe request for the record finds its topic. -/
def Unremoved (j : ℕ) (tr : List (Server × Input)) : Prop :=
  ∀ e ∈ tr, ∀ c topic, e.1.clients[j]? = some c →
    requestTo e.1 e.2 c = some (.unsubscribe topic) → ∀ t ∈ c.topics, text t ≠ cstr topic

/-- The client subscribes only to topics that are not in its table. -/
def Novel (j : ℕ) (tr : List (Server × Input)) : Prop :=
  ∀ e ∈ tr, ∀ c topic sf, e.1.clients[j]? = some c →
    requestTo e.1 e.2 c = some (.subscribe topic sf) → ∀ t ∈ c.topics, text t ≠ text topic

section Steps

variable {cfg : Config} {tr : List (Server × Input)} {s t : Server} {i : Input} {j : ℕ}
  {c c' : Client} {sends : List Send}

theorem subscribes_concat (j : ℕ) (tr : List (Server × Input)) (e : Server × Input) :
    subscribes j (tr ++ [e]) =
      recorded (subscribes j tr) ((e.1.clients[j]?).bind (requestTo e.1 e.2)) := by
  rw [subscribes, subscribes, List.foldl_append, List.foldl_cons, List.foldl_nil, subscribesNext]

theorem table_concat (j : ℕ) (tr : List (Server × Input)) (e : Server × Input) :
    table j (tr ++ [e]) = tableAfter (table j tr) ((e.1.clients[j]?).bind (requestTo e.1 e.2)) := by
  rw [table, table, List.foldl_append, List.foldl_cons, List.foldl_nil, tableNext]

theorem table_unborn_step (hc : s.clients[j]? = none) : table j (tr ++ [(s, i)]) = table j tr := by
  rw [table_concat, hc, Option.bind_none]
  rfl

/-- A step edits a record by the request that it handles for it, or leaves its
subscriptions alone. -/
theorem step_edit (h : Step cfg s i t sends) (hc : s.clients[j]? = some c)
    (hc' : t.clients[j]? = some c') :
    (∃ (fd : ℕ) (r : Request), requestTo s i c = some r ∧ c.sock = fd ∧ Edit fd r c c') ∨
      (requestTo s i c = none ∧ c'.topics = c.topics ∧ c'.sfs = c.sfs) := by
  cases hr : requestTo s i c with
  | none =>
    refine Or.inr ⟨rfl, ?_⟩
    by_contra hne
    obtain ⟨fd, ⟨curr, bytes, locals, rfl, hread, hflag⟩, hsock⟩ :=
      (step_change h hc hc').framed.subscriptions (not_and_or.mp hne)
    simp only [requestTo, hread.visits.pc_eq] at hr
    rw [if_pos ⟨hread.nonempty, hflag, hsock⟩] at hr
    cases hr
  | some r =>
    refine Or.inl ?_
    cases h with
    | disconnect curr fd locals hvisit hfd hpeer => simp [requestTo, hvisit.pc_eq] at hr
    | identify curr fd bytes locals r' hvisit hfd hpeer hne hlen hflag hr' =>
      simp [requestTo, hvisit.pc_eq, hflag] at hr
    | request curr fd bytes locals clients hvisit hfd hpeer hne hlen hflag hr' =>
      simp only [requestTo, hvisit.pc_eq] at hr
      split_ifs at hr with hcond
      cases hr
      obtain ⟨d, hd, hedit⟩ := getElem?_of_forall₂ (handleRequest_edits hr') hc
      rw [show clients[j]? = some c' from hc', Option.some.injEq] at hd
      subst hd
      exact ⟨fd, _, rfl, hcond.2.2, hedit⟩
    | _ => simp [requestTo] at hr

/-- An unsubscribe whose topic is not in the table leaves it. -/
theorem tableAfter_absent {pairs : List (Topic × CInt)} {topic : Bytes}
    (hnone : ∀ p ∈ pairs, text p.1 ≠ cstr topic) :
    tableAfter pairs (some (.unsubscribe topic)) = pairs := by
  rw [tableAfter, if_neg]
  rw [Option.any_eq_true]
  rintro ⟨p, hlast, hp⟩
  exact hnone p (List.mem_of_getLast? hlast) (of_decide_eq_true hp)

theorem zip_dropLast {topics : List Topic} {sfs : List CInt} (h : topics.length = sfs.length) :
    topics.dropLast.zip sfs.dropLast = (topics.zip sfs).dropLast := by
  rw [List.dropLast_eq_take, List.dropLast_eq_take, List.dropLast_eq_take, List.length_zip, ← h,
    min_self, List.zip_eq_zipWith, List.zip_eq_zipWith, List.take_zipWith]

theorem getLast?_zip {topics : List Topic} {sfs : List CInt} (h : topics.length = sfs.length)
    {t : Topic} (hlast : topics.getLast? = some t) :
    ∃ sf, (topics.zip sfs).getLast? = some (t, sf) := by
  have hlength : (topics.zip sfs).length - 1 = topics.length - 1 := by
    rw [List.length_zip, ← h, min_self]
  rw [List.getLast?_eq_getElem?] at hlast
  have hlt : topics.length - 1 < sfs.length := h ▸ (List.getElem?_eq_some_iff.mp hlast).1
  refine ⟨sfs[topics.length - 1], ?_⟩
  rw [List.getLast?_eq_getElem?, hlength]
  exact List.getElem?_zip_eq_some.mpr ⟨hlast, List.getElem?_eq_getElem hlt⟩

/-- An edit of a record is that of its table. -/
theorem Tabled.edit {pairs : List (Topic × CInt)} (h : Tabled pairs c) {fd : ℤ} {r : Request}
    (hsock : c.sock = fd) (hedit : Edit fd r c c') : Tabled (tableAfter pairs (some r)) c' := by
  obtain ⟨hlength, rfl⟩ := h
  cases hedit with
  | elsewhere _ _ hother => exact absurd hsock hother
  | subscribe topic sf _ _ => exact ⟨by simp only [List.length_cons, hlength], rfl⟩
  | absent topic _ _ hnone =>
    refine ⟨hlength, (tableAfter_absent fun p hp => ?_).symm⟩
    exact hnone p.1 (List.of_mem_zip hp).1
  | unsubscribe topic _ t _ _ hlast hmatch =>
    refine ⟨by simp only [List.length_dropLast, hlength], ?_⟩
    obtain ⟨sf, hpair⟩ := getLast?_zip hlength hlast
    rw [tableAfter, if_pos (by rw [hpair]; exact decide_eq_true hmatch)]
    exact zip_dropLast hlength
  | invalid _ _ => exact ⟨hlength, rfl⟩

/-- The table is a front of the subscribe requests. -/
theorem table_front (j : ℕ) (tr : List (Server × Input)) : table j tr <+: subscribes j tr := by
  induction tr using List.reverseRecOn with
  | nil => exact List.nil_prefix
  | append_singleton tr e ih =>
    rw [table_concat, subscribes_concat]
    cases (e.1.clients[j]?).bind (requestTo e.1 e.2) with
    | none => exact ih
    | some r =>
      cases r with
      | subscribe topic sf => exact List.cons_prefix_cons.mpr ⟨rfl, ih⟩
      | unsubscribe topic =>
        rw [tableAfter]
        split
        · exact (List.dropLast_prefix _).trans ih
        · exact ih
      | invalid => exact ih

/-- The texts of a table stay distinct as long as only new ones are put in front. -/
theorem nodup_edit (h : (c.topics.map text).Nodup) {fd : ℤ} {r : Request} (hsock : c.sock = fd)
    (hnovel : ∀ topic sf, r = .subscribe topic sf → ∀ t ∈ c.topics, text t ≠ text topic)
    (hedit : Edit fd r c c') : (c'.topics.map text).Nodup := by
  cases hedit with
  | elsewhere _ _ hother => exact absurd hsock hother
  | subscribe topic sf _ _ =>
    rw [List.map_cons, List.nodup_cons]
    refine ⟨?_, h⟩
    intro hmem
    obtain ⟨t, ht, htext⟩ := List.mem_map.mp hmem
    exact hnovel topic sf rfl t ht htext
  | absent topic _ _ hnone => exact h
  | unsubscribe topic _ t _ hlength hlast hmatch =>
    exact h.sublist ((List.dropLast_sublist _).map text)
  | invalid _ _ => exact h

end Steps

section Runs

variable {cfg : Config} {tr : List (Server × Input)} {s : Server} {j : ℕ} {c : Client}

/-- No request is handled for a record before it is there. -/
theorem table_unborn (h : Run cfg tr s) (hc : s.clients[j]? = none) : table j tr = [] := by
  refine run_invariant (fun tr s => s.clients[j]? = none → table j tr = []) (fun _ => rfl) ?_ h hc
  intro tr s i t sends _ ih hstep _ hnone
  have hbefore : s.clients[j]? = none := by
    by_contra hsome
    obtain ⟨c, hc⟩ := Option.ne_none_iff_exists'.mp hsome
    obtain ⟨c', hc', _⟩ := step_record hstep hc
    rw [hnone] at hc'
    cases hc'
  rw [table_unborn_step hbefore]
  exact ih hbefore

theorem run_tabled (h : Run cfg tr s) (hc : s.clients[j]? = some c) : Tabled (table j tr) c := by
  refine run_invariant (fun tr s => ∀ j c, s.clients[j]? = some c → Tabled (table j tr) c)
    ?_ ?_ h j c hc
  · intro j c hc
    simp [initial] at hc
  · intro tr s i t sends hrun ih hstep _ j c' hc'
    rcases record_origin hstep hc' with ⟨c, hc, _⟩ | ⟨hlast, hadded⟩
    · rw [table_concat, hc, Option.bind_some]
      rcases step_edit hstep hc hc' with ⟨fd, r, hr, hsock, hedit⟩ | ⟨hr, htopics, hsfs⟩
      · rw [hr]
        exact (ih j c hc).edit hsock hedit
      · rw [hr]
        refine ⟨?_, ?_⟩
        · rw [htopics, hsfs]
          exact (ih j c hc).length_eq
        · rw [htopics, hsfs]
          exact (ih j c hc).zip_eq
    · have hborn : s.clients[j]? = none := List.getElem?_eq_none (by omega)
      have hempty : table j (tr ++ [(s, i)]) = [] := by
        rw [table_unborn_step hborn]
        exact table_unborn hrun hborn
      rw [hempty]
      cases hadded with
      | client curr fd bytes locals hread hflag hnone => exact ⟨rfl, rfl⟩

/-- The two columns of every table are of one length. -/
theorem run_aligned (h : Run cfg tr s) : ∀ c ∈ s.clients, c.topics.length = c.sfs.length := by
  intro c hc
  obtain ⟨j, hj⟩ := List.mem_iff_getElem?.mp hc
  exact (run_tabled h hj).length_eq

/-- As long as no topic was found to be removed the table is all of the subscribe requests. -/
theorem table_unremoved (h : Run cfg tr s) :
    Unremoved j tr → table j tr = subscribes j tr := by
  refine run_invariant (fun tr _ => Unremoved j tr → table j tr = subscribes j tr)
    (fun _ => rfl) ?_ h
  intro tr s i t sends hrun ih hstep _ hkept
  have hbefore := ih fun e he => hkept e (List.mem_append_left _ he)
  rw [table_concat, subscribes_concat, ← hbefore]
  cases hc : s.clients[j]? with
  | none => rfl
  | some c =>
    rw [Option.bind_some]
    cases hr : requestTo s i c with
    | none => rfl
    | some r =>
      cases r with
      | subscribe topic sf => rfl
      | invalid => rfl
      | unsubscribe topic =>
        refine tableAfter_absent fun p hp => ?_
        rw [← (run_tabled hrun hc).zip_eq] at hp
        exact hkept (s, i) (List.mem_append_right _ (List.mem_singleton_self _)) c topic hc hr p.1
          (List.of_mem_zip hp).1

theorem run_nodup (h : Run cfg tr s) (hnovel : Novel j tr) (hc : s.clients[j]? = some c) :
    (c.topics.map text).Nodup := by
  refine run_invariant (fun tr s => Novel j tr → ∀ c, s.clients[j]? = some c →
    (c.topics.map text).Nodup) ?_ ?_ h hnovel c hc
  · intro _ c hc
    simp [initial] at hc
  · intro tr s i t sends _ ih hstep _ hnovel c' hc'
    have hbefore : Novel j tr := fun e he => hnovel e (List.mem_append_left _ he)
    rcases record_origin hstep hc' with ⟨c, hc, _⟩ | ⟨_, hadded⟩
    · rcases step_edit hstep hc hc' with ⟨fd, r, hr, hsock, hedit⟩ | ⟨hr, htopics, hsfs⟩
      · refine nodup_edit (ih hbefore c hc) hsock ?_ hedit
        rintro topic sf rfl
        exact hnovel (s, i) (List.mem_append_right _ (List.mem_singleton_self _)) c topic sf hc hr
      · rw [htopics]
        exact ih hbefore c hc
    · cases hadded with
      | client curr fd bytes locals hread hflag hnone => exact List.nodup_nil

end Runs

theorem copiesIn_le_one {topics : List Topic} (h : (topics.map text).Nodup) (x : Bytes) :
    copiesIn x topics ≤ 1 := by
  have hcount : copiesIn x topics = (topics.map text).count x := by
    rw [copiesIn, List.count, List.countP_map]
    apply List.countP_congr
    intro t _
    simp [text]
  rw [hcount]
  exact List.nodup_iff_count_le_one.mp h x

theorem storedIn_le_copiesIn (x : Bytes) (topics : List Topic) (sfs : List CInt) :
    storedIn x topics sfs ≤ copiesIn x topics := by
  induction topics generalizing sfs with
  | nil => simp [storedIn]
  | cons t rest ih =>
    by_cases hmatch : cstr t.bytes = x
    · rw [copiesIn_hit hmatch]
      cases sfs with
      | nil => simp [storedIn]
      | cons sf sfs =>
        have hle := ih sfs
        by_cases hone : sf = 1
        · rw [hone, storedIn_hit hmatch]
          omega
        · rw [storedIn_live hone]
          omega
    · rw [storedIn_skip hmatch, copiesIn_skip hmatch]
      exact ih sfs.tail

section Flags

variable {pairs history : List (Topic × CInt)} {c : Client}

/-- The first pair of a topic has the flag of the latest request for it. -/
theorem Tabled.flag_of_first (h : Tabled pairs c) (hfront : pairs <+: history) {n : ℕ}
    {topic : Topic} {sf : CInt} (htopic : c.topics[n]? = some topic) (hsf : c.sfs[n]? = some sf)
    (hfirst : ∀ m < n, ∀ t, c.topics[m]? = some t → text t ≠ text topic) :
    latest text (text topic) history = some sf := by
  rw [← h.zip_eq] at hfront
  apply latest_of_front hfront
  apply latest_of_first (List.getElem?_zip_eq_some.mpr ⟨htopic, hsf⟩)
  intro m hm b w hb
  exact hfirst m hm b (List.getElem?_zip_eq_some.mp hb).1

/-- In a table of distinct topics every pair has the flag of the latest request. -/
theorem Tabled.flag_of_nodup (h : Tabled pairs c) (hfront : pairs <+: history)
    (hnodup : (c.topics.map text).Nodup) {topic : Topic} {sf : CInt}
    (hmem : (topic, sf) ∈ c.topics.zip c.sfs) :
    latest text (text topic) history = some sf := by
  have hkeys : (c.topics.zip c.sfs).map (fun p => text p.1) = c.topics.map text := by
    have hfst := List.map_fst_zip (le_of_eq h.length_eq)
    calc (c.topics.zip c.sfs).map (fun p => text p.1)
        = ((c.topics.zip c.sfs).map Prod.fst).map text := by
          rw [List.map_map]
          rfl
      _ = c.topics.map text := by rw [hfst]
  rw [← h.zip_eq] at hfront
  apply latest_of_front hfront
  exact latest_of_nodup (by rw [hkeys]; exact hnodup) hmem

/-- Storing is asked for by a pair of the table. -/
theorem mem_of_storedIn {x : Bytes} {topics : List Topic} {sfs : List CInt}
    (h : 0 < storedIn x topics sfs) : ∃ topic, text topic = x ∧ (topic, 1) ∈ topics.zip sfs := by
  obtain ⟨⟨topic, sf⟩, hmem, hp⟩ := List.countP_pos_iff.mp h
  obtain ⟨htext, rfl⟩ := of_decide_eq_true hp
  exact ⟨topic, htext, hmem⟩

end Flags

/-- The table of every record in every reachable state, and what a datagram does by it. -/
theorem subscription_tables {cfg : Config} {tr : List (Server × Input)} {s : Server} {j : ℕ}
    {c : Client} (h : Run cfg tr s) (hc : s.clients[j]? = some c) :
    (c.topics.length = c.sfs.length ∧ c.topics.zip c.sfs = table j tr ∧
      table j tr <+: subscribes j tr ∧ (Unremoved j tr → table j tr = subscribes j tr) ∧
      ∀ (n : ℕ) (topic : Topic) (sf : CInt), c.topics[n]? = some topic → c.sfs[n]? = some sf →
        (∀ m < n, ∀ t, c.topics[m]? = some t → text t ≠ text topic) →
        latest text (text topic) (subscribes j tr) = some sf) ∧
    (∀ bytes addr locals t, next cfg s (.datagram bytes addr locals) = some t →
      sent cfg s (.datagram bytes addr locals) =
        s.clients.flatMap (routed (topicText bytes) (frameOf (padded bytes) addr)) ∧
      t.clients = s.clients.map (kept (topicText bytes))) ∧
    (Novel j tr → (c.topics.map text).Nodup ∧
      (∀ topic sf, (topic, sf) ∈ c.topics.zip c.sfs →
        latest text (text topic) (subscribes j tr) = some sf) ∧
      ∀ x, copiesIn x c.topics ≤ 1 ∧ storedIn x c.topics c.sfs ≤ 1 ∧
        (0 < storedIn x c.topics c.sfs → latest text x (subscribes j tr) = some 1)) := by
  have htabled := run_tabled h hc
  have hfront := table_front j tr
  refine ⟨⟨htabled.length_eq, htabled.zip_eq, hfront, table_unremoved h, ?_⟩, ?_, ?_⟩
  · intro n topic sf htopic hsf hfirst
    exact htabled.flag_of_first hfront htopic hsf hfirst
  · intro bytes addr locals t hnext
    obtain ⟨sends, hstep, hsent⟩ := next_cases hnext
    rw [hsent]
    cases hstep with
    | publish curr _ _ _ p hvisit hp =>
      exact ⟨(receiveUdpMessage_spec hp).sends_eq, (receiveUdpMessage_spec hp).clients_eq⟩
  · intro hnovel
    have hnodup := run_nodup h hnovel hc
    refine ⟨hnodup, fun topic sf hmem => htabled.flag_of_nodup hfront hnodup hmem, ?_⟩
    intro x
    have hcopies := copiesIn_le_one hnodup x
    refine ⟨hcopies, (storedIn_le_copiesIn x c.topics c.sfs).trans hcopies, ?_⟩
    intro hstored
    obtain ⟨topic, rfl, hmem⟩ := mem_of_storedIn hstored
    exact htabled.flag_of_nodup hfront hnodup hmem

/-- A client subscribes to one topic twice, with storing and then without. -/
def resubscribeInputs : List Input :=
  roundInputs 5 [(3, .connection 5 true)] ++ roundInputs 5 [(5, readInput (idMessage 97))] ++
  roundInputs 5 [(5, readInput (subscribeMessage 116 1))] ++
  roundInputs 5 [(5, readInput (subscribeMessage 116 0))]

theorem subscription_tables_resubscribe :
    ∃ tr s c, Run usual tr s ∧ s.clients[0]? = some c ∧ c.sfs = [0, 1] ∧
      c.topics.length = c.sfs.length ∧ c.topics.zip c.sfs = table 0 tr := by
  obtain ⟨tr, s, hrun, hs⟩ := run_of_inputs usual (fun _ s =>
    (s.clients[0]?).any fun c => c.sfs = [0, 1]) resubscribeInputs (by decide +kernel)
  obtain ⟨c, hc, hsfs⟩ := (Option.any_eq_true _ _).mp hs
  have htables := (subscription_tables hrun hc).1
  exact ⟨tr, s, c, hrun, hc, of_decide_eq_true hsfs, htables.1, htables.2.1⟩

/-- The topic is in the table twice, and the second flag is not the latest one. -/
theorem resubscribed_twice :
    ∃ tr s c, Run usual tr s ∧ s.clients[0]? = some c ∧ ¬ (c.topics.map text).Nodup ∧
      ∃ topic, (topic, 1) ∈ c.topics.zip c.sfs ∧
        latest text (text topic) (subscribes 0 tr) = some 0 := by
  obtain ⟨tr, s, hrun, hs⟩ := run_of_inputs usual (fun tr s =>
    (s.clients[0]?).any fun c => ¬ (c.topics.map text).Nodup ∧
      ∃ p ∈ c.topics.zip c.sfs, p.2 = 1 ∧ latest text (text p.1) (subscribes 0 tr) = some 0)
    resubscribeInputs (by decide +kernel)
  obtain ⟨c, hc, hP⟩ := (Option.any_eq_true _ _).mp hs
  obtain ⟨htwice, ⟨topic, sf⟩, hmem, rfl, hlatest⟩ := of_decide_eq_true hP
  exact ⟨tr, s, c, hrun, hc, htwice, topic, hmem, hlatest⟩

end TopicBroker.Subscriptions
