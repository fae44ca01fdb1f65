import TopicBroker.CommandFraming
import TopicBroker.Endings
import TopicBroker.Persistence
import TopicBroker.Release

/-!
What the server makes of a session: what it takes every read for, and what that does to
the registry. A read that stops the server is the last one of its run; it counts among
the reads, and its message is lost.
-/
namespace TopicBroker.Handlings

open ByteBlocks Message Registry Requests Identify Identity MainLoop Runs Removal Subscriptions
  Endings Persistence Release Handshakes Readings CommandFraming

/-- What a message of a session asks of the registry. -/
inductive Performs (fd : ℕ) : Handling → List Client → List Client → Prop
  | refused (text : Bytes) (pre : List Client) (c : Client) (post : List Client)
      (hpre : ∀ d ∈ pre, cstr (d.ID.bytes ++ d.following) ≠ text)
      (hc : cstr (c.ID.bytes ++ c.following) = text) (honline : c.sock ≠ -1) :
      Performs fd (.id text) (pre ++ c :: post) (pre ++ c :: post)
  | resumed (text : Bytes) (pre : List Client) (c : Client) (post : List Client)
      (hpre : ∀ d ∈ pre, cstr (d.ID.bytes ++ d.following) ≠ text)
      (hc : cstr (c.ID.bytes ++ c.following) = text) (hoffline : c.sock = -1) :
      Performs fd (.id text) (pre ++ c :: post) (pre ++ resumed fd c :: post)
  | added (text : Bytes) (clients : List Client) (new : Client)
      (hnone : ∀ d ∈ clients, cstr (d.ID.bytes ++ d.following) ≠ text)
      (hid : idOf new = text.take idLen) (hsock : new.sock = fd) (htopics : new.topics = [])
      (hsfs : new.sfs = []) (hqueue : new.inWaiting = []) :
      Performs fd (.id text) clients (clients ++ [new])
  | subscribe (topic : Topic) (sf : CInt) (clients : List Client)
      (hnamed : ∃ c ∈ clients, c.sock = fd) :
      Performs fd (.subscribe topic sf) clients (clients.map (subscribed topic sf fd))
  | unsubscribe (topic : Bytes) (clients : List Client) (hnamed : ∃ c ∈ clients, c.sock = fd) :
      Performs fd (.unsubscribe topic) clients (clients.map (unsubscribed topic fd))
  | invalid (clients : List Client) : Performs fd .invalid clients clients

/-- A read and the registry after it, if the server goes on. -/
structure Outcome where
  reading : Reading
  after : Option (List Client)

def outcomeOf (cfg : Config) (conn : ℕ) (e : Server × Input) : Option Outcome :=
  (readingOf conn e).map fun r => ⟨r, (next cfg e.1 e.2).map Server.clients⟩

def outcomes (cfg : Config) (conn : ℕ) (tr : List (Server × Input)) : List Outcome :=
  tr.filterMap (outcomeOf cfg conn)

/-- The read is taken for the message, the server goes on, and the registry is what the
message asks for. -/
structure Outcome.Handles (o : Outcome) (m : Handling) : Prop where
  taken : handlingOf o.reading = m
  performed : ∃ after, o.after = some after ∧ Performs o.reading.fd m o.reading.clients after

/-- The messages of the session are handled, each once and in order, and nothing else is. -/
def HandledAs (cfg : Config) (conn : ℕ) (tr : List (Server × Input)) (x : Session) : Prop :=
  List.Forall₂ Outcome.Handles (outcomes cfg conn tr) x.handlings

theorem outcomes_readings (cfg : Config) (conn : ℕ) (tr : List (Server × Input)) :
    (outcomes cfg conn tr).map Outcome.reading = readings conn tr := by
  rw [outcomes, readings, List.map_filterMap]
  congr 1
  funext e
  unfold outcomeOf
  cases readingOf conn e <;> rfl

theorem HandledAs.readings_eq {cfg : Config} {conn : ℕ} {tr : List (Server × Input)} {x : Session}
    (h : HandledAs cfg conn tr x) : (readings conn tr).map handlingOf = x.handlings := by
  rw [← outcomes_readings cfg, List.map_map, ← List.forall₂_eq_eq_eq, List.forall₂_map_left_iff]
  exact h.imp fun _ _ hhandles => hhandles.taken

section Reads

variable {cfg : Config} {tr : List (Server × Input)} {s t : Server} {i : Input} {conn : ℕ}
  {r : Reading}

theorem idle_read {curr : Finset ℕ} {fd : ℕ} {bytes : Bytes} {locals : ReadLocals}
    (hpc : s.pc = .scan curr fd) (h : step cfg s (.read bytes locals) ≠ .error .impossible) :
    Visits s curr fd := by
  have hstep : step cfg s (.read bytes locals) = scanStep cfg s curr fd (.read bytes locals) := by
    simp only [step, hpc]
  rw [hstep] at h
  unfold scanStep at h
  split_ifs at h with hend hmem
  · exact absurd rfl h
  · exact ⟨hpc, not_lt.mp hend, hmem⟩
  · exact absurd rfl h

/-- A read that can come is one from an open connection, and fits the buffer. -/
theorem read_possible {curr : Finset ℕ} {fd : ℕ} {bytes : Bytes} {locals : ReadLocals}
    (hvisit : Visits s curr fd) (hpeer : s.peer fd ≠ none)
    (h : step cfg s (.read bytes locals) ≠ .error .impossible) :
    Connection cfg fd ∧ bytes.length ≤ bufferServerLen := by
  have hserve : serve cfg s fd (.read bytes locals) ≠ .error .impossible := fun he =>
    h ((step_eq_error_iff hvisit fun _ hi => by cases hi).mpr he)
  unfold serve at hserve
  split_ifs at hserve with htcp hudp hstdin
  · exact absurd rfl hserve
  · exact absurd rfl hserve
  · exact absurd rfl hserve
  · simp only at hserve
    refine ⟨?_, ?_⟩
    · rintro (h | h | h)
      · exact hstdin h
      · exact htcp h
      · exact hudp h
    · by_contra hlen
      exact hserve (if_pos (not_le.mp hlen))

theorem handlingOf_unsubscribe {topic : Bytes} (hne : r.bytes ≠ [])
    (h : handlingOf r = .unsubscribe topic) : r.receiveID = false ∧
      ∃ raw, requestOf (r.buffer.receive r.bytes) r.topic = .unsubscribe raw ∧ cstr raw = topic := by
  cases hflag : r.receiveID with
  | true =>
    rw [handlingOf_id hne hflag] at h
    cases h
  | false =>
    rw [handlingOf_request hne hflag] at h
    cases hr : requestOf (r.buffer.receive r.bytes) r.topic with
    | unsubscribe raw =>
      rw [hr] at h
      exact ⟨rfl, raw, rfl, Handling.unsubscribe.inj h⟩
    | _ =>
      rw [hr] at h
      cases h

/-- A read that can come stops the server if and only if it is taken for an unsubscribe
request whose deletion does not come to an end. -/
theorem next_eq_none_iff (hrun : Run cfg tr s) (hr : readingOf conn (s, i) = some r)
    (hposs : step cfg s i ≠ .error .impossible) :
    next cfg s i = none ↔ ∃ topic, handlingOf r = .unsubscribe topic ∧ ¬ Removable r topic := by
  have htables := run_aligned hrun
  obtain ⟨curr, fd, locals, rfl, hpc, hne, hconn, hreading⟩ := readingOf_eq hr
  have hpeer : s.peer fd ≠ none := by
    rw [hconn]
    exact Option.some_ne_none conn
  have hvisit := idle_read hpc hposs
  obtain ⟨hfd, hlen⟩ := read_possible hvisit hpeer hposs
  have hserve : next cfg s (.read r.bytes locals) = none ↔
      ∃ e, serveClient s fd r.bytes locals = .error e := by
    rw [next, step_read locals hvisit hfd hpeer hlen]
    cases hs : serveClient s fd r.bytes locals with
    | error e => exact iff_of_true rfl ⟨e, rfl⟩
    | ok out =>
      refine iff_of_false (fun h => by cases h) ?_
      rintro ⟨e, he⟩
      cases he
  have hremovable : ∀ topic, ¬ Removable r topic ↔
      ∃ c ∈ s.clients, c.sock = fd ∧ ∃ t ∈ c.topics.dropLast, cstr t.bytes = topic := by
    intro topic
    rw [hreading]
    unfold Removable
    push Not
    rfl
  rw [hserve]
  constructor
  · rintro ⟨e, he⟩
    obtain ⟨-, hflag, -, raw, hrequest, hfound⟩ :=
      (serveClient_eq_error htables fd r.bytes locals).mp he
    refine ⟨cstr raw, ?_, (hremovable _).mpr hfound⟩
    rw [handlingOf_request hne (by rw [hreading]; exact hflag)]
    rw [hreading]
    exact congrArg handlingOfRequest hrequest
  · rintro ⟨topic, hhandling, hstuck⟩
    obtain ⟨hflag, raw, hrequest, rfl⟩ := handlingOf_unsubscribe hne hhandling
    rw [hreading] at hflag hrequest
    exact ⟨.undefined, (serveClient_eq_error htables fd r.bytes locals).mpr
      ⟨hne, hflag, rfl, raw, hrequest, (hremovable _).mp hstuck⟩⟩

/-- An ID message is handled as such, in one of its three ways. -/
theorem identify_performs {fd : ℕ} {data : Block bufferServerLen} {following : Bytes}
    {word : DeadWord} {clients : List Client} {out : Handled}
    (h : Handshake fd data following word clients out) :
    Performs fd (.id (cstr data.bytes)) clients out.clients := by
  cases h with
  | refused pre c post hpre hc honline => exact Performs.refused _ pre c post hpre hc honline
  | resumed pre c post hpre hc hoffline => exact Performs.resumed _ pre c post hpre hc hoffline
  | appended _ hnone =>
    exact Performs.added _ clients (newClient fd data following) hnone (cstr_take data.bytes idLen)
      rfl rfl rfl rfl

/-- A request that is handled to completion does what it asks for. -/
theorem request_performs {fd : ℕ} {data : Block bufferServerLen} {topic : Bytes}
    {clients clients' : List Client} (htables : ∀ c ∈ clients, c.topics.length = c.sfs.length)
    (hnamed : ∃ c ∈ clients, c.sock = fd) (h : handleRequest fd data topic clients = .ok clients') :
    Performs fd (handlingOfRequest (requestOf data topic)) clients clients' := by
  unfold handleRequest at h
  cases hrequest : requestOf data topic with
  | subscribe field sf =>
    rw [hrequest] at h
    simp only [subscribe_eq] at h
    cases h
    exact Performs.subscribe field sf clients hnamed
  | unsubscribe raw =>
    rw [hrequest] at h
    have hsame : ∀ c, unsubscribed raw fd c = unsubscribed (cstr raw) fd c := by
      intro c
      have hcstr : cstr (cstr raw) = cstr raw := cstr_of_ne_zero fun b hb => ne_zero_of_mem_cstr hb
      simp only [unsubscribed, remaining, hcstr]
    rw [unsubscribe_map htables h, funext hsame]
    exact Performs.unsubscribe (cstr raw) clients hnamed
  | invalid =>
    rw [hrequest] at h
    cases h
    exact Performs.invalid clients

/-- A read after which the server goes on has done what its message asks for. -/
theorem next_performs (hrun : Run cfg tr s) (hr : readingOf conn (s, i) = some r)
    (hnamed : r.receiveID = false → ∃ c ∈ r.clients, c.sock = r.fd) (h : next cfg s i = some t) :
    Performs r.fd (handlingOf r) r.clients t.clients := by
  obtain ⟨curr, fd, locals, rfl, hpc, hne, -, hreading⟩ := readingOf_eq hr
  obtain ⟨sends, hstep, -⟩ := next_cases h
  have hflag : r.receiveID = s.receiveID := by rw [hreading]
  generalize hbytes : r.bytes = bytes at hstep
  cases hstep with
  | disconnect curr' fd' locals' hvisit hfd hpeer => exact absurd hbytes hne
  | identify curr' fd' bytes' locals' out hvisit hfd hpeer hne' hlen hid hout =>
    obtain rfl := hvisit.fd_eq hpc
    rw [handlingOf_id hne (hflag.trans hid), hreading]
    simp only [hbytes]
    exact identify_performs (handleIdClient_cases _ _ _ _ hout)
  | request curr' fd' bytes' locals' clients hvisit hfd hpeer hne' hlen hid hout =>
    obtain rfl := hvisit.fd_eq hpc
    have hrecord := hnamed (hflag.trans hid)
    rw [handlingOf_request hne (hflag.trans hid)]
    rw [hreading] at hrecord ⊢
    simp only [hbytes]
    exact request_performs (run_aligned hrun) hrecord hout

end Reads

section Named

variable {cfg : Config} {tr : List (Server × Input)} {s t : Server} {i : Input}
  {sends : List Send} {conn : ℕ}

/-- A record that names an open connection goes on naming it. -/
theorem step_named (hstep : Step cfg s i t sends) {fd : ℕ} (hopen : t.peer fd = some conn)
    (h : ∃ c ∈ s.clients, c.sock = fd) : ∃ c ∈ t.clients, c.sock = fd := by
  obtain ⟨c, hc, hsock⟩ := h
  obtain ⟨j, hj⟩ := List.mem_iff_getElem?.mp hc
  obtain ⟨c', hc', hchange⟩ := step_record hstep hj
  refine ⟨c', List.mem_of_getElem? hc', ?_⟩
  cases hchange with
  | keep => exact hsock
  | publish bytes addr locals _ hoffline => omega
  | release curr fd' locals _ hvisit hsock' =>
    obtain rfl : fd' = fd := by omega
    obtain ⟨curr', hbefore, rfl⟩ := closing_eq_some hstep (closing_eq locals hvisit)
    rw [((released_iff curr' hbefore).mpr ⟨c, hc, hsock⟩).closed] at hopen
    cases hopen
  | resume curr fd' bytes locals _ hread hflag hcarries hoffline => omega
  | edit curr fd' bytes locals _ _ hread hflag hsock' hedit =>
    rw [hedit.frame.1]
    exact hsock

/-- An ID message leaves a record that names its connection, or closes the connection. -/
theorem identify_named {fd : ℕ} {data : Block bufferServerLen} {following : Bytes}
    {word : DeadWord} {clients : List Client} {out : Handled}
    (h : Handshake fd data following word clients out) (hopen : out.closes = false) :
    ∃ c ∈ out.clients, c.sock = fd := by
  cases h with
  | refused pre c post hpre hc honline => cases hopen
  | resumed pre c post hpre hc hoffline =>
    exact ⟨resumed fd c, List.mem_append_right _ (List.mem_cons_self ..), rfl⟩
  | appended _ hnone =>
    exact ⟨newClient fd data following, List.mem_append_right _ (List.mem_singleton_self _), rfl⟩

/-- A connection with a read that was taken for an ID is named by a record. -/
theorem run_named (h : Run cfg tr s) :
    ∀ r ∈ readings conn tr, r.receiveID = true →
      conn < s.accepted ∧ ∀ fd, s.peer fd = some conn → ∃ c ∈ s.clients, c.sock = fd := by
  refine run_invariant (fun tr s => ∀ r ∈ readings conn tr, r.receiveID = true →
    conn < s.accepted ∧ ∀ fd, s.peer fd = some conn → ∃ c ∈ s.clients, c.sock = fd)
    (fun r hr => by cases hr) ?_ h
  intro tr s i t sends hrun ih hstep _ r hr hflag
  have hnumbered := run_numbered hrun
  have hmono := step_accepted hstep
  rw [readings_append, List.mem_append] at hr
  rcases hr with hr | hr
  · obtain ⟨hlt, hrecord⟩ := ih r hr hflag
    refine ⟨by omega, fun fd hfd => ?_⟩
    rcases step_peer hstep hfd with hbefore | ⟨hnew, -⟩
    · exact step_named hstep hfd (hrecord fd hbefore)
    · omega
  · obtain ⟨curr, fd, locals, rfl, hpc, hne, hconn, hreading⟩ := readingOf_eq (Option.mem_toList.mp hr)
    have hreceive : s.receiveID = true := by
      rw [← hflag, hreading]
    have hlt := hnumbered.below fd conn hconn
    refine ⟨by omega, fun d hd => ?_⟩
    generalize hbytes : r.bytes = bytes at hstep
    cases hstep with
    | disconnect curr' fd' locals' hvisit hfd hpeer => exact absurd hbytes hne
    | identify curr' fd' bytes' locals' out hvisit hfd hpeer hne' hlen hid hout =>
      obtain rfl := hvisit.fd_eq hpc
      have hbefore := settle_peer out.clients out.closes hd
      obtain rfl := hnumbered.unique d _ conn hbefore hconn
      refine identify_named (handleIdClient_cases _ _ _ _ hout) ?_
      cases hcloses : out.closes with
      | false => rfl
      | true =>
        simp only [settle, hcloses, if_true, Function.update_self] at hd
        cases hd
    | request curr' fd' bytes' locals' clients hvisit hfd hpeer hne' hlen hid hout =>
      rw [hreceive] at hid
      cases hid

end Named

section Sessions

variable {cfg : Config} {tr : List (Server × Input)} {s : Server} {i : Input} {conn : ℕ}
  {x : Session}

/-- Every read belongs to a step of the run, or to the one that is at hand. -/
theorem outcome_step (h : Run cfg tr s) (hposs : step cfg s i ≠ .error .impossible) {o : Outcome}
    (ho : o ∈ outcomes cfg conn (tr ++ [(s, i)])) :
    ∃ pre a j post, tr ++ [(s, i)] = pre ++ (a, j) :: post ∧ Run cfg pre a ∧
      step cfg a j ≠ .error .impossible ∧ readingOf conn (a, j) = some o.reading ∧
      o.after = (next cfg a j).map Server.clients := by
  obtain ⟨⟨a, j⟩, he, hout⟩ := List.mem_filterMap.mp ho
  obtain ⟨r, hr, rfl⟩ := Option.map_eq_some_iff.mp hout
  rcases List.mem_append.mp he with he | he
  · obtain ⟨pre, post, rfl⟩ := List.append_of_mem he
    obtain ⟨b, hpre, hstep, -⟩ := Path.split h
    obtain ⟨sends, hok, -⟩ := next_eq_some hstep
    refine ⟨pre, a, j, post ++ [(s, i)], by simp, hpre, ?_, hr, rfl⟩
    rw [hok]
    exact fun h => by cases h
  · cases List.mem_singleton.mp he
    exact ⟨tr, s, i, [], rfl, h, hposs, hr, rfl⟩

/-- When the first read was taken for an ID, a record names the connection at every request. -/
theorem request_named {pre post : List (Server × Input)} {a : Server} {j : Input} {r r₀ : Reading}
    {rest : List Reading} (h : Run cfg pre a) (hr : readingOf conn (a, j) = some r)
    (hreadings : readings conn (pre ++ (a, j) :: post) = r₀ :: rest) (hfirst : r₀.receiveID = true)
    (hflag : r.receiveID = false) : ∃ c ∈ r.clients, c.sock = r.fd := by
  obtain ⟨curr, fd, locals, -, -, -, hconn, hreading⟩ := readingOf_eq hr
  have hmem : r₀ ∈ readings conn pre := by
    rw [readings, List.filterMap_append, List.filterMap_cons_some hr] at hreadings
    cases hpre : pre.filterMap (readingOf conn) with
    | nil =>
      rw [hpre, List.nil_append, List.cons.injEq] at hreadings
      rw [hreadings.1, hfirst] at hflag
      cases hflag
    | cons q qs =>
      rw [hpre, List.cons_append, List.cons.injEq] at hreadings
      rw [readings, hpre, hreadings.1]
      exact List.mem_cons_self ..
  rw [hreading]
  exact (run_named h r₀ hmem hfirst).2 fd hconn

/-- The server goes on after a read unless a deletion does not come to an end. -/
theorem outcome_goes (h : Run cfg tr s) (hposs : step cfg s i ≠ .error .impossible) {o : Outcome}
    (ho : o ∈ outcomes cfg conn (tr ++ [(s, i)])) :
    (∃ after, o.after = some after) ↔
      ∀ topic, handlingOf o.reading = .unsubscribe topic → Removable o.reading topic := by
  obtain ⟨pre, a, j, post, -, hrun, hstep, hr, hafter⟩ := outcome_step h hposs ho
  have hgoes : (∃ after, o.after = some after) ↔ ¬ next cfg a j = none := by
    rw [hafter, ← Option.ne_none_iff_exists', ne_eq, Option.map_eq_none_iff]
  rw [hgoes, next_eq_none_iff hrun hr hstep]
  push Not
  rfl

/-- If the first read is taken for an ID, every read after which the server goes on has done
what it was taken for. -/
theorem outcome_performs (h : Run cfg tr s) (hposs : step cfg s i ≠ .error .impossible)
    (htaken : (readings conn (tr ++ [(s, i)])).map handlingOf = x.handlings) {o : Outcome}
    (ho : o ∈ outcomes cfg conn (tr ++ [(s, i)])) {after : List Client}
    (hafter : o.after = some after) :
    Performs o.reading.fd (handlingOf o.reading) o.reading.clients after := by
  obtain ⟨pre, a, j, post, hsplit, hrun, -, hr, hnext⟩ := outcome_step h hposs ho
  rw [hafter] at hnext
  obtain ⟨b, hb, rfl⟩ := Option.map_eq_some_iff.mp hnext.symm
  refine next_performs hrun hr ?_ hb
  cases hrs : readings conn (tr ++ [(s, i)]) with
  | nil =>
    rw [hrs] at htaken
    cases htaken
  | cons r₀ rest =>
    rw [hrs, List.map_cons, Session.handlings, List.cons.injEq] at htaken
    have hne : r₀.bytes ≠ [] := reading_nonempty (by rw [hrs]; exact List.mem_cons_self ..)
    rw [hsplit] at hrs
    exact request_named hrun hr hrs (receiveID_of_id hne htaken.1)

/-- The session is handled exactly when its reads are taken for its messages and no deletion
fails to come to an end. -/
theorem handledAs_iff (h : Run cfg tr s) (hposs : step cfg s i ≠ .error .impossible) :
    HandledAs cfg conn (tr ++ [(s, i)]) x ↔
      (readings conn (tr ++ [(s, i)])).map handlingOf = x.handlings ∧
      ∀ r ∈ readings conn (tr ++ [(s, i)]), ∀ topic, handlingOf r = .unsubscribe topic →
        Removable r topic := by
  constructor
  · intro hhandled
    refine ⟨hhandled.readings_eq, ?_⟩
    rw [← outcomes_readings cfg, List.forall_mem_map]
    intro o ho
    have hgoes : ∀ o ∈ outcomes cfg conn (tr ++ [(s, i)]), ∃ after, o.after = some after := by
      refine ((List.forall₂_and_left _ _).mp (hhandled.imp fun o m hm => ⟨?_, hm⟩)).1
      obtain ⟨after, hafter, -⟩ := hm.performed
      exact ⟨after, hafter⟩
    exact (outcome_goes h hposs ho).mp (hgoes o ho)
  · rintro ⟨htaken, hremovable⟩
    have hperformed : ∀ o ∈ outcomes cfg conn (tr ++ [(s, i)]), ∃ after, o.after = some after ∧
        Performs o.reading.fd (handlingOf o.reading) o.reading.clients after := by
      intro o ho
      rw [← outcomes_readings cfg, List.forall_mem_map] at hremovable
      obtain ⟨after, hafter⟩ := (outcome_goes h hposs ho).mpr (hremovable o ho)
      exact ⟨after, hafter, outcome_performs h hposs htaken ho hafter⟩
    have hpairs : List.Forall₂ (fun o m => handlingOf o.reading = m)
        (outcomes cfg conn (tr ++ [(s, i)])) x.handlings := by
      rw [← outcomes_readings cfg, List.map_map, ← List.forall₂_eq_eq_eq,
        List.forall₂_map_left_iff] at htaken
      exact htaken
    refine ((List.forall₂_and_left _ _).mpr ⟨hperformed, hpairs⟩).imp ?_
    rintro o m ⟨hdone, rfl⟩
    exact ⟨rfl, hdone⟩

/-- The deletions of a session that is read one message at a time come to an end. -/
theorem removable_of_oneByOne {rs : List Reading} (h : OneByOne rs x) :
    ∀ r ∈ rs, ∀ topic, handlingOf r = .unsubscribe topic → Removable r topic := by
  have htaken := handled_of_oneByOne h
  obtain ⟨r, rest, rfl, -, hrest⟩ := h
  rw [List.map_cons, Session.handlings, List.cons.injEq] at htaken
  rw [List.forall_mem_cons]
  constructor
  · intro topic htopic
    rw [htaken.1] at htopic
    cases htopic
  · refine ((List.forall₂_and_left _ _).mp (hrest.imp fun q c hdelivered => ⟨?_, hdelivered⟩)).1
    intro topic htopic
    rw [hdelivered.handled] at htopic
    cases c with
    | subscribe field sf => cases htopic
    | unsubscribe token =>
      cases htopic
      exact hdelivered.ready.removable token rfl

end Sessions

/-- A session that is read one message at a time, with what the handlers rely on in its
place, is handled as it was sent, whatever else happens and the last read included; no
session is handled so without the latter; and where nobody else sends anything a session
of subscribe requests is handled so in no other case. -/
theorem session_handled {cfg : Config} {tr : List (Server × Input)} {s : Server}
    (h : Run cfg tr s) {i : Input} (hposs : step cfg s i ≠ .error .impossible) (conn : ℕ)
    (x : Session) :
    (OneByOne (readings conn (tr ++ [(s, i)])) x → HandledAs cfg conn (tr ++ [(s, i)]) x) ∧
    (HandledAs cfg conn (tr ++ [(s, i)]) x → Prepared (readings conn (tr ++ [(s, i)])) x) ∧
    (Alone conn tr → x.SubscribesOnly →
      ((readings conn (tr ++ [(s, i)])).map Reading.bytes).flatten = x.messages.flatten →
      (HandledAs cfg conn (tr ++ [(s, i)]) x ↔
        (readings conn (tr ++ [(s, i)])).map Reading.bytes = x.messages)) := by
  have hne : ∀ r ∈ readings conn (tr ++ [(s, i)]), r.bytes ≠ [] := fun r hr => reading_nonempty hr
  have hone : OneByOne (readings conn (tr ++ [(s, i)])) x →
      HandledAs cfg conn (tr ++ [(s, i)]) x := fun hone =>
    (handledAs_iff h hposs).mpr ⟨handled_of_oneByOne hone, removable_of_oneByOne hone⟩
  refine ⟨hone, ?_, ?_⟩
  · intro hhandled
    obtain ⟨htaken, hremovable⟩ := (handledAs_iff h hposs).mp hhandled
    exact prepared_of_handled hne hremovable htaken
  · intro halone honly hflat
    obtain ⟨hflags, hcleared⟩ := (run_lone h halone).reading i
    constructor
    · exact fun hhandled => bytes_eq_of_handled hne hcleared honly hflat hhandled.readings_eq
    · exact fun hbytes => hone (oneByOne_of_bytes honly hflags hbytes)

private theorem letter_noNul {letter : UInt8} (h : letter ≠ 0) : ∀ b ∈ [letter], b ≠ 0 := by
  intro b hb
  rw [List.mem_singleton.mp hb]
  exact h

def letterToken (letter : UInt8) (h : letter ≠ 0) : Client.Token where
  text := [letter]
  noNul := letter_noNul h
  fits := show 1 < Client.cmdLen by decide

/-- A client identifies itself and subscribes to two topics. -/
def twoSubscriptions : Session where
  id := ⟨[97], by decide, by decide, letter_noNul (by decide)⟩
  commands := [.subscribe (letterToken 116 (by decide)) 1, .subscribe (letterToken 117 (by decide)) 1]

/-- One connection that gives these bytes, one read a round, and is to be read once more. -/
def readInputs (reads : List Bytes) : List Input :=
  roundInputs 5 [(3, .connection 5 true)] ++
    (reads.flatMap fun bytes => roundInputs 5 [(5, readInput bytes)]) ++
    .select {5} :: List.replicate 5 .tick

private theorem alone_of_log {tr : List (Server × Input)}
    (h : (log tr).all (fun e => connOf e = 0) = true ∧
      tr.all (fun e => !isDatagram e.2) = true) : Alone 0 tr := by
  obtain ⟨hlog, hinputs⟩ := h
  rw [List.all_eq_true] at hlog hinputs
  constructor
  · exact fun e he => of_decide_eq_true (hlog e he)
  · intro e he
    simpa using hinputs e he

private theorem possible_of_next {cfg : Config} {s : Server} {i : Input}
    (h : (next cfg s i).isSome = true) : step cfg s i ≠ .error .impossible := by
  intro he
  rw [next, he] at h
  cases h

/-- The last message of the session in a read of its own. -/
def lastRead : Input := readInput (Command.subscribe (letterToken 117 (by decide)) 1).bytes

theorem session_handled_two :
    ∃ tr s, Run usual tr s ∧ (next usual s lastRead).isSome = true ∧
      Alone 0 (tr ++ [(s, lastRead)]) ∧
      (readings 0 (tr ++ [(s, lastRead)])).map Reading.bytes = twoSubscriptions.messages ∧
      HandledAs usual 0 (tr ++ [(s, lastRead)]) twoSubscriptions := by
  obtain ⟨tr, s, hrun, hs⟩ := run_of_inputs usual (fun tr s => decide
    (((log (tr ++ [(s, lastRead)])).all (fun e => connOf e = 0) = true ∧
        (tr ++ [(s, lastRead)]).all (fun e => !isDatagram e.2) = true) ∧
      (next usual s lastRead).isSome = true ∧
      (readings 0 (tr ++ [(s, lastRead)])).map Reading.bytes = twoSubscriptions.messages))
    (readInputs (twoSubscriptions.messages.take 2)) (by decide +kernel)
  obtain ⟨hlog, hnext, hbytes⟩ := of_decide_eq_true hs
  have halone := alone_of_log hlog
  have honly : twoSubscriptions.SubscribesOnly := by
    intro c hc
    simp only [twoSubscriptions, List.mem_cons, List.not_mem_nil, or_false] at hc
    rcases hc with rfl | rfl
    · exact ⟨_, _, rfl⟩
    · exact ⟨_, _, rfl⟩
  refine ⟨tr, s, hrun, hnext, halone, hbytes, ?_⟩
  exact ((session_handled hrun (possible_of_next hnext) 0 twoSubscriptions).2.2 halone.of_append
    honly (by rw [hbytes])).mpr hbytes

/-- Both requests of the session in one read. -/
def coalescedRead : Input := readInput (twoSubscriptions.messages.drop 1).flatten

/-- Two subscribe requests in one read: the second is lost. -/
theorem coalesced_request_lost :
    ∃ tr s, Run usual tr s ∧ (next usual s coalescedRead).isSome = true ∧
      Alone 0 (tr ++ [(s, coalescedRead)]) ∧
      ((readings 0 (tr ++ [(s, coalescedRead)])).map Reading.bytes).flatten =
        twoSubscriptions.messages.flatten ∧
      ¬ HandledAs usual 0 (tr ++ [(s, coalescedRead)]) twoSubscriptions := by
  obtain ⟨tr, s, hrun, hs⟩ := run_of_inputs usual (fun tr s => decide
    (((log (tr ++ [(s, coalescedRead)])).all (fun e => connOf e = 0) = true ∧
        (tr ++ [(s, coalescedRead)]).all (fun e => !isDatagram e.2) = true) ∧
      (next usual s coalescedRead).isSome = true ∧
      ((readings 0 (tr ++ [(s, coalescedRead)])).map Reading.bytes).flatten =
        twoSubscriptions.messages.flatten ∧
      (readings 0 (tr ++ [(s, coalescedRead)])).map handlingOf ≠ twoSubscriptions.handlings))
    (readInputs [twoSubscriptions.id.message]) (by decide +kernel)
  obtain ⟨hlog, hnext, hflat, hlost⟩ := of_decide_eq_true hs
  exact ⟨tr, s, hrun, hnext, alone_of_log hlog, hflat, fun h => hlost h.readings_eq⟩

end TopicBroker.Handlings
