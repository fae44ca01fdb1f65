import TopicBroker.Refinement

/-!
What the server prints of its clients. A line is kept as what it says of an ID; the
address in it is that of a variable which nothing sets, and is left out. The lines about
one ID are those of a client that comes and goes: read from the start of a run, they tell
whether the ID is known and whether it is online.
-/
namespace TopicBroker.Notices

open ByteBlocks Message Registry Requests Publish Identify Identity MainLoop Runs Refinement

/-- A line on the standard output of the server. -/
inductive Notice
  | connected (id : Bytes)
  | alreadyConnected (id : Bytes)
  | disconnected (id : Bytes)
deriving DecidableEq

def Notice.id : Notice → Bytes
  | .connected id => id
  | .alreadyConnected id => id
  | .disconnected id => id

/-- The line of `handle_id_client`: a known client is told by the ID of its record, and
one that connects by the message. -/
def identifyNotices (data : Block bufferServerLen) : List Client → List Notice
  | [] => [.connected (cstr data.bytes)]
  | c :: rest =>
    if strcmp (c.ID.bytes ++ c.following) data.bytes = 0 then
      if c.sock ≠ -1 then [.alreadyConnected (cstr (c.ID.bytes ++ c.following))]
      else [.connected (cstr data.bytes)]
    else identifyNotices data rest

/-- The lines of `disconnect_client`, one for every record with the socket. -/
def disconnectNotices (sock : ℤ) : List Client → List Notice
  | [] => []
  | c :: rest =>
    if c.sock ≠ sock then disconnectNotices sock rest
    else .disconnected (cstr (c.ID.bytes ++ c.following)) :: disconnectNotices sock rest

/-- What a step prints. -/
def noticesOf (s : Server) (i : Input) : List Notice :=
  match i, s.pc with
  | .read bytes _, .scan _ fd =>
    match dispatch s.receiveID bytes.length with
    | .disconnect => disconnectNotices fd s.clients
    | .idClient => identifyNotices (s.sendBuffer.receive bytes) s.clients
    | .request => []
  | _, _ => []

def notices (tr : List (Server × Input)) : List Notice := tr.flatMap fun e => noticesOf e.1 e.2

/-- What is known of an ID. -/
inductive Standing
  | unknown
  | offline
  | online
deriving DecidableEq

/-- A reader of the lines about one ID, for whom only some lines make sense. -/
def Standing.tell : Standing → Notice → Option Standing
  | .unknown, .connected _ => some .online
  | .offline, .connected _ => some .online
  | .online, .alreadyConnected _ => some .online
  | .online, .disconnected _ => some .offline
  | _, _ => none

/-- The lines about an ID, read one after the other. -/
def told (id : Bytes) (ns : List Notice) (x : Standing) : Option Standing :=
  (ns.filter fun n => n.id = id).foldlM Standing.tell x

/-- What the registry knows of an ID. -/
def standing (id : Bytes) : List Client → Standing
  | [] => .unknown
  | c :: rest =>
    if idOf c = id then if c.sock = -1 then .offline else .online else standing id rest

section Standings

variable {id : Bytes} {clients : List Client}

theorem told_nil (x : Standing) : told id [] x = some x := rfl

theorem told_append (ns more : List Notice) (x : Standing) :
    told id (ns ++ more) x = (told id ns x).bind (told id more) := by
  rw [told, List.filter_append, List.foldlM_append]
  rfl

theorem told_other {ns : List Notice} (h : ∀ n ∈ ns, n.id ≠ id) (x : Standing) :
    told id ns x = some x := by
  have hnone : ns.filter (fun n => n.id = id) = [] := by
    rw [List.filter_eq_nil_iff]
    intro n hn
    simpa using h n hn
  rw [told, hnone]
  rfl

theorem told_single {n : Notice} (h : n.id = id) (x : Standing) : told id [n] x = x.tell n := by
  cases hx : x.tell n <;> simp [told, h, hx]

/-- The first record of an ID tells its standing. -/
theorem standing_known {c : Client} (h : idOf c = id) (rest : List Client) :
    standing id (c :: rest) = if c.sock = -1 then .offline else .online := by
  rw [standing, if_pos h]

theorem standing_append {pre : List Client} (h : ∀ c ∈ pre, idOf c ≠ id) (rest : List Client) :
    standing id (pre ++ rest) = standing id rest := by
  induction pre with
  | nil => rfl
  | cons c pre ih =>
    rw [List.forall_mem_cons] at h
    rw [List.cons_append, standing, if_neg h.1, ih h.2]

/-- The standing is that of the ID and the socket of the records. -/
theorem standing_congr {clients' : List Client}
    (h : List.Forall₂ (fun c c' => idOf c' = idOf c ∧ (idOf c = id → c'.sock = c.sock)) clients
      clients') : standing id clients' = standing id clients := by
  induction h with
  | nil => rfl
  | @cons c c' _ _ hhead _ ih =>
    rw [standing, standing, hhead.1, ih]
    by_cases hid : idOf c = id
    · rw [if_pos hid, if_pos hid, hhead.2 hid]
    · rw [if_neg hid, if_neg hid]

theorem standing_map {f : Client → Client} (hid : ∀ c, idOf (f c) = idOf c)
    (hsock : ∀ c ∈ clients, (f c).sock = c.sock) :
    standing id (clients.map f) = standing id clients := by
  apply standing_congr
  rw [List.forall₂_map_right_iff, List.forall₂_same]
  exact fun c hc => ⟨hid c, fun _ => hsock c hc⟩

/-- Records of other IDs do not matter. -/
theorem standing_concat {c : Client} (h : idOf c ≠ id) :
    standing id (clients ++ [c]) = standing id clients := by
  induction clients with
  | nil => simp only [List.nil_append, standing, if_neg h]
  | cons d rest ih => rw [List.cons_append, standing, standing, ih]

theorem standing_replaced {c c' : Client} (h : idOf c ≠ id) (h' : idOf c' ≠ id)
    (pre post : List Client) : standing id (pre ++ c' :: post) = standing id (pre ++ c :: post) := by
  induction pre with
  | nil => rw [List.nil_append, List.nil_append, standing, standing, if_neg h, if_neg h']
  | cons d pre ih => rw [List.cons_append, List.cons_append, standing, standing, ih]

theorem standing_of_absent (h : ∀ c ∈ clients, idOf c ≠ id) : standing id clients = .unknown := by
  have happend := standing_append h []
  rwa [List.append_nil] at happend

end Standings

section Handlers

variable {id : Bytes} {clients : List Client} {data : Block bufferServerLen} {fd : ℕ}

theorem carries_iff_sealed {c : Client} (hc : Sealed c) :
    Carries data c ↔ idOf c = cstr data.bytes := by
  rw [Carries, hc, idOf]

theorem identifyNotices_append {pre : List Client} (h : ∀ c ∈ pre, ¬ Carries data c)
    (rest : List Client) : identifyNotices data (pre ++ rest) = identifyNotices data rest := by
  induction pre with
  | nil => rfl
  | cons c pre ih =>
    rw [List.forall_mem_cons] at h
    rw [List.cons_append, identifyNotices, if_neg, ih h.2]
    exact fun hcmp => h.1 ((strcmp_eq_zero_iff _ _).mp hcmp)

/-- The line of an ID message tells what becomes of the ID. -/
theorem told_identify {following : Bytes} {word : DeadWord} {r : Handled}
    (hsealed : ∀ c ∈ clients, Sealed c) (hle : (cstr data.bytes).length ≤ idLen)
    (h : Handshake fd data following word clients r) :
    told id (identifyNotices data clients) (standing id clients) =
      some (standing id r.clients) := by
  have hother : ∀ c ∈ clients, ¬ Carries data c → idOf c ≠ cstr data.bytes :=
    fun c hc hno heq => hno ((carries_iff_sealed (hsealed c hc)).mpr heq)
  cases h with
  | refused pre c post hpre hc honline =>
    have hid := (carries_iff_sealed (hsealed c (by simp))).mp hc
    have hline : identifyNotices data (pre ++ c :: post) = [.alreadyConnected (idOf c)] := by
      rw [identifyNotices_append hpre, identifyNotices, if_pos ((strcmp_eq_zero_iff _ _).mpr hc),
        if_pos honline, show cstr (c.ID.bytes ++ c.following) = idOf c from hsealed c (by simp)]
    rw [hline]
    by_cases heq : idOf c = id
    · have hbefore : ∀ d ∈ pre, idOf d ≠ id := by
        intro d hd
        rw [← heq, hid]
        exact hother d (List.mem_append_left _ hd) (hpre d hd)
      rw [standing_append hbefore, standing_known heq, if_neg honline,
        told_single (n := .alreadyConnected (idOf c)) heq]
      rfl
    · exact told_other (by simpa [Notice.id] using heq) _
  | resumed pre c post hpre hc hoffline =>
    have hid := (carries_iff_sealed (hsealed c (by simp))).mp hc
    have hline : identifyNotices data (pre ++ c :: post) = [.connected (idOf c)] := by
      rw [identifyNotices_append hpre, identifyNotices, if_pos ((strcmp_eq_zero_iff _ _).mpr hc),
        if_neg (not_not.mpr hoffline), hid]
    rw [hline]
    by_cases heq : idOf c = id
    · have hbefore : ∀ d ∈ pre, idOf d ≠ id := by
        intro d hd
        rw [← heq, hid]
        exact hother d (List.mem_append_left _ hd) (hpre d hd)
      have hsock : (resumed fd c).sock ≠ -1 := by
        change (fd : ℤ) ≠ -1
        omega
      rw [standing_append hbefore, standing_append hbefore, standing_known heq, if_pos hoffline,
        standing_known (show idOf (resumed fd c) = id from heq), if_neg hsock,
        told_single (n := .connected (idOf c)) heq]
      rfl
    · rw [told_other (by simpa [Notice.id] using heq),
        standing_replaced heq (show idOf (resumed fd c) ≠ id from heq)]
  | appended _ hnone =>
    have hline : identifyNotices data clients = [.connected (cstr data.bytes)] := by
      rw [← List.append_nil clients, identifyNotices_append hnone, identifyNotices]
    have hnew : idOf (newClient fd data following) = cstr data.bytes := by
      rw [← List.take_of_length_le hle, ← cstr_take]
      rfl
    rw [hline]
    by_cases heq : cstr data.bytes = id
    · have hbefore : ∀ d ∈ clients, idOf d ≠ id := by
        intro d hd
        rw [← heq]
        exact hother d hd (hnone d hd)
      have hsock : (newClient fd data following).sock ≠ -1 := by
        change (fd : ℤ) ≠ -1
        omega
      rw [standing_of_absent hbefore, standing_append hbefore, standing_known (hnew.trans heq),
        if_neg hsock, told_single (n := .connected (cstr data.bytes)) heq]
      rfl
    · rw [told_other (by simpa [Notice.id] using heq), standing_concat (hnew ▸ heq)]

/-- The lines of a closed connection are about IDs of records. -/
theorem disconnectNotices_id (hsealed : ∀ c ∈ clients, Sealed c) {n : Notice}
    (hn : n ∈ disconnectNotices fd clients) : ∃ c ∈ clients, idOf c = n.id := by
  induction clients with
  | nil => cases hn
  | cons c rest ih =>
    rw [List.forall_mem_cons] at hsealed
    rw [disconnectNotices] at hn
    split at hn
    · obtain ⟨d, hd, hid⟩ := ih hsealed.2 hn
      exact ⟨d, List.mem_cons_of_mem c hd, hid⟩
    · rcases List.mem_cons.mp hn with rfl | hn
      · exact ⟨c, List.mem_cons_self .., hsealed.1.symm⟩
      · obtain ⟨d, hd, hid⟩ := ih hsealed.2 hn
        exact ⟨d, List.mem_cons_of_mem c hd, hid⟩

/-- The lines of a closed connection tell what becomes of the IDs, as each ID has one
record. -/
theorem told_disconnect (hsealed : ∀ c ∈ clients, Sealed c) (hnodup : (clients.map idOf).Nodup) :
    told id (disconnectNotices fd clients) (standing id clients) =
      some (standing id (clients.map (released fd))) := by
  induction clients with
  | nil => rfl
  | cons c rest ih =>
    rw [List.forall_mem_cons] at hsealed
    rw [List.map_cons, List.nodup_cons] at hnodup
    have hreleased : idOf (released fd c) = idOf c := by
      unfold released
      split <;> rfl
    rw [disconnectNotices, List.map_cons]
    by_cases heq : idOf c = id
    · -- the other records have other IDs
      have hrest : ∀ n ∈ disconnectNotices fd rest, n.id ≠ id := by
        intro n hn hid
        obtain ⟨d, hd, hdn⟩ := disconnectNotices_id hsealed.2 hn
        exact hnodup.1 (List.mem_map.mpr ⟨d, hd, hdn.trans (hid.trans heq.symm)⟩)
      rw [standing_known heq, standing_known (hreleased.trans heq)]
      by_cases hsock : c.sock = fd
      · have honline : c.sock ≠ -1 := by omega
        rw [if_neg (not_not.mpr hsock), if_neg honline, released, if_pos hsock, if_pos rfl,
          ← List.singleton_append, told_append,
          told_single (n := .disconnected (cstr (c.ID.bytes ++ c.following))) (hsealed.1.trans heq)]
        exact told_other hrest _
      · rw [if_pos hsock, told_other hrest, released, if_neg hsock]
    · have hother : idOf (released fd c) ≠ id := by
        rw [hreleased]
        exact heq
      rw [standing, standing, if_neg heq, if_neg hother, ← ih hsealed.2 hnodup.2]
      by_cases hsock : c.sock = fd
      · rw [if_neg (not_not.mpr hsock), ← List.singleton_append, told_append, told_other]
        · rfl
        · intro n hn
          rw [List.mem_singleton.mp hn, Notice.id,
            show cstr (c.ID.bytes ++ c.following) = idOf c from hsealed.1]
          exact heq
      · rw [if_pos hsock]

end Handlers

section Runs

variable {cfg : Config} {tr : List (Server × Input)} {s t : Server} {i : Input} {sends : List Send}

theorem noticesOf_read {curr : Finset ℕ} {fd : ℕ} {bytes : Bytes} (locals : ReadLocals)
    (hvisit : Visits s curr fd) : noticesOf s (.read bytes locals) =
      match dispatch s.receiveID bytes.length with
      | .disconnect => disconnectNotices fd s.clients
      | .idClient => identifyNotices (s.sendBuffer.receive bytes) s.clients
      | .request => [] := by
  simp only [noticesOf, hvisit.pc_eq]

/-- The lines of a step tell what becomes of every ID. -/
theorem step_told (hstep : Step cfg s i t sends) (hsealed : ∀ c ∈ s.clients, Sealed c)
    (hnodup : (s.clients.map idOf).Nodup) (hfits : Fits s i) (id : Bytes) :
    told id (noticesOf s i) (standing id s.clients) = some (standing id t.clients) := by
  cases hstep with
  | publish curr bytes addr locals p hvisit hp =>
    change told id [] _ = some (standing id p.clients)
    rw [(receiveUdpMessage_spec hp).clients_eq, told_nil]
    refine congrArg some (standing_map (fun c => ?_) fun c _ => ?_).symm
    · unfold kept
      split <;> rfl
    · unfold kept
      split <;> rfl
  | disconnect curr fd locals hvisit hfd hpeer =>
    rw [noticesOf_read locals hvisit]
    change told id (disconnectNotices fd s.clients) _ =
      some (standing id (disconnectClient fd s.clients).1)
    rw [disconnectClient_eq]
    exact told_disconnect hsealed hnodup
  | identify curr fd bytes locals r hvisit hfd hpeer hne hlen hflag hr =>
    have hpresents : presents s (.read bytes locals) =
        some (cstr (s.sendBuffer.receive bytes).bytes, locals.following) := by
      simp only [presents, hvisit.pc_eq, hne, hflag, ne_eq, not_false_eq_true, and_self, if_true]
    have hle : (cstr (s.sendBuffer.receive bytes).bytes).length ≤ idLen := by
      rcases hfits _ hpresents with hlt | ⟨hle, _⟩
      · exact hlt.le
      · exact hle.le
    rw [noticesOf_read locals hvisit, dispatch_nonempty hne, if_pos hflag]
    exact told_identify hsealed hle (handleIdClient_cases _ _ _ _ hr)
  | request curr fd bytes locals clients hvisit hfd hpeer hne hlen hflag hr =>
    rw [noticesOf_read locals hvisit, dispatch_nonempty hne, hflag]
    refine congrArg some (standing_congr ((handleRequest_edits hr).imp ?_)).symm
    intro c c' hedit
    have hframe := hedit.frame.1
    constructor
    · rw [hframe]
      rfl
    · intro _
      rw [hframe]
  | _ => rfl

theorem notices_append (e : Server × Input) :
    notices (tr ++ [e]) = notices tr ++ noticesOf e.1 e.2 := by
  simp only [notices, List.flatMap_append, List.flatMap_singleton]

/-- In every run the lines about an ID make sense one after the other, and the last of
them tells whether the ID is online, offline or unknown. -/
theorem notices_tell_standing (h : Run cfg tr s) (hfits : ∀ e ∈ tr, Fits e.1 e.2) (id : Bytes) :
    told id (notices tr) .unknown = some (standing id s.clients) := by
  refine run_invariant (fun tr s => (∀ e ∈ tr, Fits e.1 e.2) →
    told id (notices tr) .unknown = some (standing id s.clients)) (fun _ => rfl) ?_ h hfits
  intro tr s i t sends hrun ih hstep _ hfits
  have hmirrors := run_mirrors hrun fun e he => hfits e (List.mem_append_left _ he)
  rw [notices_append, told_append, ih fun e he => hfits e (List.mem_append_left _ he),
    Option.bind_some]
  exact step_told hstep hmirrors.sealed hmirrors.ids_nodup (hfits (s, i) (by simp)) id

end Runs

/-- A client connects, another one presents its ID, and the first leaves and returns. -/
def comingInputs : List Input :=
  roundInputs 5 [(3, .connection 5 true)] ++ roundInputs 5 [(5, readInput (idMessage 97))] ++
  roundInputs 6 [(3, .connection 6 true)] ++ roundInputs 6 [(6, readInput (idMessage 97))] ++
  roundInputs 6 [(5, readInput [])] ++ roundInputs 6 [(3, .connection 5 true)] ++
  roundInputs 6 [(5, readInput (idMessage 97))]

theorem notices_tell_standing_coming :
    ∃ tr s, Run usual tr s ∧ notices tr = [.connected [97], .alreadyConnected [97],
        .disconnected [97], .connected [97]] ∧
      told [97] (notices tr) .unknown = some (standing [97] s.clients) := by
  obtain ⟨tr, s, hrun, hs⟩ := run_of_inputs usual (fun tr _ => decide
    (notices tr = [.connected [97], .alreadyConnected [97], .disconnected [97], .connected [97]] ∧
      ∀ e ∈ tr, Fits e.1 e.2)) comingInputs (by decide +kernel)
  obtain ⟨hnotices, hfits⟩ := of_decide_eq_true hs
  exact ⟨tr, s, hrun, hnotices, notices_tell_standing hrun hfits [97]⟩

end TopicBroker.Notices
