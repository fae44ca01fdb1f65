import TopicBroker.MainLoop

/-!
What a step does to the registry. `Change` lists what can happen to one record,
and `step_changes` says that nothing else does: records are never removed or
reordered, subscriptions change only through the record's own socket, and a
waiting queue only while its record is offline.
-/
namespace TopicBroker.Persistence

open ByteBlocks Message Registry Requests Publish Identify MainLoop Runs

/-- A read that is not empty, at its descriptor. -/
structure Reads (s : Server) (curr : Finset ℕ) (fd : ℕ) (bytes : Bytes) : Prop where
  visits : Visits s curr fd
  nonempty : bytes ≠ []

/-- What a step does to a record. -/
inductive Change (s : Server) : Input → Client → Client → Prop
  | keep (i : Input) (c : Client) : Change s i c c
  | publish (bytes : Bytes) (addr : SockaddrIn) (locals : UdpLocals) (c : Client)
      (hoffline : c.sock = -1) : Change s (.datagram bytes addr locals) c (kept (topicText bytes) c)
  | release (curr : Finset ℕ) (fd : ℕ) (locals : ReadLocals) (c : Client)
      (hvisit : Visits s curr fd) (hsock : c.sock = fd) :
      Change s (.read [] locals) c { c with sock := -1 }
  | resume (curr : Finset ℕ) (fd : ℕ) (bytes : Bytes) (locals : ReadLocals) (c : Client)
      (hread : Reads s curr fd bytes) (hflag : s.receiveID = true)
      (hc : Carries (s.sendBuffer.receive bytes) c) (hoffline : c.sock = -1) :
      Change s (.read bytes locals) c (resumed fd c)
  | edit (curr : Finset ℕ) (fd : ℕ) (bytes : Bytes) (locals : ReadLocals) (c c' : Client)
      (hread : Reads s curr fd bytes) (hflag : s.receiveID = false) (hsock : c.sock = fd)
      (hedit : Edit fd (requestOf (s.sendBuffer.receive bytes) locals.topic) c c') :
      Change s (.read bytes locals) c c'

/-- What a step adds to the registry. -/
inductive Added (s : Server) : Input → List Client → Prop
  | nothing (i : Input) : Added s i []
  | client (curr : Finset ℕ) (fd : ℕ) (bytes : Bytes) (locals : ReadLocals)
      (hread : Reads s curr fd bytes) (hflag : s.receiveID = true)
      (hnone : ∀ c ∈ s.clients, ¬ Carries (s.sendBuffer.receive bytes) c) :
      Added s (.read bytes locals)
        [newClient fd (s.sendBuffer.receive bytes) locals.following]

section Steps

variable {cfg : Config} {s t : Server} {i : Input} {sends : List Send}

private theorem changes_refl (i : Input) (clients : List Client) :
    List.Forall₂ (Change s i) clients clients :=
  List.forall₂_same.mpr fun c _ => Change.keep i c

private theorem changes_map {f : Client → Client} (hf : ∀ c ∈ s.clients, Change s i c (f c)) :
    List.Forall₂ (Change s i) s.clients (s.clients.map f) := by
  rw [List.forall₂_map_right_iff, List.forall₂_same]
  exact hf

/-- Every record keeps its place, and at most one record is added behind them. -/
theorem step_changes (h : Step cfg s i t sends) :
    ∃ old new, t.clients = old ++ new ∧ List.Forall₂ (Change s i) s.clients old ∧ Added s i new := by
  cases h with
  | reuse word => exact ⟨_, [], (List.append_nil _).symm, changes_refl _ _, Added.nothing _⟩
  | select ready hpc hopen hready =>
    exact ⟨_, [], (List.append_nil _).symm, changes_refl _ _, Added.nothing _⟩
  | wrap curr fd hpc hend =>
    exact ⟨_, [], (List.append_nil _).symm, changes_refl _ _, Added.nothing _⟩
  | skip curr fd hpc hle hclear =>
    exact ⟨_, [], (List.append_nil _).symm, changes_refl _ _, Added.nothing _⟩
  | accept curr new hvisit hfresh =>
    exact ⟨_, [], (List.append_nil _).symm, changes_refl _ _, Added.nothing _⟩
  | publish curr bytes addr locals p hvisit hp =>
    refine ⟨_, [], (List.append_nil _).symm, ?_, Added.nothing _⟩
    change List.Forall₂ _ s.clients p.clients
    rw [(receiveUdpMessage_spec hp).clients_eq]
    apply changes_map
    intro c _
    by_cases hsock : c.sock = -1
    · exact Change.publish bytes addr locals c hsock
    · rw [kept, if_neg hsock]
      exact Change.keep _ c
  | disconnect curr fd locals hvisit hfd hpeer =>
    refine ⟨_, [], (List.append_nil _).symm, ?_, Added.nothing _⟩
    change List.Forall₂ _ s.clients (disconnectClient fd s.clients).1
    rw [disconnectClient_eq]
    apply changes_map
    intro c _
    unfold released
    split
    · rename_i hsock
      exact Change.release curr fd locals c hvisit hsock
    · exact Change.keep _ c
  | identify curr fd bytes locals r hvisit hfd hpeer hne hlen hflag hr =>
    have hread : Reads s curr fd bytes := ⟨hvisit, hne⟩
    have hcases := handleIdClient_cases _ _ _ _ hr
    change ∃ old new, r.clients = old ++ new ∧ _
    generalize hclients : s.clients = clients at hcases
    cases hcases with
    | refused pre c post hpre hc honline =>
      exact ⟨_, [], (List.append_nil _).symm, changes_refl _ _, Added.nothing _⟩
    | resumed pre c post hpre hc hoffline =>
      refine ⟨_, [], (List.append_nil _).symm, ?_, Added.nothing _⟩
      exact List.rel_append (changes_refl _ pre)
        (List.Forall₂.cons (Change.resume curr fd bytes locals c hread hflag hc hoffline)
          (changes_refl _ post))
    | appended _ hnone =>
      refine ⟨clients, _, rfl, changes_refl _ _, ?_⟩
      exact Added.client curr fd bytes locals hread hflag (by rw [hclients]; exact hnone)
  | request curr fd bytes locals clients hvisit hfd hpeer hne hlen hflag hr =>
    refine ⟨clients, [], (List.append_nil _).symm, ?_, Added.nothing _⟩
    refine (handleRequest_edits hr).imp ?_
    intro c c' hedit
    by_cases hsock : c.sock = fd
    · exact Change.edit curr fd bytes locals c c' ⟨hvisit, hne⟩ hflag hsock hedit
    · rw [hedit.frame.2 hsock]
      exact Change.keep _ c

theorem getElem?_of_forall₂ {R : Client → Client → Prop} {xs ys : List Client} {j : ℕ}
    {c : Client} (h : List.Forall₂ R xs ys) (hc : xs[j]? = some c) :
    ∃ c', ys[j]? = some c' ∧ R c c' := by
  obtain ⟨hj, rfl⟩ := List.getElem?_eq_some_iff.mp hc
  have hj' : j < ys.length := by rw [← h.length_eq]; exact hj
  exact ⟨ys[j], List.getElem?_eq_getElem hj', h.get hj hj'⟩

/-- A record keeps its place. -/
theorem step_record (h : Step cfg s i t sends) {j : ℕ} {c : Client}
    (hc : s.clients[j]? = some c) : ∃ c', t.clients[j]? = some c' ∧ Change s i c c' := by
  obtain ⟨old, new, hclients, hold, _⟩ := step_changes h
  obtain ⟨c', hc', hchange⟩ := getElem?_of_forall₂ hold hc
  refine ⟨c', ?_, hchange⟩
  rw [hclients, List.getElem?_append_left (List.getElem?_eq_some_iff.mp hc').1]
  exact hc'

theorem step_change (h : Step cfg s i t sends) {j : ℕ} {c c' : Client}
    (hc : s.clients[j]? = some c) (hc' : t.clients[j]? = some c') : Change s i c c' := by
  obtain ⟨d, hd, hchange⟩ := step_record h hc
  rw [hc', Option.some.injEq] at hd
  rwa [hd]

/-- A record was in its place before, or it is the one that was added. -/
theorem record_origin (h : Step cfg s i t sends) {j : ℕ} {d : Client}
    (hd : t.clients[j]? = some d) :
    (∃ c, s.clients[j]? = some c ∧ Change s i c d) ∨ (j = s.clients.length ∧ Added s i [d]) := by
  obtain ⟨old, new, hclients, hold, hnew⟩ := step_changes h
  have hlength := hold.length_eq
  rw [hclients] at hd
  by_cases hj : j < old.length
  · rw [List.getElem?_append_left hj] at hd
    obtain ⟨c, hc, hchange⟩ := getElem?_of_forall₂ hold.flip hd
    exact Or.inl ⟨c, hc, hchange⟩
  · rw [List.getElem?_append_right (not_lt.mp hj)] at hd
    cases hnew with
    | nothing => simp at hd
    | client curr fd bytes locals hread hflag hnone =>
      have hzero : j - old.length = 0 := by
        by_contra hne
        rw [List.getElem?_eq_none (by rw [List.length_singleton]; omega)] at hd
        cases hd
      rw [hzero] at hd
      cases hd
      exact Or.inr ⟨by omega, Added.client curr fd bytes locals hread hflag hnone⟩

end Steps

/-- A request is handled on the descriptor. -/
def HandlesRequest (s : Server) (i : Input) (fd : ℕ) : Prop :=
  ∃ curr bytes locals, i = .read bytes locals ∧ Reads s curr fd bytes ∧ s.receiveID = false

/-- An ID message that matches the record is handled on the descriptor. -/
def HandlesId (s : Server) (i : Input) (fd : ℕ) (c : Client) : Prop :=
  ∃ curr bytes locals, i = .read bytes locals ∧ Reads s curr fd bytes ∧ s.receiveID = true ∧
    Carries (s.sendBuffer.receive bytes) c

/-- The descriptor is read and gives no byte. -/
def HandlesClose (s : Server) (i : Input) (fd : ℕ) : Prop :=
  ∃ curr locals, i = .read [] locals ∧ Visits s curr fd

/-- What may become of a record, field by field. -/
structure Framed (s : Server) (i : Input) (c c' : Client) : Prop where
  id_eq : c'.ID = c.ID
  subscriptions : c'.topics ≠ c.topics ∨ c'.sfs ≠ c.sfs →
    ∃ fd : ℕ, HandlesRequest s i fd ∧ c.sock = fd
  sock : c'.sock ≠ c.sock →
    (∃ fd : ℕ, HandlesClose s i fd ∧ c.sock = fd ∧ c'.sock = -1) ∨
      ∃ fd : ℕ, HandlesId s i fd c ∧ c.sock = -1 ∧ c'.sock = fd
  waiting : c'.inWaiting ≠ c.inWaiting → c.sock = -1 ∧
    ((∃ bytes addr locals, i = .datagram bytes addr locals ∧ c.inWaiting <+: c'.inWaiting) ∨
      ∃ fd : ℕ, HandlesId s i fd c ∧ c'.sock = fd ∧ c'.inWaiting = [])
  emptied : c.sock = -1 → c'.sock ≠ -1 → c'.inWaiting = []

theorem Change.framed {s : Server} {i : Input} {c c' : Client} (h : Change s i c c') :
    Framed s i c c' := by
  cases h with
  | keep =>
    exact {
      id_eq := rfl
      subscriptions := fun h => by simp at h
      sock := fun h => absurd rfl h
      waiting := fun h => absurd rfl h
      emptied := fun h h' => absurd h h'
    }
  | publish bytes addr locals _ hoffline =>
    rw [kept, if_pos hoffline]
    exact {
      id_eq := rfl
      subscriptions := fun h => by simp at h
      sock := fun h => absurd rfl h
      waiting := fun _ => ⟨hoffline, Or.inl ⟨bytes, addr, locals, rfl, List.prefix_append _ _⟩⟩
      emptied := fun h h' => absurd h h'
    }
  | release curr fd locals _ hvisit hsock =>
    exact {
      id_eq := rfl
      subscriptions := fun h => by simp at h
      sock := fun _ => Or.inl ⟨fd, ⟨curr, locals, rfl, hvisit⟩, hsock, rfl⟩
      waiting := fun h => absurd rfl h
      emptied := fun _ h' => absurd rfl h'
    }
  | resume curr fd bytes locals _ hread hflag hc hoffline =>
    have hid : HandlesId s (.read bytes locals) fd c :=
      ⟨curr, bytes, locals, rfl, hread, hflag, hc⟩
    exact {
      id_eq := rfl
      subscriptions := fun h => by simp [resumed] at h
      sock := fun _ => Or.inr ⟨fd, hid, hoffline, rfl⟩
      waiting := fun _ => ⟨hoffline, Or.inr ⟨fd, hid, rfl, rfl⟩⟩
      emptied := fun _ _ => rfl
    }
  | edit curr fd bytes locals _ _ hread hflag hsock hedit =>
    have hframe := hedit.frame.1
    have hsock' : c'.sock = c.sock := by rw [hframe]
    have hwaiting : c'.inWaiting = c.inWaiting := by rw [hframe]
    exact {
      id_eq := by rw [hframe]
      subscriptions := fun _ => ⟨fd, ⟨curr, bytes, locals, rfl, hread, hflag⟩, hsock⟩
      sock := fun h => absurd hsock' h
      waiting := fun h => absurd hwaiting h
      emptied := fun h h' => absurd (hsock'.trans h) h'
    }

section Runs

variable {cfg : Config} {s t : Server} {i : Input}

theorem next_ids (h : next cfg s i = some t) :
    ∃ added, t.clients.map Client.ID = s.clients.map Client.ID ++ added := by
  obtain ⟨sends, hstep, _⟩ := next_cases h
  obtain ⟨old, new, hclients, hold, _⟩ := step_changes hstep
  refine ⟨new.map Client.ID, ?_⟩
  have hids : List.Forall₂ (· = ·) (old.map Client.ID) (s.clients.map Client.ID) := by
    rw [List.forall₂_map_left_iff, List.forall₂_map_right_iff]
    exact hold.flip.imp fun _ _ hchange => hchange.framed.id_eq
  rw [List.forall₂_eq_eq_eq] at hids
  rw [hclients, List.map_append, hids]

/-- No message waits for a client that is online. -/
theorem online_empty {tr : List (Server × Input)} (h : Run cfg tr s) :
    ∀ c ∈ s.clients, c.sock ≠ -1 → c.inWaiting = [] := by
  refine run_invariant (fun _ s => ∀ c ∈ s.clients, c.sock ≠ -1 → c.inWaiting = []) ?_ ?_ h
  · intro c hc
    exact absurd hc List.not_mem_nil
  · intro tr s i t sends _ ih hstep _ d hd honline
    obtain ⟨j, hj⟩ := List.mem_iff_getElem?.mp hd
    rcases record_origin hstep hj with ⟨c, hc, hchange⟩ | ⟨_, hadded⟩
    · have hframed := hchange.framed
      by_cases hoffline : c.sock = -1
      · exact hframed.emptied hoffline honline
      · have hsame : d.inWaiting = c.inWaiting := by
          by_contra hne
          exact hoffline (hframed.waiting hne).1
        rw [hsame]
        exact ih c (List.mem_of_getElem? hc) hoffline
    · cases hadded with
      | client => rfl

/-- A record that goes offline keeps its subscriptions until it is online again. -/
theorem offline_keeps {tr : List (Server × Input)} {j : ℕ} {c : Client}
    (h : Path (fun a i b => next cfg a i = some b) s tr t) (hc : s.clients[j]? = some c)
    (hoffline : ∀ e ∈ tr, (∀ d, e.1.clients[j]? = some d → d.sock = -1) ∨
      ∃ locals, e.2 = .read [] locals) :
    ∃ c', t.clients[j]? = some c' ∧ c'.topics = c.topics ∧ c'.sfs = c.sfs := by
  induction h with
  | refl => exact ⟨c, hc, rfl, rfl⟩
  | @tail t u tr i _ hnext ih =>
    obtain ⟨d, hd, htopics, hsfs⟩ := ih (fun e he => hoffline e (List.mem_append_left _ he))
    obtain ⟨sends, hstep, _⟩ := next_cases hnext
    obtain ⟨d', hd', hchange⟩ := step_record hstep hd
    refine ⟨d', hd', ?_⟩
    by_contra hne
    have hdiff : d'.topics ≠ d.topics ∨ d'.sfs ≠ d.sfs := by
      rw [← htopics, ← hsfs] at hne
      exact not_and_or.mp hne
    obtain ⟨fd, ⟨curr, bytes, locals, rfl, hread, _⟩, hsock⟩ := hchange.framed.subscriptions hdiff
    rcases hoffline (t, .read bytes locals) (List.mem_append_right _ (List.mem_singleton_self _)) with
      hoff | ⟨locals', hempty⟩
    · rw [hoff d hd] at hsock
      omega
    · cases hempty
      exact hread.nonempty rfl

end Runs

/-- The registry under every step of the server, and what follows for its runs. -/
theorem registry_persistent (cfg : Config) :
    (∀ (s : Server) (i : Input) (t : Server), next cfg s i = some t →
      (∃ added, t.clients.map Client.ID = s.clients.map Client.ID ++ added) ∧
      ∀ (j : ℕ) (c : Client), s.clients[j]? = some c →
        ∃ c', t.clients[j]? = some c' ∧ Framed s i c c') ∧
    (∀ tr s, Run cfg tr s → ∀ c ∈ s.clients, c.sock ≠ -1 → c.inWaiting = []) ∧
    (∀ (s : Server) (tr : List (Server × Input)) (t : Server) (j : ℕ) (c : Client),
      Path (fun a i b => next cfg a i = some b) s tr t → s.clients[j]? = some c →
      (∀ e ∈ tr, (∀ d, e.1.clients[j]? = some d → d.sock = -1) ∨ ∃ locals, e.2 = .read [] locals) →
      ∃ c', t.clients[j]? = some c' ∧ c'.topics = c.topics ∧ c'.sfs = c.sfs) := by
  refine ⟨?_, fun tr s h => online_empty h, fun s tr t j c h hc => offline_keeps h hc⟩
  intro s i t h
  refine ⟨next_ids h, ?_⟩
  intro j c hc
  obtain ⟨sends, hstep, _⟩ := next_cases h
  obtain ⟨c', hc', hchange⟩ := step_record hstep hc
  exact ⟨c', hc', hchange.framed⟩

/-- A client subscribes with storing, leaves, misses a message and comes back. -/
def returnInputs : List Input :=
  roundInputs 5 [(3, .connection 5 true)] ++ roundInputs 5 [(5, readInput (idMessage 97))] ++
  roundInputs 5 [(5, readInput (subscribeMessage 116 1))] ++ roundInputs 5 [(5, readInput [])] ++
  roundInputs 5 [(4, publishInput 116 120)] ++ roundInputs 5 [(3, .connection 5 true)] ++
  roundInputs 5 [(5, readInput (idMessage 97))]

theorem registry_persistent_return :
    ∃ tr s, Run usual tr s ∧ (s.clients.map fun c => (c.sock, c.sfs)) = [(5, [1])] ∧
      ∀ c ∈ s.clients, c.sock ≠ -1 → c.inWaiting = [] := by
  obtain ⟨tr, s, hrun, hs⟩ := run_of_inputs usual (fun _ s => decide
    ((s.clients.map fun c => (c.sock, c.sfs)) = [(5, [1])])) returnInputs (by decide +kernel)
  exact ⟨tr, s, hrun, of_decide_eq_true hs, (registry_persistent usual).2.1 tr s hrun⟩

end TopicBroker.Persistence
