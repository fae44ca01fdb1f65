import TopicBroker.MainLoop

/-!
The descriptor set. In every reachable state `fdIN` holds the open descriptors below
FD_SETSIZE, all of them within the bound that the scan runs to, and the scan only
reads from descriptors that are still open. Nothing in the program keeps descriptors
below FD_SETSIZE: one from there on is open, but never in the set.
-/
namespace TopicBroker.Descriptors

open Message Registry Requests Publish Identify MainLoop Runs

structure Watched (cfg : Config) (s : Server) : Prop where
  mem_iff : ∀ fd, fd ∈ s.fdIN ↔ Open cfg s fd ∧ fd < fdSetSize
  le_max : ∀ fd ∈ s.fdIN, fd ≤ s.fdClients
  connection : ∀ fd, s.peer fd ≠ none → Connection cfg fd
  pending : ∀ curr fd, s.pc = .scan curr fd →
    ∀ d ∈ curr, (d ≤ s.fdClients ∧ d < fdSetSize) ∧ (fd ≤ d → Open cfg s d)

section Steps

variable {cfg : Config} {s : Server}

theorem initial_watched (cfg : Config) : Watched cfg (initial cfg) := by
  have hmem : ∀ fd, fd ∈ (initial cfg).fdIN ↔ Open cfg (initial cfg) fd ∧ fd < fdSetSize := by
    intro fd
    simp only [initial, Open, Listening, mem_fdSet, Finset.notMem_empty, ne_eq, not_true_eq_false,
      or_false]
    tauto
  exact {
    mem_iff := hmem
    le_max := by
      intro fd hfd
      rcases ((hmem fd).mp hfd).1 with (rfl | rfl | rfl) | hpeer
      · exact Nat.zero_le _
      · exact le_max_left _ _
      · exact le_max_right _ _
      · exact absurd rfl hpeer
    connection := fun fd h => absurd rfl h
    pending := fun curr fd h => by cases h
  }

/-- A step that leaves the descriptors alone has the scan to answer for. -/
theorem Watched.moved {t : Server} (h : Watched cfg s) (hfdIN : t.fdIN = s.fdIN)
    (hmax : t.fdClients = s.fdClients) (hpeer : t.peer = s.peer)
    (hpending : ∀ curr fd, t.pc = .scan curr fd →
      ∀ d ∈ curr, (d ≤ s.fdClients ∧ d < fdSetSize) ∧ (fd ≤ d → Open cfg s d)) :
    Watched cfg t := by
  have hopen : ∀ fd, Open cfg t fd ↔ Open cfg s fd := by
    intro fd
    rw [Open, Open, hpeer]
  exact {
    mem_iff := fun fd => by rw [hfdIN, hopen]; exact h.mem_iff fd
    le_max := fun fd hfd => by
      rw [hfdIN] at hfd
      rw [hmax]
      exact h.le_max fd hfd
    connection := fun fd hfd => h.connection fd (by rwa [hpeer] at hfd)
    pending := fun curr fd hpc d hd => by
      rw [hmax, hopen]
      exact hpending curr fd hpc d hd
  }

/-- The scan moving past a descriptor. -/
theorem Watched.advanced {t : Server} {curr : Finset ℕ} {fd : ℕ} (h : Watched cfg s)
    (hpc : s.pc = .scan curr fd) (hfdIN : t.fdIN = s.fdIN) (hmax : t.fdClients = s.fdClients)
    (hpeer : t.peer = s.peer) (hpc' : t.pc = .scan curr (fd + 1)) : Watched cfg t := by
  apply h.moved hfdIN hmax hpeer
  intro curr' fd' heq d hd
  rw [hpc'] at heq
  cases heq
  obtain ⟨hle, hopen⟩ := h.pending curr fd hpc d hd
  exact ⟨hle, fun hlt => hopen (by omega)⟩

/-- A new connection joins the set, the open descriptors and the bound. -/
theorem watched_accept {curr : Finset ℕ} {new : ℕ} (h : Watched cfg s)
    (hvisit : Visits s curr cfg.fdTCP) (hfresh : ¬ Open cfg s new) :
    Watched cfg { acceptNewConnection s new with pc := .scan curr (cfg.fdTCP + 1) } := by
  have hpeer : ∀ fd, Function.update s.peer new (some s.accepted) fd ≠ none ↔
      fd = new ∨ s.peer fd ≠ none := by
    intro fd
    by_cases hfd : fd = new
    · subst hfd
      simp
    · simp [hfd]
  have hopen : ∀ fd, Open cfg { acceptNewConnection s new with
      pc := .scan curr (cfg.fdTCP + 1) } fd ↔ fd = new ∨ Open cfg s fd := by
    intro fd
    change Listening cfg fd ∨ Function.update s.peer new (some s.accepted) fd ≠ none ↔
      fd = new ∨ Listening cfg fd ∨ s.peer fd ≠ none
    rw [hpeer]
    tauto
  have hmax : s.fdClients ≤ (if s.fdClients < new then new else s.fdClients) ∧
      new ≤ (if s.fdClients < new then new else s.fdClients) := by
    split <;> omega
  exact {
    mem_iff := fun fd => by
      change fd ∈ fdSet new s.fdIN ↔ _
      rw [hopen, mem_fdSet, h.mem_iff]
      tauto
    le_max := fun fd hfd => by
      rcases mem_fdSet.mp hfd with ⟨rfl, -⟩ | hfd
      · exact hmax.2
      · exact le_trans (h.le_max fd hfd) hmax.1
    connection := fun fd hfd => by
      rcases (hpeer fd).mp hfd with rfl | hfd
      · exact fun hlisten => hfresh (Or.inl hlisten)
      · exact h.connection fd hfd
    pending := fun curr' fd heq d hd => by
      cases heq
      obtain ⟨hle, hstill⟩ := h.pending curr cfg.fdTCP hvisit.pc_eq d hd
      refine ⟨⟨le_trans hle.1 hmax.1, hle.2⟩, fun hlt => ?_⟩
      rw [hopen]
      exact Or.inr (hstill (by omega))
  }

/-- A handler that closes its own descriptor takes it out of the set as well. -/
theorem watched_settle {curr : Finset ℕ} {fd : ℕ} (h : Watched cfg s) (hvisit : Visits s curr fd)
    (hfd : Connection cfg fd) (bytes : ByteBlocks.Bytes) (clients : List Client) (closes : Bool) :
    Watched cfg (settle (filled s curr fd bytes) fd clients closes) := by
  cases closes with
  | false => exact h.advanced hvisit.pc_eq rfl rfl rfl rfl
  | true =>
    have hpeer : ∀ d, Function.update s.peer fd none d ≠ none ↔ d ≠ fd ∧ s.peer d ≠ none := by
      intro d
      by_cases hd : d = fd
      · subst hd
        simp
      · simp [hd]
    have hopen : ∀ d, Open cfg (settle (filled s curr fd bytes) fd clients true) d ↔
        d ≠ fd ∧ Open cfg s d := by
      intro d
      change Listening cfg d ∨ Function.update s.peer fd none d ≠ none ↔
        d ≠ fd ∧ (Listening cfg d ∨ s.peer d ≠ none)
      rw [hpeer]
      constructor
      · rintro (hlisten | ⟨hne, hp⟩)
        · exact ⟨fun he => hfd (he ▸ hlisten), Or.inl hlisten⟩
        · exact ⟨hne, Or.inr hp⟩
      · rintro ⟨hne, hlisten | hp⟩
        · exact Or.inl hlisten
        · exact Or.inr ⟨hne, hp⟩
    exact {
      mem_iff := fun d => by
        rw [hopen, and_assoc, ← h.mem_iff]
        exact Finset.mem_erase
      le_max := fun d hd => h.le_max d (Finset.mem_of_mem_erase hd)
      connection := fun d hd => h.connection d ((hpeer d).mp hd).2
      pending := fun curr' fd' heq d hd => by
        cases heq
        obtain ⟨hle, hstill⟩ := h.pending curr fd hvisit.pc_eq d hd
        refine ⟨hle, fun hlt => ?_⟩
        rw [hopen]
        exact ⟨by omega, hstill (by omega)⟩
    }

theorem step_watched {i : Input} {t : Server} {sends : List Send} (h : Watched cfg s)
    (hstep : Step cfg s i t sends) : Watched cfg t := by
  cases hstep with
  | reuse word => exact h.moved rfl rfl rfl (fun curr fd hpc => h.pending curr fd hpc)
  | select ready hpc hopen hready =>
    refine h.moved rfl rfl rfl ?_
    intro curr fd heq d hd
    cases heq
    obtain ⟨hmem, hle⟩ := hready d hd
    exact ⟨⟨hle, ((h.mem_iff d).mp hmem).2⟩, fun _ => hopen d hmem hle⟩
  | wrap curr fd hpc hend =>
    refine h.moved rfl rfl rfl ?_
    intro curr' fd' heq
    cases heq
  | skip curr fd hpc hle hclear => exact h.advanced hpc rfl rfl rfl rfl
  | accept curr new hvisit hfresh => exact watched_accept h hvisit hfresh
  | publish curr bytes addr locals p hvisit hp => exact h.advanced hvisit.pc_eq rfl rfl rfl rfl
  | disconnect curr fd locals hvisit hfd hpeer => exact watched_settle h hvisit hfd _ _ _
  | identify curr fd bytes locals r hvisit hfd hpeer hne hlen hflag hr =>
    exact (watched_settle h hvisit hfd bytes r.clients r.closes).moved rfl rfl rfl
      (fun curr fd hpc => (watched_settle h hvisit hfd bytes r.clients r.closes).pending curr fd hpc)
  | request curr fd bytes locals clients hvisit hfd hpeer hne hlen hflag hr =>
    exact h.advanced hvisit.pc_eq rfl rfl rfl rfl

theorem Watched.peer_ne_none (h : Watched cfg s) {curr : Finset ℕ} {fd : ℕ}
    (hvisit : Visits s curr fd) (hfd : Connection cfg fd) : s.peer fd ≠ none :=
  ((h.pending curr fd hvisit.pc_eq fd hvisit.mem).2 le_rfl).resolve_left hfd

end Steps

theorem run_watched {cfg : Config} {tr : List (Server × Input)} {s : Server} (h : Run cfg tr s) :
    Watched cfg s :=
  run_invariant (fun _ s => Watched cfg s) (initial_watched cfg)
    (fun _ _ _ _ _ _ hs hstep _ => step_watched hs hstep) h

/-- A descriptor that the scan visits is open. -/
theorem run_peer {cfg : Config} {tr : List (Server × Input)} {s : Server} (h : Run cfg tr s)
    {curr : Finset ℕ} {fd : ℕ} (hvisit : Visits s curr fd) (hfd : Connection cfg fd) :
    s.peer fd ≠ none :=
  (run_watched h).peer_ne_none hvisit hfd

/-- The scan has served the members of its set that it has passed. -/
def Scanned (tr : List (Server × Input)) (s : Server) : Prop :=
  ∀ curr fd, s.pc = .scan curr fd →
    ∃ pre s₀ post, tr = pre ++ (s₀, Input.select curr) :: post ∧
      ∀ d ∈ curr, d < fd → ∃ e ∈ post, Visits e.1 curr d ∧ ∀ word, e.2 ≠ .reuse word

section Scan

variable {tr : List (Server × Input)} {s : Server}

/-- One more entry, which serves the descriptor at hand if it is set. -/
theorem Scanned.extend {curr : Finset ℕ} {fd fd' : ℕ} (h : Scanned tr s)
    (hpc : s.pc = .scan curr fd) {t : Server} (hpc' : t.pc = .scan curr fd') (i : Input)
    (hserved : ∀ d ∈ curr, d < fd' → d < fd ∨ (Visits s curr d ∧ ∀ word, i ≠ .reuse word)) :
    Scanned (tr ++ [(s, i)]) t := by
  intro curr' fd'' heq
  rw [hpc'] at heq
  cases heq
  obtain ⟨pre, s₀, post, rfl, hpost⟩ := h curr fd hpc
  refine ⟨pre, s₀, post ++ [(s, i)], by simp, ?_⟩
  intro d hd hlt
  rcases hserved d hd hlt with hbefore | hnow
  · obtain ⟨e, he, hvisit⟩ := hpost d hd hbefore
    exact ⟨e, List.mem_append_left _ he, hvisit⟩
  · exact ⟨(s, i), List.mem_append_right _ (List.mem_singleton_self _), hnow⟩

/-- The entry of a visit. -/
theorem Scanned.visited {curr : Finset ℕ} {fd : ℕ} (h : Scanned tr s) (hvisit : Visits s curr fd)
    {t : Server} (hpc' : t.pc = .scan curr (fd + 1)) (i : Input) (hi : ∀ word, i ≠ .reuse word) :
    Scanned (tr ++ [(s, i)]) t := by
  refine h.extend hvisit.pc_eq hpc' i ?_
  intro d hd hlt
  rcases Nat.lt_succ_iff_lt_or_eq.mp hlt with hbefore | rfl
  · exact Or.inl hbefore
  · exact Or.inr ⟨hvisit, hi⟩

theorem step_scanned {cfg : Config} {i : Input} {t : Server} {sends : List Send}
    (h : Scanned tr s) (hstep : Step cfg s i t sends) : Scanned (tr ++ [(s, i)]) t := by
  cases hstep with
  | reuse word =>
    intro curr fd hpc
    exact h.extend hpc hpc _ (fun d _ hlt => Or.inl hlt) curr fd hpc
  | select ready hpc hopen hready =>
    intro curr fd heq
    cases heq
    exact ⟨tr, s, [], rfl, fun d _ hlt => absurd hlt (Nat.not_lt_zero d)⟩
  | wrap curr fd hpc hend =>
    intro curr' fd' heq
    cases heq
  | skip curr fd hpc hle hclear =>
    refine h.extend hpc rfl _ ?_
    intro d hd hlt
    rcases Nat.lt_succ_iff_lt_or_eq.mp hlt with hbefore | rfl
    · exact Or.inl hbefore
    · exact absurd hd hclear
  | accept curr new hvisit hfresh => exact h.visited hvisit rfl _ (fun _ he => by cases he)
  | publish curr bytes addr locals p hvisit hp =>
    exact h.visited hvisit rfl _ (fun _ he => by cases he)
  | disconnect curr fd locals hvisit hfd hpeer =>
    exact h.visited hvisit rfl _ (fun _ he => by cases he)
  | identify curr fd bytes locals r hvisit hfd hpeer hne hlen hflag hr =>
    exact h.visited hvisit rfl _ (fun _ he => by cases he)
  | request curr fd bytes locals clients hvisit hfd hpeer hne hlen hflag hr =>
    exact h.visited hvisit rfl _ (fun _ he => by cases he)

end Scan

theorem run_scanned {cfg : Config} {tr : List (Server × Input)} {s : Server} (h : Run cfg tr s) :
    Scanned tr s :=
  run_invariant Scanned (fun _ _ hpc => by cases hpc)
    (fun _ _ _ _ _ _ hs hstep _ => step_scanned hs hstep) h

/-- A descriptor that `accept` returns fits a descriptor set. -/
def fits : Input → Bool
  | .connection fd _ => decide (fd < fdSetSize)
  | _ => true

/-- Every descriptor that the server gets fits a descriptor set. -/
structure Settable (cfg : Config) (tr : List (Server × Input)) : Prop where
  tcp : cfg.fdTCP < fdSetSize
  udp : cfg.fdUDP < fdSetSize
  accepted : ∀ e ∈ tr, fits e.2 = true

section Range

variable {cfg : Config} {tr : List (Server × Input)} {s : Server}

theorem Settable.of_prefix {pre : List (Server × Input)} (h : Settable cfg tr) (hpre : pre <+: tr) :
    Settable cfg pre where
  tcp := h.tcp
  udp := h.udp
  accepted := fun e he => h.accepted e (hpre.subset he)

/-- Open descriptors are below FD_SETSIZE, at the start and after each step. -/
theorem run_settable (h : Run cfg tr s) :
    Settable cfg tr → ∀ fd, Open cfg s fd → fd < fdSetSize := by
  refine run_invariant (fun tr s => Settable cfg tr → ∀ fd, Open cfg s fd → fd < fdSetSize)
    ?_ ?_ h
  · rintro hset fd ((rfl | rfl | rfl) | hpeer)
    · exact Nat.succ_pos _
    · exact hset.tcp
    · exact hset.udp
    · exact absurd rfl hpeer
  · intro tr s i t sends hrun ih hstep _ hset fd hopen
    have hbefore := ih (hset.of_prefix (List.prefix_append tr _)) fd
    rcases hopen with hlisten | hpeer
    · exact hbefore (Or.inl hlisten)
    · obtain ⟨conn, hconn⟩ := Option.ne_none_iff_exists'.mp hpeer
      rcases step_peer hstep hconn with hold | ⟨-, rfl⟩
      · exact hbefore (Or.inr (by rw [hold]; exact Option.some_ne_none conn))
      · have hfits := hset.accepted _ (List.mem_append_right tr (List.mem_singleton_self _))
        exact of_decide_eq_true hfits

/-- A set in which every open descriptor is all the time has met only such that fit it. -/
theorem settable_of_watched (h : Run cfg tr s)
    (hall : ∀ pre t, pre <+: tr → Run cfg pre t → ∀ fd, Open cfg t fd → fd ∈ t.fdIN) :
    Settable cfg tr := by
  have hfits : ∀ pre t, pre <+: tr → Run cfg pre t → ∀ fd, Open cfg t fd → fd < fdSetSize :=
    fun pre t hpre hrun fd hopen =>
      (((run_watched hrun).mem_iff fd).mp (hall pre t hpre hrun fd hopen)).2
  have hstart := hfits [] (initial cfg) List.nil_prefix (Runs.Path.refl _)
  refine ⟨hstart _ (Or.inl (Or.inr (Or.inl rfl))), hstart _ (Or.inl (Or.inr (Or.inr rfl))), ?_⟩
  rintro ⟨s₀, i⟩ he
  cases i with
  | connection fd nodelay =>
    obtain ⟨pre, post, rfl⟩ := List.append_of_mem he
    obtain ⟨t, hpre, hnext, -⟩ := Path.split h
    obtain ⟨sends, hstep, -⟩ := next_cases hnext
    have hpeer : t.peer fd ≠ none := by
      cases hstep with
      | accept curr new hvisit hfresh =>
        change Function.update s₀.peer fd (some s₀.accepted) fd ≠ none
        simp
    exact decide_eq_true (hfits _ t ⟨post, by simp⟩ (Path.tail hpre hnext) fd (Or.inr hpeer))
  | _ => rfl

end Range

/-- The set is the open descriptors all the time if and only if every descriptor fits it.
In every reachable state the bound covers the set, no read is made from a closed descriptor,
`select` does not fail on one, and a scan that has come to its end has served all that
`select` reported. -/
theorem descriptors_watched {cfg : Config} {tr : List (Server × Input)} {s : Server}
    (h : Run cfg tr s) :
    (Settable cfg tr ↔ ∀ pre t, pre <+: tr → Run cfg pre t → ∀ fd, fd ∈ t.fdIN ↔
      fd = stdinFileno ∨ fd = cfg.fdTCP ∨ fd = cfg.fdUDP ∨ t.peer fd ≠ none) ∧
    (∀ fd ∈ s.fdIN, fd ≤ s.fdClients) ∧
    (∀ curr fd, Visits s curr fd → Connection cfg fd → s.peer fd ≠ none) ∧
    (∀ ready, s.pc = .select →
      step cfg s (.select ready) ≠ .error (.die "Fail: Select Socket Client\n")) ∧
    (∀ curr fd, s.pc = .scan curr fd → s.fdClients < fd →
      ∃ pre s₀ post, tr = pre ++ (s₀, Input.select curr) :: post ∧
        ∀ d ∈ curr, ∃ e ∈ post, Visits e.1 curr d ∧ ∀ word, e.2 ≠ .reuse word) := by
  have hwatched := run_watched h
  refine ⟨⟨?_, ?_⟩, hwatched.le_max, fun curr fd => run_peer h, ?_, ?_⟩
  · intro hset pre t hpre hrun fd
    rw [(run_watched hrun).mem_iff, and_iff_left_of_imp (run_settable hrun (hset.of_prefix hpre) fd)]
    simp only [Open, Listening, or_assoc]
  · intro hexact
    refine settable_of_watched h fun pre t hpre hrun fd hopen => (hexact pre t hpre hrun fd).mpr ?_
    simpa only [Open, Listening, or_assoc] using hopen
  · intro ready hpc
    have hnone : ¬ ∃ fd ∈ s.fdIN, fd ≤ s.fdClients ∧ ¬ Open cfg s fd := by
      rintro ⟨fd, hmem, _, hclosed⟩
      exact hclosed ((hwatched.mem_iff fd).mp hmem).1
    simp only [step, hpc, if_neg hnone]
    split_ifs <;> simp
  · intro curr fd hpc hend
    obtain ⟨pre, s₀, post, htr, hpost⟩ := run_scanned h curr fd hpc
    refine ⟨pre, s₀, post, htr, fun d hd => ?_⟩
    exact hpost d hd (lt_of_le_of_lt (hwatched.pending curr fd hpc d hd).1.1 hend)

/-- Two clients connect, the second with the ID of the first, and a third one gets the
descriptor that the refusal closed. -/
def refusedInputs : List Input :=
  roundInputs 5 [(3, .connection 5 true)] ++ roundInputs 5 [(5, readInput (idMessage 97))] ++
  roundInputs 6 [(3, .connection 6 true)] ++ roundInputs 6 [(6, readInput (idMessage 97))] ++
  roundInputs 6 [(3, .connection 6 true)]

theorem descriptors_watched_refused :
    ∃ tr s, Run usual tr s ∧ s.peer 6 = some 2 ∧ Settable usual tr ∧
      (∀ fd, fd ∈ s.fdIN ↔
        fd = stdinFileno ∨ fd = usual.fdTCP ∨ fd = usual.fdUDP ∨ s.peer fd ≠ none) := by
  obtain ⟨tr, s, hrun, hs⟩ := run_of_inputs usual
    (fun tr s => decide (s.peer 6 = some 2 ∧ ∀ e ∈ tr, fits e.2 = true)) refusedInputs
    (by decide +kernel)
  obtain ⟨hpeer, hfits⟩ := of_decide_eq_true hs
  have hset : Settable usual tr := ⟨by decide, by decide, hfits⟩
  exact ⟨tr, s, hrun, hpeer, hset,
    (descriptors_watched hrun).1.mp hset tr s (List.prefix_refl tr) hrun⟩

/-- The server gets a connection as descriptor 1024: it is open, and not in the set. -/
theorem late_descriptor_unwatched :
    ∃ tr s, Run usual tr s ∧ s.peer 1024 = some 0 ∧
      ¬ ∀ fd, fd ∈ s.fdIN ↔
        fd = stdinFileno ∨ fd = usual.fdTCP ∨ fd = usual.fdUDP ∨ s.peer fd ≠ none := by
  obtain ⟨tr, s, hrun, hs⟩ := run_of_inputs usual
    (fun _ s => decide (s.peer 1024 = some 0 ∧ 1024 ∉ s.fdIN))
    [.select {3}, .tick, .tick, .tick, .connection 1024 true] (by decide +kernel)
  obtain ⟨hpeer, hmem⟩ := of_decide_eq_true hs
  refine ⟨tr, s, hrun, hpeer, fun hexact => hmem ((hexact 1024).mpr ?_)⟩
  rw [hpeer]
  exact Or.inr (Or.inr (Or.inr (Option.some_ne_none 0)))

end TopicBroker.Descriptors
