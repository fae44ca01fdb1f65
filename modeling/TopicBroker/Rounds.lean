import Mathlib.Data.Finset.Sort
import TopicBroker.Descriptors

/-!
Rounds of the server's loop. Between two calls of `select` the scan serves the descriptors
that the first one reported, each once and in ascending order, and no others: a connection
that is accepted waits for the next round. The greatest descriptor so far bounds the steps
of a round, so nothing that the clients do keeps the server from its next `select`.
-/
namespace TopicBroker.Rounds

open Message Registry Requests Publish Identify MainLoop Runs Descriptors

/-- The members of a set below a bound, in ascending order. -/
def below (curr : Finset ℕ) (fd : ℕ) : List ℕ := (List.range fd).filter (· ∈ curr)

theorem below_succ (curr : Finset ℕ) (fd : ℕ) :
    below curr (fd + 1) = below curr fd ++ (if fd ∈ curr then [fd] else []) := by
  rw [below, List.range_succ, List.filter_append, below]
  split_ifs with h <;> simp [h]

/-- The descriptor that a step serves. -/
def servedBy (e : Server × Input) : Option ℕ :=
  match e.2, e.1.pc with
  | .reuse _, _ => none
  | _, .scan curr fd => if fd ≤ e.1.fdClients ∧ fd ∈ curr then some fd else none
  | _, .select => none

/-- The descriptors served, in the order of the steps. -/
def served (tr : List (Server × Input)) : List ℕ := tr.filterMap servedBy

/-- What a call of `select` reports. -/
def readyOf (e : Server × Input) : Option (Finset ℕ) :=
  match e.2 with
  | .select ready => some ready
  | _ => none

def readySets (tr : List (Server × Input)) : List (Finset ℕ) := tr.filterMap readyOf

/-- The descriptors served are those of the rounds before, and of the round at hand those
that the scan has passed. -/
def OnSchedule (tr : List (Server × Input)) (s : Server) : Prop :=
  match s.pc with
  | .select => served tr = (readySets tr).flatMap fun ready => ready.sort
  | .scan curr fd => ∃ before, readySets tr = before ++ [curr] ∧
      served tr = (before.flatMap fun ready => ready.sort) ++ below curr fd

section Schedule

variable {cfg : Config} {tr : List (Server × Input)} {s t : Server} {i : Input} {sends : List Send}

theorem served_concat (tr : List (Server × Input)) (e : Server × Input) :
    served (tr ++ [e]) = served tr ++ (servedBy e).toList := by
  rw [served, served, List.filterMap_append]
  cases h : servedBy e <;> simp [h]

theorem readySets_concat (tr : List (Server × Input)) (e : Server × Input) :
    readySets (tr ++ [e]) = readySets tr ++ (readyOf e).toList := by
  rw [readySets, readySets, List.filterMap_append]
  cases h : readyOf e <;> simp [h]

/-- A step of the scan that serves its descriptor if it is set. -/
theorem OnSchedule.advanced {curr : Finset ℕ} {fd : ℕ} (h : OnSchedule tr s)
    (hpc : s.pc = .scan curr fd) (hpc' : t.pc = .scan curr (fd + 1)) (hready : readyOf (s, i) = none)
    (hserved : (servedBy (s, i)).toList = if fd ∈ curr then [fd] else []) :
    OnSchedule (tr ++ [(s, i)]) t := by
  unfold OnSchedule at h ⊢
  rw [hpc] at h
  obtain ⟨before, hsets, hbefore⟩ := h
  rw [hpc', readySets_concat, hready, served_concat, hserved]
  refine ⟨before, ?_, ?_⟩
  · rw [hsets, Option.toList_none, List.append_nil]
  · rw [hbefore, List.append_assoc, below_succ]

theorem Visits.served {curr : Finset ℕ} {fd : ℕ} (hvisit : Visits s curr fd)
    (hi : ∀ word, i ≠ .reuse word) : (servedBy (s, i)).toList = if fd ∈ curr then [fd] else [] := by
  have hsome : servedBy (s, i) = some fd := by
    cases i with
    | reuse word => exact absurd rfl (hi word)
    | _ => simp only [servedBy, hvisit.pc_eq, if_pos (And.intro hvisit.le_max hvisit.mem)]
  rw [hsome, if_pos hvisit.mem]
  rfl

/-- The scan at hand does not come to the descriptor any more. -/
def Behind (s : Server) (d : ℕ) : Prop := ∀ curr fd, s.pc = .scan curr fd → d ∈ curr → d < fd

theorem Behind.advanced {curr : Finset ℕ} {fd d : ℕ} (h : Behind s d) (hpc : s.pc = .scan curr fd)
    (hpc' : t.pc = .scan curr (fd + 1)) : Behind t d := by
  intro curr' fd' heq hmem
  rw [hpc'] at heq
  cases heq
  exact Nat.lt_succ_of_lt (h curr fd hpc hmem)

end Schedule

/-- A round that reports a connection request and a client in reach of it, and the next one
with the client that was accepted. -/
def twoRounds : List Input :=
  roundInputs 5 [(3, .connection 5 true)] ++
  roundInputs 6 [(3, .connection 6 true), (5, readInput (idMessage 97))] ++
  roundInputs 6 [(6, readInput (idMessage 98))]

section Length

variable {cfg : Config} {tr : List (Server × Input)} {s t : Server} {i : Input} {sends : List Send}

/-- The steps of the loop since the last call of `select`. -/
def stepsNext (n : ℕ) (e : Server × Input) : ℕ :=
  match e.2 with
  | .select _ => 0
  | .reuse _ => n
  | _ => n + 1

def stepsSince (tr : List (Server × Input)) : ℕ := tr.foldl stepsNext 0

theorem stepsSince_concat (tr : List (Server × Input)) (e : Server × Input) :
    stepsSince (tr ++ [e]) = stepsNext (stepsSince tr) e := by
  rw [stepsSince, stepsSince, List.foldl_append, List.foldl_cons, List.foldl_nil]

/-- The scan is one step ahead of its bound at most, and the steps of a round are counted by
the descriptor that the scan is at. -/
structure Paced (tr : List (Server × Input)) (s : Server) : Prop where
  scan : ∀ curr fd, s.pc = .scan curr fd → stepsSince tr = fd ∧ fd ≤ s.fdClients + 1
  select : s.pc = .select → stepsSince tr ≤ s.fdClients + 2

theorem Paced.advanced {curr : Finset ℕ} {fd : ℕ} (h : Paced tr s) (hpc : s.pc = .scan curr fd)
    (hle : fd ≤ s.fdClients) (hmax : s.fdClients ≤ t.fdClients)
    (hpc' : t.pc = .scan curr (fd + 1)) (hstep : stepsNext (stepsSince tr) (s, i) = stepsSince tr + 1) :
    Paced (tr ++ [(s, i)]) t := by
  obtain ⟨hsteps, _⟩ := h.scan curr fd hpc
  refine ⟨?_, ?_⟩
  · intro curr' fd' heq
    rw [hpc'] at heq
    cases heq
    rw [stepsSince_concat, hstep, hsteps]
    exact ⟨rfl, by omega⟩
  · intro heq
    rw [hpc'] at heq
    cases heq

theorem step_paced (h : Paced tr s) (hstep : Step cfg s i t sends) : Paced (tr ++ [(s, i)]) t := by
  cases hstep with
  | reuse word =>
    refine ⟨?_, ?_⟩
    · intro curr fd hpc
      rw [stepsSince_concat]
      exact h.scan curr fd hpc
    · intro hpc
      rw [stepsSince_concat]
      exact h.select hpc
  | select ready hpc hopen hready =>
    refine ⟨?_, ?_⟩
    · intro curr fd heq
      cases heq
      rw [stepsSince_concat]
      exact ⟨rfl, Nat.zero_le _⟩
    · intro heq
      cases heq
  | wrap curr fd hpc hend =>
    obtain ⟨hsteps, hle⟩ := h.scan curr fd hpc
    refine ⟨?_, ?_⟩
    · intro curr' fd' heq
      cases heq
    · intro _
      rw [stepsSince_concat]
      change stepsSince tr + 1 ≤ s.fdClients + 2
      omega
  | skip curr fd hpc hle hclear => exact h.advanced hpc hle le_rfl rfl rfl
  | accept curr new hvisit hfresh =>
    refine h.advanced hvisit.pc_eq hvisit.le_max ?_ rfl rfl
    change s.fdClients ≤ if s.fdClients < new then new else s.fdClients
    split <;> omega
  | publish curr bytes addr locals p hvisit hp =>
    exact h.advanced hvisit.pc_eq hvisit.le_max le_rfl rfl rfl
  | disconnect curr fd locals hvisit hfd hpeer =>
    exact h.advanced hvisit.pc_eq hvisit.le_max le_rfl rfl rfl
  | identify curr fd bytes locals r hvisit hfd hpeer hne hlen hflag hr =>
    exact h.advanced hvisit.pc_eq hvisit.le_max le_rfl rfl rfl
  | request curr fd bytes locals clients hvisit hfd hpeer hne hlen hflag hr =>
    exact h.advanced hvisit.pc_eq hvisit.le_max le_rfl rfl rfl

theorem run_paced (h : Run cfg tr s) : Paced tr s := by
  refine run_invariant Paced ?_ (fun tr s i t sends _ ih hstep _ => step_paced ih hstep) h
  refine ⟨?_, fun _ => Nat.zero_le _⟩
  intro curr fd heq
  cases heq

/-- The bound of the scan is a descriptor that the server got. -/
theorem run_fdClients (h : Run cfg tr s) : Settable cfg tr → s.fdClients < fdSetSize := by
  refine run_invariant (fun tr s => Settable cfg tr → s.fdClients < fdSetSize)
    (fun hset => max_lt hset.tcp hset.udp) ?_ h
  intro tr s i t sends _ ih hstep _ hset
  have hbefore := ih (hset.of_prefix (List.prefix_append tr _))
  have hfits := hset.accepted _ (List.mem_append_right tr (List.mem_singleton_self _))
  cases hstep with
  | accept curr new hvisit hfresh =>
    have hnew : new < fdSetSize := of_decide_eq_true hfits
    change (if s.fdClients < new then new else s.fdClients) < fdSetSize
    split
    · exact hnew
    · exact hbefore
  | _ => exact hbefore

end Length

/-- In no run the server makes more steps than this without a call of `select`: the bound is
the greatest descriptor so far, and with descriptors that fit it is the size of a set. -/
theorem round_bounded {cfg : Config} {tr : List (Server × Input)} {s : Server} (h : Run cfg tr s) :
    stepsSince tr ≤ s.fdClients + 2 ∧ (Settable cfg tr → stepsSince tr ≤ fdSetSize + 1) := by
  have hpaced := run_paced h
  have hsteps : stepsSince tr ≤ s.fdClients + 2 := by
    cases hpc : s.pc with
    | select => exact hpaced.select hpc
    | scan curr fd =>
      obtain ⟨hsteps, hle⟩ := hpaced.scan curr fd hpc
      omega
  refine ⟨hsteps, fun hset => ?_⟩
  have hbound := run_fdClients h hset
  omega

theorem round_bounded_twoRounds :
    ∃ tr s, Run usual tr s ∧ Settable usual tr ∧ stepsSince tr = 8 ∧
      stepsSince tr ≤ s.fdClients + 2 ∧ stepsSince tr ≤ fdSetSize + 1 := by
  obtain ⟨tr, s, hrun, hs⟩ := run_of_inputs usual
    (fun tr _ => decide (stepsSince tr = 8 ∧ ∀ e ∈ tr, fits e.2 = true)) twoRounds
    (by decide +kernel)
  obtain ⟨hsteps, hfits⟩ := of_decide_eq_true hs
  have hset : Settable usual tr := ⟨by decide, by decide, hfits⟩
  obtain ⟨hbound, hfit⟩ := round_bounded hrun
  exact ⟨tr, s, hrun, hset, hsteps, hbound, hfit hset⟩

end TopicBroker.Rounds
