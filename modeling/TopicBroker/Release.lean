import TopicBroker.Descriptors
import TopicBroker.Readings

/-!
What becomes of a connection whose peer has closed. `disconnect_client` closes the
descriptor for every record that names it, so a connection without a record stays in
the set, open, and is reported by every later `select`.
-/
namespace TopicBroker.Release

open ByteBlocks Message Registry Identify MainLoop Runs Descriptors Readings

/-- The state after a zero-byte read as it is to be: the descriptor is gone, no record
names it, and nothing else has changed. -/
structure Released (s t : Server) (fd : ℕ) : Prop where
  closed : t.peer fd = none
  cleared : fd ∉ t.fdIN
  unnamed : ∀ c ∈ t.clients, c.sock ≠ fd
  records : t.clients = s.clients.map (released fd)
  others : ∀ d, d ≠ fd → t.peer d = s.peer d ∧ (d ∈ t.fdIN ↔ d ∈ s.fdIN)

/-- The descriptor that a zero-byte read came from. -/
def closing (e : Server × Input) : Option ℕ :=
  match e.2, e.1.pc with
  | .read [] _, .scan _ fd => some fd
  | _, _ => none

/-- The connections whose peers have closed. -/
def closed (tr : List (Server × Input)) : List ℕ :=
  tr.filterMap fun e => (closing e).bind e.1.peer

/-- Every zero-byte read came from a descriptor that some record named. -/
def Recorded (tr : List (Server × Input)) : Prop :=
  ∀ e ∈ tr, ∀ fd ∈ closing e, ∃ c ∈ e.1.clients, c.sock = fd

instance (tr : List (Server × Input)) : Decidable (Recorded tr) :=
  inferInstanceAs (Decidable (∀ e ∈ tr, ∀ fd ∈ closing e, ∃ c ∈ e.1.clients, c.sock = fd))

section Close

variable {cfg : Config} {s : Server} {fd : ℕ}

/-- A zero-byte read on an open connection is always handled. -/
theorem next_close {curr : Finset ℕ} (locals : ReadLocals) (hvisit : Visits s curr fd)
    (hfd : Connection cfg fd) (hpeer : s.peer fd ≠ none) :
    next cfg s (.read [] locals) = some (settle (filled s curr fd []) fd
      (disconnectClient fd s.clients).1 (disconnectClient fd s.clients).2) := by
  rw [next, step_read locals hvisit hfd hpeer (Nat.zero_le _)]
  rfl

theorem released_sock (c : Client) : (released (fd : ℤ) c).sock ≠ fd := by
  unfold released
  split
  · change (-1 : ℤ) ≠ fd
    omega
  · assumption

/-- The release is complete exactly when a record names the descriptor. -/
theorem released_iff (curr : Finset ℕ) (hpeer : s.peer fd ≠ none) :
    Released s (settle (filled s curr fd []) fd (disconnectClient fd s.clients).1
      (disconnectClient fd s.clients).2) fd ↔ ∃ c ∈ s.clients, c.sock = fd := by
  rw [disconnectClient_eq]
  by_cases hnamed : ∃ c ∈ s.clients, c.sock = fd
  · refine iff_of_true ?_ hnamed
    simp only [decide_eq_true hnamed]
    exact {
      closed := Function.update_self ..
      cleared := Finset.notMem_erase _ _
      unnamed := fun c hc => by
        obtain ⟨d, _, rfl⟩ := List.mem_map.mp hc
        exact released_sock d
      records := rfl
      others := fun d hd => ⟨Function.update_of_ne hd .., by
        change d ∈ s.fdIN.erase fd ↔ d ∈ s.fdIN
        rw [Finset.mem_erase]
        exact and_iff_right hd⟩
    }
  · refine iff_of_false ?_ hnamed
    simp only [decide_eq_false hnamed]
    exact fun h => hpeer h.closed

end Close

section Steps

variable {cfg : Config} {tr : List (Server × Input)} {s t : Server} {i : Input} {sends : List Send}

theorem step_accepted (hstep : Step cfg s i t sends) : s.accepted ≤ t.accepted := by
  cases hstep with
  | accept curr new hvisit hfresh => exact Nat.le_succ _
  | _ => exact le_rfl

theorem closed_append (tr : List (Server × Input)) (e : Server × Input) :
    closed (tr ++ [e]) = closed tr ++ ((closing e).bind e.1.peer).toList := by
  rw [closed, closed, List.filterMap_append]
  cases h : (closing e).bind e.1.peer <;> simp [h]

theorem closing_eq {curr : Finset ℕ} {fd : ℕ} (locals : ReadLocals) (hvisit : Visits s curr fd) :
    closing (s, .read [] locals) = some fd := by
  simp only [closing, hvisit.pc_eq]

/-- A step that closes a connection visits its descriptor. -/
theorem closing_eq_some (hstep : Step cfg s i t sends) {fd : ℕ} (h : closing (s, i) = some fd) :
    ∃ curr, s.peer fd ≠ none ∧ t = settle (filled s curr fd []) fd
      (disconnectClient fd s.clients).1 (disconnectClient fd s.clients).2 := by
  cases hstep with
  | disconnect curr fd' locals hvisit hfd hpeer =>
    rw [closing_eq locals hvisit] at h
    cases h
    exact ⟨curr, hpeer, rfl⟩
  | identify curr fd bytes locals r hvisit hfd hpeer hne hlen hflag hr =>
    cases bytes with
    | nil => exact absurd rfl hne
    | cons b rest => cases h
  | request curr fd bytes locals clients hvisit hfd hpeer hne hlen hflag hr =>
    cases bytes with
    | nil => exact absurd rfl hne
    | cons b rest => cases h
  | _ => cases h

theorem Recorded.of_append {rest : List (Server × Input)} (h : Recorded (tr ++ rest)) :
    Recorded tr := fun e he => h e (List.mem_append_left rest he)

/-- Closed connections stay closed: their numbers are used up and behind no descriptor. -/
theorem run_closed (h : Run cfg tr s) (hrecorded : Recorded tr) :
    ∀ conn ∈ closed tr, conn < s.accepted ∧ ∀ d, s.peer d ≠ some conn := by
  refine run_invariant (fun tr s => Recorded tr → ∀ conn ∈ closed tr,
    conn < s.accepted ∧ ∀ d, s.peer d ≠ some conn) (fun _ conn hconn => by cases hconn) ?_ h
    hrecorded
  intro tr s i t sends hrun ih hstep _ hrec conn hconn
  have hmono := step_accepted hstep
  rw [closed_append, List.mem_append] at hconn
  rcases hconn with hold | hnow
  · obtain ⟨hlt, hgone⟩ := ih hrec.of_append conn hold
    refine ⟨by omega, fun d hd => ?_⟩
    rcases step_peer hstep hd with hbefore | ⟨hnew, -⟩
    · exact hgone d hbefore
    · omega
  · obtain ⟨fd, hclosing, hpeer⟩ := Option.bind_eq_some_iff.mp (Option.mem_toList.mp hnow)
    obtain ⟨curr, hopen, rfl⟩ := closing_eq_some hstep hclosing
    have hnumbered := run_numbered hrun
    have hnamed := hrec (s, i) (List.mem_append_right _ (List.mem_singleton_self _)) fd hclosing
    have hrel := (released_iff curr hopen).mpr hnamed
    refine ⟨lt_of_lt_of_le (hnumbered.below fd conn hpeer) hmono, fun d hd => ?_⟩
    by_cases hfd : d = fd
    · rw [hfd, hrel.closed] at hd
      cases hd
    · rw [(hrel.others d hfd).1] at hd
      exact hfd (hnumbered.unique d fd conn hd hpeer)

end Steps

/-- A zero-byte read releases its descriptor exactly when a record names it; and in a run
in which this is so at every such read, no descriptor of the set belongs to a connection
whose peer has closed. -/
theorem closed_released_iff {cfg : Config} {tr : List (Server × Input)} {s : Server}
    (h : Run cfg tr s) :
    (∀ curr fd locals, Visits s curr fd → Connection cfg fd →
      ((∃ t, next cfg s (.read [] locals) = some t ∧ Released s t fd) ↔
        ∃ c ∈ s.clients, c.sock = fd)) ∧
    (Recorded tr → ∀ d ∈ s.fdIN, ∀ conn, s.peer d = some conn → conn ∉ closed tr) := by
  constructor
  · intro curr fd locals hvisit hfd
    have hpeer := run_peer h hvisit hfd
    rw [next_close locals hvisit hfd hpeer, ← released_iff curr hpeer]
    constructor
    · rintro ⟨t, ht, hreleased⟩
      cases ht
      exact hreleased
    · exact fun hreleased => ⟨_, rfl, hreleased⟩
  · intro hrecorded d _ conn hconn hmem
    exact (run_closed h hrecorded conn hmem).2 d hconn

/-- A client connects and sends its ID; its descriptor is then reported once more. -/
def identifiedInputs : List Input :=
  roundInputs 5 [(3, .connection 5 true)] ++ roundInputs 5 [(5, readInput (idMessage 97))] ++
  .select {5} :: List.replicate 5 .tick

theorem closed_released_iff_identified :
    ∃ tr s t, Run usual tr s ∧ next usual s (readInput []) = some t ∧ Released s t 5 ∧
      Recorded (tr ++ [(s, readInput [])]) ∧ closed (tr ++ [(s, readInput [])]) = [0] ∧
      ∀ d ∈ t.fdIN, ∀ conn, t.peer d = some conn → conn ∉ closed (tr ++ [(s, readInput [])]) := by
  obtain ⟨tr, s, hrun, hs⟩ := run_of_inputs usual (fun tr s => decide (s.pc = .scan {5} 5 ∧
    5 ≤ s.fdClients ∧ (∃ c ∈ s.clients, c.sock = (5 : ℕ)) ∧
    Recorded (tr ++ [(s, readInput [])]) ∧ closed (tr ++ [(s, readInput [])]) = [0]))
    identifiedInputs (by decide +kernel)
  obtain ⟨hpc, hle, hnamed, hrecorded, hclosed⟩ := of_decide_eq_true hs
  have hvisit : Visits s {5} 5 := ⟨hpc, hle, Finset.mem_singleton_self 5⟩
  obtain ⟨t, ht, hreleased⟩ :=
    ((closed_released_iff hrun).1 {5} 5 ⟨[], [], []⟩ hvisit (by decide)).mpr hnamed
  exact ⟨tr, s, t, hrun, ht, hreleased, hrecorded, hclosed,
    (closed_released_iff (Path.tail hrun ht)).2 hrecorded⟩

/-- A client connects and goes away without a word. -/
def silentInputs : List Input :=
  roundInputs 5 [(3, .connection 5 true)] ++ roundInputs 5 [(5, readInput [])]

/-- The descriptor stays open and in the set, and `select` goes on reporting it. -/
theorem silent_not_released :
    ∃ tr s, Run usual tr s ∧ 0 ∈ closed tr ∧ 5 ∈ s.fdIN ∧ s.peer 5 = some 0 ∧
      (next usual s (.select {5})).isSome = true := by
  obtain ⟨tr, s, hrun, hs⟩ := run_of_inputs usual (fun tr s => decide (0 ∈ closed tr ∧
    5 ∈ s.fdIN ∧ s.peer 5 = some 0 ∧ (next usual s (.select {5})).isSome = true)) silentInputs
    (by decide +kernel)
  exact ⟨tr, s, hrun, of_decide_eq_true hs⟩

end TopicBroker.Release
