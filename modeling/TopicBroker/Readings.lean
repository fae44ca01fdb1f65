import TopicBroker.Handshakes

/-!
The reads of one connection in a run. When nobody else sends anything the flag is
set for the first of them only, and each of them finds the buffer cleared.
-/
namespace TopicBroker.Readings

open ByteBlocks Message Registry Requests Publish Identify MainLoop Runs Handshakes

/-- A read with something in it: the flag, the buffer and the local array that it
finds, the bytes, and the descriptor and the registry. -/
structure Reading where
  receiveID : Bool
  buffer : Block bufferServerLen
  topic : Bytes
  bytes : Bytes
  fd : ℕ
  clients : List Client
deriving DecidableEq

def readingOf (conn : ℕ) (e : Server × Input) : Option Reading :=
  match e.2, e.1.pc with
  | .read bytes locals, .scan _ fd =>
    if bytes ≠ [] ∧ e.1.peer fd = some conn then
      some ⟨e.1.receiveID, e.1.sendBuffer, locals.topic, bytes, fd, e.1.clients⟩
    else none
  | _, _ => none

def readings (conn : ℕ) (tr : List (Server × Input)) : List Reading :=
  tr.filterMap (readingOf conn)

theorem readings_append (conn : ℕ) (tr : List (Server × Input)) (e : Server × Input) :
    readings conn (tr ++ [e]) = readings conn tr ++ (readingOf conn e).toList := by
  rw [readings, readings, List.filterMap_append]
  cases h : readingOf conn e <;> simp [h]

theorem reading_nonempty {conn : ℕ} {tr : List (Server × Input)} {r : Reading}
    (h : r ∈ readings conn tr) : r.bytes ≠ [] := by
  obtain ⟨⟨s, i⟩, _, hr⟩ := List.mem_filterMap.mp h
  unfold readingOf at hr
  split at hr
  · split_ifs at hr with hcond
    cases hr
    exact hcond.1
  · cases hr

def connOf : Event → ℕ
  | .accepted conn => conn
  | .message conn _ _ => conn

def isDatagram : Input → Bool
  | .datagram _ _ _ => true
  | _ => false

/-- No other connection is accepted or sends a message, and no datagram arrives. -/
structure Alone (conn : ℕ) (tr : List (Server × Input)) : Prop where
  events : ∀ e ∈ log tr, connOf e = conn
  datagrams : ∀ e ∈ tr, isDatagram e.2 = false

/-- Connections are told apart by their numbers. -/
structure Numbered (s : Server) : Prop where
  below : ∀ fd conn, s.peer fd = some conn → conn < s.accepted
  unique : ∀ fd fd' conn, s.peer fd = some conn → s.peer fd' = some conn → fd = fd'

section Steps

variable {cfg : Config} {tr : List (Server × Input)} {s t : Server} {i : Input}
  {sends : List Send} {conn : ℕ}

theorem Numbered.kept (h : Numbered s) (haccepted : t.accepted = s.accepted)
    (hpeer : ∀ fd conn, t.peer fd = some conn → s.peer fd = some conn) : Numbered t := by
  constructor
  · intro fd conn hfd
    rw [haccepted]
    exact h.below fd conn (hpeer fd conn hfd)
  · intro fd fd' conn hfd hfd'
    exact h.unique fd fd' conn (hpeer fd conn hfd) (hpeer fd' conn hfd')

theorem step_numbered (h : Numbered s) (hstep : Step cfg s i t sends) : Numbered t := by
  cases hstep with
  | accept curr new hvisit hfresh =>
    have hpeer : ∀ fd conn, Function.update s.peer new (some s.accepted) fd = some conn →
        fd = new ∧ conn = s.accepted ∨ s.peer fd = some conn := by
      intro fd conn hfd
      by_cases hnew : fd = new
      · subst hnew
        rw [Function.update_self, Option.some.injEq] at hfd
        exact Or.inl ⟨rfl, hfd.symm⟩
      · rw [Function.update_of_ne hnew] at hfd
        exact Or.inr hfd
    constructor
    · intro fd conn hfd
      change conn < s.accepted + 1
      rcases hpeer fd conn hfd with ⟨_, hconn⟩ | hold
      · omega
      · have hlt := h.below fd conn hold
        omega
    · intro fd fd' conn hfd hfd'
      rcases hpeer fd conn hfd with ⟨hnew, hconn⟩ | hold
      · rcases hpeer fd' conn hfd' with ⟨hnew', _⟩ | hold'
        · rw [hnew, hnew']
        · have hlt := h.below fd' conn hold'
          omega
      · rcases hpeer fd' conn hfd' with ⟨_, hconn⟩ | hold'
        · have hlt := h.below fd conn hold
          omega
        · exact h.unique fd fd' conn hold hold'
  | disconnect curr fd locals hvisit hfd hpeer => exact h.kept rfl fun _ _ => settle_peer _ _
  | identify curr fd bytes locals r hvisit hfd hpeer hne hlen hflag hr =>
    exact h.kept rfl fun _ _ => settle_peer r.clients r.closes
  | _ => exact h.kept rfl fun _ _ => id

theorem run_numbered (h : Run cfg tr s) : Numbered s := by
  refine run_invariant (fun _ s => Numbered s) ?_
    (fun _ _ _ _ _ _ hs hstep _ => step_numbered hs hstep) h
  constructor
  · intro fd conn hfd
    cases hfd
  · intro fd fd' conn hfd
    cases hfd

/-- A connection that is alone: the flag waits for its first message only, and it
finds the buffer cleared, as one round reads from it once. -/
structure Lone (conn : ℕ) (tr : List (Server × Input)) (s : Server) : Prop where
  waiting : readings conn tr = [] → (∃ fd, s.peer fd = some conn) → s.receiveID = true
  served : readings conn tr ≠ [] → conn < s.accepted ∧ s.receiveID = false
  flags : ∀ r rest, readings conn tr = r :: rest →
    r.receiveID = true ∧ ∀ q ∈ rest, q.receiveID = false
  cleared : ∀ r ∈ readings conn tr, r.buffer = Block.fill bufferServerLen 0
  scanning : ∀ curr fd, s.pc = .scan curr fd → s.sendBuffer = Block.fill bufferServerLen 0 ∨
    (conn < s.accepted ∧ ∀ d, fd ≤ d → s.peer d ≠ some conn)

/-- A step that reads nothing from the connection. -/
theorem Lone.quiet (h : Lone conn tr s) (hreading : readingOf conn (s, i) = none)
    (haccepted : t.accepted = s.accepted) (hflag : t.receiveID = s.receiveID)
    (hpeer : ∀ d, t.peer d = some conn → s.peer d = some conn)
    (hscanning : ∀ curr fd, t.pc = .scan curr fd →
      t.sendBuffer = Block.fill bufferServerLen 0 ∨ (t.sendBuffer = s.sendBuffer ∧
        ∃ curr' fd', s.pc = .scan curr' fd' ∧ fd' ≤ fd)) : Lone conn (tr ++ [(s, i)]) t := by
  have hsame : readings conn (tr ++ [(s, i)]) = readings conn tr := by
    rw [readings_append, hreading, Option.toList_none, List.append_nil]
  constructor
  · rw [hsame, hflag]
    rintro hnil ⟨d, hd⟩
    exact h.waiting hnil ⟨d, hpeer d hd⟩
  · rw [hsame, haccepted, hflag]
    exact h.served
  · rw [hsame]
    exact h.flags
  · rw [hsame]
    exact h.cleared
  · intro curr fd hpc
    rcases hscanning curr fd hpc with hfill | ⟨hbuffer, curr', fd', hpc', hle⟩
    · exact Or.inl hfill
    · rw [hbuffer, haccepted]
      rcases h.scanning curr' fd' hpc' with hfill | ⟨hlt, hnone⟩
      · exact Or.inl hfill
      · refine Or.inr ⟨hlt, ?_⟩
        intro d hd hconn
        exact hnone d (by omega) (hpeer d hconn)

/-- What a read with something in it finds. -/
theorem readingOf_eq {r : Reading} (h : readingOf conn (s, i) = some r) :
    ∃ curr fd locals, i = .read r.bytes locals ∧ s.pc = .scan curr fd ∧ r.bytes ≠ [] ∧
      s.peer fd = some conn ∧
      r = ⟨s.receiveID, s.sendBuffer, locals.topic, r.bytes, fd, s.clients⟩ := by
  unfold readingOf at h
  split at h
  · rename_i bytes locals curr fd hi hpc
    split_ifs at h with hcond
    cases hi
    cases h
    exact ⟨curr, fd, locals, rfl, hpc, hcond.1, hcond.2, rfl⟩
  · cases h

/-- The flags and the buffers of the reads, the one at hand among them. -/
theorem Lone.reading (h : Lone conn tr s) (i : Input) :
    (∀ r rest, readings conn (tr ++ [(s, i)]) = r :: rest →
      r.receiveID = true ∧ ∀ q ∈ rest, q.receiveID = false) ∧
    ∀ r ∈ readings conn (tr ++ [(s, i)]), r.buffer = Block.fill bufferServerLen 0 := by
  rw [readings_append]
  cases hreading : readingOf conn (s, i) with
  | none =>
    rw [Option.toList_none, List.append_nil]
    exact ⟨h.flags, h.cleared⟩
  | some r₁ =>
    obtain ⟨curr, fd, locals, -, hpc, -, hconn, hr₁⟩ := readingOf_eq hreading
    rw [Option.toList_some, hr₁]
    constructor
    · intro r rest hsplit
      cases hbefore : readings conn tr with
      | nil =>
        rw [hbefore, List.nil_append, List.cons.injEq] at hsplit
        obtain ⟨rfl, rfl⟩ := hsplit
        exact ⟨h.waiting hbefore ⟨fd, hconn⟩, fun q hq => absurd hq List.not_mem_nil⟩
      | cons r₀ rest₀ =>
        rw [hbefore, List.cons_append, List.cons.injEq] at hsplit
        obtain ⟨rfl, rfl⟩ := hsplit
        obtain ⟨htrue, hfalse⟩ := h.flags r₀ rest₀ hbefore
        refine ⟨htrue, ?_⟩
        intro q hq
        rcases List.mem_append.mp hq with hq | hq
        · exact hfalse q hq
        · rw [List.mem_singleton.mp hq]
          exact (h.served (by rw [hbefore]; exact List.cons_ne_nil _ _)).2
    · intro r hr
      rcases List.mem_append.mp hr with hr | hr
      · exact h.cleared r hr
      · rw [List.mem_singleton.mp hr]
        exact (h.scanning curr fd hpc).resolve_right fun hgone =>
          hgone.2 fd (Nat.le_refl fd) hconn

/-- A read from the connection. -/
theorem Lone.reads (h : Lone conn tr s) (hnumbered : Numbered s) {curr : Finset ℕ} {fd : ℕ}
    {bytes : Bytes} {locals : ReadLocals} (hpc : s.pc = .scan curr fd) (hne : bytes ≠ [])
    (hconn : s.peer fd = some conn) (haccepted : t.accepted = s.accepted)
    (hflag : t.receiveID = false) (hpc' : t.pc = .scan curr (fd + 1))
    (hpeer : ∀ d, t.peer d = some conn → s.peer d = some conn) :
    Lone conn (tr ++ [(s, .read bytes locals)]) t := by
  have hreading : readingOf conn (s, .read bytes locals) =
      some ⟨s.receiveID, s.sendBuffer, locals.topic, bytes, fd, s.clients⟩ := by
    simp only [readingOf, hpc]
    rw [if_pos ⟨hne, hconn⟩]
  have hlt := hnumbered.below fd conn hconn
  obtain ⟨hflags, hcleared⟩ := h.reading (.read bytes locals)
  constructor
  · intro hnil
    rw [readings_append, hreading, Option.toList_some] at hnil
    exact absurd hnil (List.append_ne_nil_of_right_ne_nil _ (List.cons_ne_nil _ _))
  · intro _
    rw [haccepted]
    exact ⟨hlt, hflag⟩
  · exact hflags
  · exact hcleared
  · intro curr' fd' hscan
    rw [hpc'] at hscan
    cases hscan
    refine Or.inr ⟨by rw [haccepted]; exact hlt, ?_⟩
    intro d hd hd'
    have hsame := hnumbered.unique d fd conn (hpeer d hd') hconn
    omega

/-- The message of a connection that is alone is its own. -/
theorem Alone.conn_eq (h : Alone conn (tr ++ [(s, i)])) {curr : Finset ℕ} {fd other : ℕ}
    {bytes : Bytes} {locals : ReadLocals} (hi : i = .read bytes locals) (hvisit : Visits s curr fd)
    (hne : bytes ≠ []) (hpeer : s.peer fd = some other) : other = conn := by
  subst hi
  have hlog := log_append tr s (.read bytes locals)
  rw [eventOf_read locals hvisit hne hpeer, Option.toList_some] at hlog
  have hmem := h.events (.message other (dispatch s.receiveID bytes.length) (presentedId s bytes))
  rw [hlog] at hmem
  exact hmem (List.mem_append_right _ (List.mem_singleton_self _))

theorem step_lone (hnumbered : Numbered s) (halone : Alone conn (tr ++ [(s, i)]))
    (h : Lone conn tr s) (hstep : Step cfg s i t sends) : Lone conn (tr ++ [(s, i)]) t := by
  cases hstep with
  | reuse word =>
    exact h.quiet rfl rfl rfl (fun _ => id) fun curr fd hpc =>
      Or.inr ⟨rfl, curr, fd, hpc, Nat.le_refl fd⟩
  | select ready hpc hopen hready =>
    exact h.quiet rfl rfl rfl (fun _ => id) fun _ _ _ => Or.inl rfl
  | wrap curr fd hpc hend =>
    exact h.quiet rfl rfl rfl (fun _ => id) fun _ _ hscan => by cases hscan
  | skip curr fd hpc hle hclear =>
    refine h.quiet rfl rfl rfl (fun _ => id) fun curr' fd' hscan => ?_
    cases hscan
    exact Or.inr ⟨rfl, curr, fd, hpc, Nat.le_succ fd⟩
  | accept curr new hvisit hfresh =>
    have hsame : s.accepted = conn := by
      have hlog := log_append tr s (.connection new true)
      have hmem := halone.events (.accepted s.accepted)
      rw [hlog] at hmem
      exact hmem (List.mem_append_right _ (List.mem_singleton_self _))
    have hnil : readings conn tr = [] := by
      by_contra hne
      have hlt := (h.served hne).1
      omega
    have hreadings : readings conn (tr ++ [(s, .connection new true)]) = [] := by
      rw [readings_append, hnil]
      rfl
    constructor
    · exact fun _ _ => rfl
    · exact fun hne => absurd hreadings hne
    · intro r rest hsplit
      rw [hreadings] at hsplit
      cases hsplit
    · intro r hr
      rw [hreadings] at hr
      cases hr
    · intro curr' fd' hscan
      refine Or.inl ((h.scanning curr _ hvisit.pc_eq).resolve_right ?_)
      rintro ⟨hlt, _⟩
      omega
  | publish curr bytes addr locals p hvisit hp =>
    have hnone := halone.datagrams (s, .datagram bytes addr locals)
      (List.mem_append_right _ (List.mem_singleton_self _))
    cases hnone
  | disconnect curr fd locals hvisit hfd hpeer =>
    have hbuffer : s.sendBuffer.receive [] = s.sendBuffer := by
      apply Block.ext
      rw [Block.receive_bytes_of_le _ _ (Nat.zero_le _)]
      rfl
    refine h.quiet ?_ rfl rfl (fun _ => settle_peer _ _) fun curr' fd' hscan => ?_
    · simp [readingOf, hvisit.pc_eq]
    · cases hscan
      exact Or.inr ⟨hbuffer, curr, fd, hvisit.pc_eq, Nat.le_succ fd⟩
  | identify curr fd bytes locals r hvisit hfd hpeer hne hlen hflag hr =>
    obtain ⟨other, hother⟩ := Option.ne_none_iff_exists'.mp hpeer
    have hsame := halone.conn_eq rfl hvisit hne hother
    subst hsame
    exact h.reads hnumbered hvisit.pc_eq hne hother rfl rfl rfl
      (fun _ => settle_peer r.clients r.closes)
  | request curr fd bytes locals clients hvisit hfd hpeer hne hlen hflag hr =>
    obtain ⟨other, hother⟩ := Option.ne_none_iff_exists'.mp hpeer
    have hsame := halone.conn_eq rfl hvisit hne hother
    subst hsame
    exact h.reads hnumbered hvisit.pc_eq hne hother rfl hflag rfl (fun _ => id)

theorem Alone.of_append {rest : List (Server × Input)} (h : Alone conn (tr ++ rest)) :
    Alone conn tr := by
  constructor
  · intro e he
    apply h.events
    rw [log, List.filterMap_append]
    exact List.mem_append_left _ he
  · exact fun e he => h.datagrams e (List.mem_append_left _ he)

theorem run_lone (h : Run cfg tr s) (halone : Alone conn tr) : Lone conn tr s := by
  refine run_invariant (fun tr s => Alone conn tr → Lone conn tr s) ?_ ?_ h halone
  · intro _
    constructor
    · rintro _ ⟨fd, hfd⟩
      cases hfd
    · exact fun hne => absurd rfl hne
    · intro r rest hsplit
      cases hsplit
    · exact fun r hr => absurd hr List.not_mem_nil
    · intro curr fd hpc
      cases hpc
  · intro tr s i t sends hrun ih hstep _ halone
    exact step_lone (run_numbered hrun) halone (ih halone.of_append) hstep

end Steps

end TopicBroker.Readings
