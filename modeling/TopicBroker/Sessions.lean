import TopicBroker.ExactlyOnce
import TopicBroker.Release

/-!
A client's frames, connection by connection. The record of a client holds one
connection after the other, and as long as IDs come in turn what is sent to the client
is what is sent on these connections, one after the other.
-/
namespace TopicBroker.Sessions

open ByteBlocks Message Registry Publish Identify Identity MainLoop Runs Handshakes Persistence
  StoreForward Binding Readings Release PubSub Refinement ExactlyOnce

/-- The connection behind a socket. -/
def connOf (s : Server) (sock : ℤ) : Option ℕ := if 0 ≤ sock then s.peer sock.toNat else none

/-- The frames that a step sends on a connection. -/
def sentOnOf (cfg : Config) (conn : ℕ) (e : Server × Input) : List Frame :=
  ((sent cfg e.1 e.2).filter (connOf e.1 ·.sock = some conn)).map Send.frame

def sentOn (cfg : Config) (conn : ℕ) (tr : List (Server × Input)) : List Frame :=
  tr.flatMap (sentOnOf cfg conn)

/-- The connection that a record holds. -/
def held (s : Server) (j : ℕ) : Option ℕ := (s.clients[j]?).bind fun c => connOf s c.sock

/-- The connection that a record gets in a step. -/
def sessionOf (cfg : Config) (j : ℕ) (e : Server × Input) : Option ℕ :=
  if held e.1 j = none then (next cfg e.1 e.2).bind (held · j) else none

/-- The connections that a record has held. -/
def sessions (cfg : Config) (j : ℕ) (tr : List (Server × Input)) : List ℕ :=
  tr.filterMap (sessionOf cfg j)

section Steps

variable {cfg : Config} {tr : List (Server × Input)} {s t : Server} {i : Input} {j conn : ℕ}

theorem connOf_cast (s : Server) (fd : ℕ) : connOf s fd = s.peer fd := by
  simp [connOf]

theorem connOf_offline (s : Server) : connOf s (-1) = none := by
  simp [connOf]

theorem sentOn_concat (conn : ℕ) (e : Server × Input) :
    sentOn cfg conn (tr ++ [e]) = sentOn cfg conn tr ++ sentOnOf cfg conn e := by
  rw [sentOn, sentOn, List.flatMap_append, List.flatMap_singleton]

theorem sessions_concat (j : ℕ) (e : Server × Input) :
    sessions cfg j (tr ++ [e]) = sessions cfg j tr ++ (sessionOf cfg j e).toList := by
  rw [sessions, sessions, List.filterMap_append]
  cases h : sessionOf cfg j e <;> simp [h]

/-- Descriptors of one connection are one descriptor. -/
theorem connOf_inj (h : Numbered s) {sock : ℤ} {fd : ℕ} (hsock : connOf s sock = some conn)
    (hfd : s.peer fd = some conn) : sock = fd := by
  unfold connOf at hsock
  split at hsock
  · have hsame := h.unique _ _ _ hsock hfd
    omega
  · cases hsock

/-- A bound record holds the connection of its socket. -/
theorem held_of_bound (h : Bound tr s) {c : Client} (hc : s.clients[j]? = some c)
    (hon : c.sock ≠ -1) : ∃ (fd conn : ℕ), c.sock = fd ∧ s.peer fd = some conn ∧
      held s j = some conn ∧ PresentedBy tr conn c := by
  obtain ⟨fd, conn, hfd, hconn, hpresented⟩ := h.presented c (List.mem_of_getElem? hc) hon
  refine ⟨fd, conn, hfd, hconn, ?_, hpresented⟩
  rw [held, hc, Option.bind_some, hfd, connOf_cast, hconn]

theorem held_offline {c : Client} (hc : s.clients[j]? = some c) (hoff : c.sock = -1) :
    held s j = none := by
  rw [held, hc, Option.bind_some, hoff, connOf_offline]

/-- A step that sends leaves the connections alone. -/
theorem peer_of_sends {sends : List Send} (hstep : Step cfg s i t sends) {e : Send}
    (he : e ∈ sends) : t.peer = s.peer := by
  cases hstep with
  | publish curr bytes addr locals p hvisit hp => rfl
  | identify curr fd bytes locals r hvisit hfd hpeer hne hlen hflag hr =>
    have hcases := handleIdClient_cases _ _ _ _ hr
    generalize s.clients = clients at hcases
    cases hcases with
    | refused pre c post hpre hc honline => cases he
    | resumed pre c post hpre hc hoffline => rfl
    | appended _ hnone => cases he
  | _ => cases he

/-- A frame goes to a record that is online afterwards. -/
theorem recipient {sends : List Send} (hstep : Step cfg s i t sends) {e : Send} (he : e ∈ sends) :
    ∃ c ∈ t.clients, c.sock = e.sock ∧ c.sock ≠ -1 := by
  obtain ⟨j, hdelivery⟩ := step_delivery hstep he
  cases hdelivery with
  | live bytes addr locals _ c hc hc' hon hmatch => exact ⟨c, List.mem_of_getElem? hc', rfl, hon⟩
  | stored fd bytes locals _ c frame hne hflag hcarries hc hoff hc' hword =>
    refine ⟨_, List.mem_of_getElem? hc', rfl, ?_⟩
    change (fd : ℤ) ≠ -1
    omega

/-- An open descriptor keeps its connection as long as it is open. -/
theorem peer_stable {sends : List Send} (hstep : Step cfg s i t sends) {fd conn' : ℕ}
    (h : s.peer fd = some conn) (h' : t.peer fd = some conn') : conn' = conn := by
  have hsame : s.peer fd = some conn' := by
    cases hstep with
    | accept curr new hvisit hfresh =>
      have hne : fd ≠ new := by
        rintro rfl
        exact hfresh (Or.inr (by rw [h]; exact Option.some_ne_none conn))
      exact (Function.update_of_ne hne _ s.peer).symm.trans h'
    | disconnect curr fd locals hvisit hfd hpeer =>
      exact settle_peer (disconnectClient fd s.clients).1 (disconnectClient fd s.clients).2 h'
    | identify curr fd bytes locals r hvisit hfd hpeer hne hlen hflag hr =>
      exact settle_peer r.clients r.closes h'
    | _ => exact h'
  rw [h] at hsame
  exact (Option.some.inj hsame).symm

/-- What was dead stays dead. -/
theorem dead_step {sends : List Send} (hstep : Step cfg s i t sends) (hlt : conn < s.accepted)
    (hdead : ∀ fd, s.peer fd ≠ some conn) :
    conn < t.accepted ∧ ∀ fd, t.peer fd ≠ some conn := by
  refine ⟨lt_of_lt_of_le hlt (step_accepted hstep), fun fd hfd => ?_⟩
  rcases step_peer hstep hfd with hold | ⟨hnew, -⟩
  · exact hdead fd hold
  · omega

theorem sentOnOf_dead (hdead : ∀ fd, s.peer fd ≠ some conn) : sentOnOf cfg conn (s, i) = [] := by
  rw [sentOnOf, List.map_eq_nil_iff, List.filter_eq_nil_iff]
  intro e _ he
  have hconn := of_decide_eq_true he
  unfold connOf at hconn
  split at hconn
  · exact hdead _ hconn
  · cases hconn

/-- What a step sends to a record is what it sends on the connection that the record
holds afterwards. -/
theorem inboxOf_held (hnumbered : Numbered s) (hnext : next cfg s i = some t)
    (hbound : Bound (tr ++ [(s, i)]) t) (hheld : held t j = some conn) :
    inboxOf cfg j (s, i) = sentOnOf cfg conn (s, i) := by
  obtain ⟨sends, hstep, hsent⟩ := next_cases hnext
  cases hc : t.clients[j]? with
  | none => simp [held, hc] at hheld
  | some c =>
    have hon : c.sock ≠ -1 := by
      intro hoff
      rw [held_offline hc hoff] at hheld
      cases hheld
    obtain ⟨fd, conn', hfd, hpeer, hheld', _⟩ := held_of_bound hbound hc hon
    rw [hheld] at hheld'
    cases hheld'
    simp only [inboxOf, sentOnOf, hnext, Option.bind_some, hc, hsent]
    congr 1
    apply List.filter_congr
    intro e he
    rw [peer_of_sends hstep he] at hpeer
    refine decide_eq_decide.mpr ⟨?_, ?_⟩
    · intro hsock
      rw [hsock, hfd, connOf_cast, hpeer]
    · intro hconn
      rw [connOf_inj hnumbered hconn hpeer, hfd]

theorem inboxOf_unheld (hnext : next cfg s i = some t) (hbound : Bound (tr ++ [(s, i)]) t)
    (hheld : held t j = none) : inboxOf cfg j (s, i) = [] := by
  obtain ⟨sends, hstep, hsent⟩ := next_cases hnext
  cases hc : t.clients[j]? with
  | none => simp only [inboxOf, hnext, Option.bind_some, hc]
  | some c =>
    have hoff : c.sock = -1 := by
      by_contra hon
      obtain ⟨_, _, _, _, hheld', _⟩ := held_of_bound hbound hc hon
      rw [hheld] at hheld'
      cases hheld'
    simp only [inboxOf, hnext, Option.bind_some, hc, hsent, List.map_eq_nil_iff,
      List.filter_eq_nil_iff]
    intro e he hsock
    obtain ⟨d, _, hd, hon⟩ := recipient hstep he
    exact hon (hd.trans ((of_decide_eq_true hsock).trans hoff))

/-- Frames are sent on connections that have presented an ID. -/
theorem spoken_of_sent (h : Run cfg tr s) (hturn : InTurn (log tr)) (hne : sentOn cfg conn tr ≠ []) :
    ¬ Silent conn (log tr) := by
  refine Path.invariant (fun tr s => InTurn (log tr) → sentOn cfg conn tr ≠ [] →
    ¬ Silent conn (log tr)) (fun _ hne => absurd rfl hne) ?_ h hturn hne
  intro tr s i t hrun ih hnext hturn hne hsilent
  have hrun' : Run cfg (tr ++ [(s, i)]) t := Path.tail hrun hnext
  have hbound := run_bound hrun' hturn
  rw [log_append] at hturn hsilent
  have hbefore : sentOn cfg conn tr = [] := by
    by_contra hold
    exact ih hturn.of_append hold fun handler id hmem =>
      hsilent handler id (List.mem_append_left _ hmem)
  rw [sentOn_concat, hbefore, List.nil_append] at hne
  obtain ⟨sends, hstep, hsent⟩ := next_cases hnext
  obtain ⟨frame, hframe⟩ := List.exists_mem_of_ne_nil _ hne
  obtain ⟨e, he, _⟩ := List.mem_map.mp hframe
  obtain ⟨he, hconn⟩ := List.mem_filter.mp he
  rw [hsent] at he
  obtain ⟨c, hc, hsock, hon⟩ := recipient hstep he
  obtain ⟨fd, conn', hfd, hpeer, hpresented⟩ := hbound.presented c hc hon
  have hsame : conn' = conn := by
    have hconn := of_decide_eq_true hconn
    rw [← hsock, hfd, connOf_cast, ← peer_of_sends hstep he, hpeer] at hconn
    exact Option.some.inj hconn
  subst hsame
  unfold PresentedBy at hpresented
  rw [log_append] at hpresented
  exact hsilent _ _ hpresented

theorem peer_of_read {bytes : Bytes} {locals : ReadLocals} {sends : List Send}
    (hstep : Step cfg s (.read bytes locals) t sends) {fd : ℕ} (h : t.peer fd = some conn) :
    s.peer fd = some conn := by
  cases hstep with
  | disconnect curr fd' _ hvisit hfd hpeer =>
    exact settle_peer (disconnectClient fd' s.clients).1 (disconnectClient fd' s.clients).2 h
  | identify curr fd' _ _ r hvisit hfd hpeer hne hlen hflag hr => exact settle_peer r.clients r.closes h
  | request curr fd' _ _ clients hvisit hfd hpeer hne hlen hflag hr => exact h

/-- A record loses its connection when that is closed, and then nothing is sent. -/
theorem held_lost (hnumbered : Numbered s) (hbound : Bound tr s)
    (hbound' : Bound (tr ++ [(s, i)]) t) {sends : List Send} (hstep : Step cfg s i t sends)
    (hheld : held s j = some conn) :
    held t j = some conn ∨ (held t j = none ∧ sends = [] ∧ ∀ fd, t.peer fd ≠ some conn) := by
  cases hc : s.clients[j]? with
  | none => simp [held, hc] at hheld
  | some c =>
    have hon : c.sock ≠ -1 := by
      intro hoff
      rw [held_offline hc hoff] at hheld
      cases hheld
    obtain ⟨fd, conn', hfd, hpeer, hheld', _⟩ := held_of_bound hbound hc hon
    rw [hheld] at hheld'
    cases hheld'
    obtain ⟨c', hc', hchange⟩ := step_record hstep hc
    by_cases hsame : c'.sock = c.sock
    · obtain ⟨fd', conn', hfd', hpeer', hheld', _⟩ := held_of_bound hbound' hc' (by rw [hsame]; exact hon)
      have hfds : fd' = fd := by omega
      subst hfds
      rw [peer_stable hstep hpeer hpeer'] at hheld'
      exact Or.inl hheld'
    · rcases hchange.framed.sock hsame with ⟨fd', ⟨curr, locals, rfl, hvisit⟩, hsock, hoff⟩ |
        ⟨_, _, hoff, _⟩
      · have hfds : fd' = fd := by omega
        subst hfds
        refine Or.inr ⟨held_offline hc' hoff, ?_⟩
        cases hstep with
        | disconnect curr' fd'' _ hvisit' hconnection hopen =>
          have hfds := hvisit.unique hvisit'
          subst hfds
          refine ⟨rfl, fun d hd => ?_⟩
          have hold := settle_peer (disconnectClient fd'' s.clients).1
            (disconnectClient fd'' s.clients).2 hd
          have hd' := hnumbered.unique _ _ _ hold hpeer
          subst hd'
          have hnamed : ∃ c ∈ s.clients, c.sock = d := ⟨c, List.mem_of_getElem? hc, hsock⟩
          rw [disconnectClient_eq, decide_eq_true hnamed] at hd
          change Function.update s.peer d none d = some conn at hd
          rw [Function.update_self] at hd
          cases hd
        | identify curr' fd'' _ _ r hvisit' hconnection hopen hne hlen hflag hr => exact absurd rfl hne
        | request curr' fd'' _ _ clients hvisit' hconnection hopen hne hlen hflag hr =>
          exact absurd rfl hne
      · exact absurd hoff hon

/-- A record gets a connection in the first message of that connection. -/
theorem held_gained (hrun : Run cfg tr s) (hbound : Bound tr s) (hturn : InTurn (log (tr ++ [(s, i)])))
    {sends : List Send} (hstep : Step cfg s i t sends) (hnone : held s j = none)
    (hheld : held t j = some conn) : Silent conn (log tr) := by
  cases hc : t.clients[j]? with
  | none => simp [held, hc] at hheld
  | some c =>
    have hread : ∃ (curr : Finset ℕ) (fd : ℕ) (bytes : Bytes) (locals : ReadLocals),
        i = .read bytes locals ∧ Reads s curr fd bytes ∧ s.receiveID = true ∧ c.sock = fd := by
      rcases record_origin hstep hc with ⟨d, hd, hchange⟩ | ⟨_, hadded⟩
      · have hoff : d.sock = -1 := by
          by_contra hon
          obtain ⟨_, _, _, _, hheld', _⟩ := held_of_bound hbound hd hon
          rw [hnone] at hheld'
          cases hheld'
        have hon : c.sock ≠ d.sock := by
          intro hsame
          rw [held_offline hc (hsame.trans hoff)] at hheld
          cases hheld
        rcases hchange.framed.sock hon with ⟨fd, _, hsock, _⟩ |
          ⟨fd, ⟨curr, bytes, locals, hi, hreads, hflag, _⟩, _, hsock⟩
        · omega
        · exact ⟨curr, fd, bytes, locals, hi, hreads, hflag, hsock⟩
      · cases hadded with
        | client curr fd bytes locals hreads hflag hnone =>
          exact ⟨curr, fd, bytes, locals, rfl, hreads, hflag, rfl⟩
    obtain ⟨curr, fd, bytes, locals, rfl, hreads, hflag, hsock⟩ := hread
    rw [held, hc, Option.bind_some, hsock, connOf_cast] at hheld
    exact silent_of_inTurn hrun hturn rfl hreads.visits hreads.nonempty (peer_of_read hstep hheld) hflag

/-- The frames of a record are those of its connections, of which only the one that it
holds is still open. -/
structure Divided (cfg : Config) (j : ℕ) (tr : List (Server × Input)) (s : Server) : Prop where
  past : ∃ past, sessions cfg j tr = past ++ (held s j).toList ∧
    ∀ conn ∈ past, conn < s.accepted ∧ ∀ fd, s.peer fd ≠ some conn
  frames : inbox cfg j tr = (sessions cfg j tr).flatMap (sentOn cfg · tr)

/-- Connections that nothing is sent on any more. -/
private theorem flatMap_dead (cfg : Config) (tr : List (Server × Input)) (i : Input) {past : List ℕ}
    (hdead : ∀ conn ∈ past, ∀ fd, s.peer fd ≠ some conn) :
    past.flatMap (sentOn cfg · (tr ++ [(s, i)])) = past.flatMap (sentOn cfg · tr) := by
  apply List.flatMap_congr
  intro conn hconn
  rw [sentOn_concat, sentOnOf_dead (hdead conn hconn), List.append_nil]

/-- The connections that are past stay so, and nothing more is sent on them. -/
private theorem Divided.past_step (h : Divided cfg j tr s) {sends : List Send}
    (hstep : Step cfg s i t sends) : ∃ past, sessions cfg j tr = past ++ (held s j).toList ∧
      (∀ conn ∈ past, conn < t.accepted ∧ ∀ fd, t.peer fd ≠ some conn) ∧
      past.flatMap (sentOn cfg · (tr ++ [(s, i)])) = past.flatMap (sentOn cfg · tr) := by
  obtain ⟨past, hpast, hdead⟩ := h.past
  refine ⟨past, hpast, ?_, flatMap_dead cfg tr i fun conn hconn => (hdead conn hconn).2⟩
  exact fun conn hconn => dead_step hstep (hdead conn hconn).1 (hdead conn hconn).2

theorem held_open (hheld : held s j = some conn) : ∃ fd, s.peer fd = some conn := by
  obtain ⟨c, hc, hconn⟩ := Option.bind_eq_some_iff.mp hheld
  unfold connOf at hconn
  split at hconn
  · exact ⟨_, hconn⟩
  · cases hconn

/-- A step from a state in which the record holds a connection. -/
private theorem Divided.from_held (h : Divided cfg j tr s) (hnumbered : Numbered s)
    (hbound : Bound tr s) (hbound' : Bound (tr ++ [(s, i)]) t) (hnext : next cfg s i = some t)
    (hheld : held s j = some conn) : Divided cfg j (tr ++ [(s, i)]) t := by
  obtain ⟨sends, hstep, hsent⟩ := next_cases hnext
  obtain ⟨past, hpast, hstill, hquiet⟩ := h.past_step hstep
  rw [hheld, Option.toList_some] at hpast
  have hsame : sessions cfg j (tr ++ [(s, i)]) = past ++ [conn] := by
    rw [sessions_concat, sessionOf, hheld, if_neg (by simp), Option.toList_none, List.append_nil, hpast]
  have hframes := h.frames
  rw [hpast, List.flatMap_append, List.flatMap_singleton] at hframes
  rcases held_lost hnumbered hbound hbound' hstep hheld with hkept | ⟨hlost, hnil, hclosed⟩
  · refine ⟨⟨past, by rw [hsame, hkept]; rfl, hstill⟩, ?_⟩
    rw [hsame, inbox_concat, hframes, inboxOf_held hnumbered hnext hbound' hkept,
      List.flatMap_append, List.flatMap_singleton, hquiet, sentOn_concat, List.append_assoc]
  · refine ⟨⟨past ++ [conn], by rw [hsame, hlost]; simp, ?_⟩, ?_⟩
    · intro k hk
      rcases List.mem_append.mp hk with hk | hk
      · exact hstill k hk
      · rw [List.mem_singleton.mp hk]
        obtain ⟨fd, hfd⟩ := held_open hheld
        exact ⟨lt_of_lt_of_le (hnumbered.below fd conn hfd) (step_accepted hstep), hclosed⟩
    · have hnothing : sentOnOf cfg conn (s, i) = [] := by
        rw [sentOnOf, hsent, hnil]
        rfl
      rw [hsame, inbox_concat, hframes, inboxOf_unheld hnext hbound' hlost, List.flatMap_append,
        List.flatMap_singleton, hquiet, sentOn_concat, hnothing, List.append_nil, List.append_nil]

/-- A step from a state in which the record holds no connection. -/
private theorem Divided.from_unheld (h : Divided cfg j tr s) (hrun : Run cfg tr s)
    (hbound : Bound tr s) (hbound' : Bound (tr ++ [(s, i)]) t) (hnext : next cfg s i = some t)
    (hturn : InTurn (log (tr ++ [(s, i)]))) (hheld : held s j = none) :
    Divided cfg j (tr ++ [(s, i)]) t := by
  obtain ⟨sends, hstep, hsent⟩ := next_cases hnext
  obtain ⟨past, hpast, hstill, hquiet⟩ := h.past_step hstep
  rw [hheld, Option.toList_none, List.append_nil] at hpast
  have hsame : sessions cfg j (tr ++ [(s, i)]) = past ++ (held t j).toList := by
    rw [sessions_concat, sessionOf, hheld, if_pos rfl, hnext, Option.bind_some, hpast]
  have hframes := h.frames
  rw [hpast] at hframes
  refine ⟨⟨past, hsame, hstill⟩, ?_⟩
  rw [hsame, inbox_concat, hframes, List.flatMap_append, hquiet]
  cases hheld' : held t j with
  | none => rw [inboxOf_unheld hnext hbound' hheld', Option.toList_none, List.flatMap_nil]
  | some conn =>
    have hturn₁ : InTurn (log tr) := by
      rw [log_append] at hturn
      exact hturn.of_append
    have hbefore : sentOn cfg conn tr = [] := by
      by_contra hne
      exact spoken_of_sent hrun hturn₁ hne (held_gained hrun hbound hturn hstep hheld hheld')
    rw [inboxOf_held (run_numbered hrun) hnext hbound' hheld', Option.toList_some,
      List.flatMap_singleton, sentOn_concat, hbefore, List.nil_append]

theorem step_divided (hrun : Run cfg tr s) (hnext : next cfg s i = some t)
    (hturn : InTurn (log (tr ++ [(s, i)]))) (h : Divided cfg j tr s) :
    Divided cfg j (tr ++ [(s, i)]) t := by
  have hturn₁ : InTurn (log tr) := by
    rw [log_append] at hturn
    exact hturn.of_append
  have hbound := run_bound hrun hturn₁
  have hbound' := run_bound (Path.tail hrun hnext) hturn
  cases hheld : held s j with
  | some conn => exact h.from_held (run_numbered hrun) hbound hbound' hnext hheld
  | none => exact h.from_unheld hrun hbound hbound' hnext hturn hheld

theorem run_divided (h : Run cfg tr s) (hturn : InTurn (log tr)) (j : ℕ) : Divided cfg j tr s := by
  refine Path.invariant (fun tr s => InTurn (log tr) → Divided cfg j tr s) ?_ ?_ h hturn
  · intro _
    exact ⟨⟨[], rfl, fun conn hconn => absurd hconn List.not_mem_nil⟩, rfl⟩
  · intro tr s i t hrun ih hnext hturn
    have hturn₁ : InTurn (log tr) := by
      rw [log_append] at hturn
      exact hturn.of_append
    exact step_divided hrun hnext hturn (ih hturn₁)

end Steps

end TopicBroker.Sessions
