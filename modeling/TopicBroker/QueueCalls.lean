import TopicBroker.Queues
import TopicBroker.Runs

/-!
Runs of calls on the queues of a heap. `queue_destroy` frees what was put in the queue,
so it asks for more than the other calls. A program that uses the calls as those of an
ideal store of queues gets the answers of that store, and when it has destroyed its
queues and freed its blocks nothing is left of them.
-/
namespace TopicBroker.QueueCalls

open Message Chains Queues Runs

section Destroy

variable {m m₀ : Memory} {q : Addr} {cells : List (Addr × Addr)} {freed : Finset Addr}

/-- The loop ends on every heap: each round frees a block. -/
theorem destroyLoop_ends (m : Memory) (q : Addr) {rounds : ℕ} (h : m.keys.card < rounds) :
    destroyLoop rounds m q ≠ .error .impossible := by
  induction rounds generalizing m with
  | zero => omega
  | succ rounds ih =>
    intro hstop
    rw [destroyLoop, queueEmpty, loadQueue] at hstop
    cases hq : m.lookup q with
    | none =>
      rw [hq] at hstop
      cases hstop
    | some object =>
      rw [hq] at hstop
      cases object with
      | cell element next => cases hstop
      | block => cases hstop
      | queue head tail =>
        by_cases hhead : head = null
        · subst hhead
          cases hstop
        · have hempty : queueEmpty m q = .ok false := by
            rw [queueEmpty, loadQueue, hq]
            exact congrArg Except.ok (decide_eq_false hhead)
          cases hcell : cellAt m head with
          | none =>
            have hload : loadCell m head = .error .undefined := by
              unfold loadCell
              split
              · rename_i hsome
                rw [cellAt_iff.mpr hsome] at hcell
                cases hcell
              · rfl
            simp only [queueDeq, loadQueue, hq, hempty, ok_bind, hhead, decide_false,
              Bool.false_eq_true, if_false, hload] at hstop
            cases hstop
          | some cell =>
            obtain ⟨x, next⟩ := cell
            have hlive : head ∈ m := mem_of_cellAt (by rw [hcell]; exact Option.some_ne_none _)
            have hne : q ≠ head := by
              rintro rfl
              rw [cellAt, hq] at hcell
              cases hcell
            have hqlive : q ∈ m := Finmap.mem_of_lookup_eq_some hq
            have hcard : ((m.erase head).insert q (.queue next tail)).keys.card < m.keys.card := by
              apply Finset.card_lt_card
              refine ⟨?_, fun hall => ?_⟩
              · intro a ha
                rw [Finmap.mem_keys, Finmap.mem_insert, Finmap.mem_erase] at ha
                rw [Finmap.mem_keys]
                rcases ha with rfl | ⟨_, ha⟩
                · exact hqlive
                · exact ha
              · have hin := hall (Finmap.mem_keys.mpr hlive)
                rw [Finmap.mem_keys, Finmap.mem_insert, Finmap.mem_erase] at hin
                rcases hin with heq | ⟨hself, _⟩
                · exact hne heq.symm
                · exact hself rfl
            simp only [queueDeq, loadQueue, hq, hempty, cdrAndFree, loadCell_eq hcell, free, hhead,
              hlive, if_true, ok_bind, decide_false, Bool.false_eq_true, if_false] at hstop
            split at hstop
            · exact ih _ (by omega) hstop
            · split at hstop
              · refine ih _ ?_ hstop
                have hle := Finset.card_erase_le (a := x)
                  (s := ((m.erase head).insert q (.queue next tail)).keys)
                rw [Finmap.keys_erase]
                omega
              · cases hstop

/-- What the rounds of `queue_destroy` need: the header, the next cell and the next
element have not been freed, and the element is a block in use or no pointer at all. -/
def Disposes (m₀ : Memory) (q : Addr) : Finset Addr → List (Addr × Addr) → Prop
  | freed, [] => q ∉ freed
  | freed, (p, x) :: rest => q ∉ freed ∧ p ∉ freed ∧
    (x = null ∨ (x ∈ m₀ ∧ x ≠ p ∧ x ∉ freed)) ∧ Disposes m₀ q (insert x (insert p freed)) rest

/-- The heap in a round: a set of addresses is freed, and the header has moved on. -/
structure Round (m₀ : Memory) (q : Addr) (freed : Finset Addr) (cells : List (Addr × Addr))
    (m : Memory) : Prop where
  header : q ∉ freed → ∃ tail, m.lookup q = some (.queue ((cells.head?).elim null Prod.fst) tail)
  gone : q ∈ freed → m.lookup q = none
  others : ∀ a ≠ q, m.lookup a = if a ∈ freed then none else m₀.lookup a

section Rounds

variable {p x next : Addr} {rest : List (Addr × Addr)}

theorem chain_start {start : Addr} (h : Chain (cellAt m) start cells null) :
    start = (cells.head?).elim null Prod.fst := by
  cases h <;> rfl

theorem Round.stopped (h : Round m₀ q freed cells m) (hq : q ∈ freed) (rounds : ℕ) :
    destroyLoop (rounds + 1) m q = .error .undefined := by
  rw [destroyLoop, queueEmpty, loadQueue, h.gone hq]
  rfl

theorem Round.ended (h : Round m₀ q freed [] m) (hq : q ∉ freed) (rounds : ℕ) :
    destroyLoop (rounds + 1) m q = .ok m := by
  obtain ⟨tail, hheader⟩ := h.header hq
  simp only [destroyLoop, queueEmpty, loadQueue, hheader, ok_bind, List.head?_nil, Option.elim_none,
    decide_true, if_true]

/-- A round on a queue that is not empty. -/
theorem Round.loop (h : Round m₀ q freed ((p, x) :: rest) m) (hq : q ∉ freed) (hp : p ≠ null)
    (rounds : ℕ) : ∃ tail, m.lookup q = some (.queue p tail) ∧
      destroyLoop (rounds + 1) m q = (do
        let (temp, _) ← loadCell m p
        let (m, next) ← cdrAndFree m p
        let m ← free (m.insert q (.queue next tail)) temp
        destroyLoop rounds m q) := by
  obtain ⟨tail, hheader⟩ := h.header hq
  refine ⟨tail, hheader, ?_⟩
  rw [List.head?_cons, Option.elim_some] at hheader
  simp only [destroyLoop, queueDeq, queueEmpty, loadQueue, hheader, ok_bind, hp, decide_false,
    Bool.false_eq_true, if_false]
  cases loadCell m p with
  | error e => rfl
  | ok cell =>
    simp only [ok_bind]
    cases cdrAndFree m p with
    | error e => rfl
    | ok out => rfl

/-- A round whose cell is still there goes on if it can free the element. -/
theorem Round.next_round (h : Round m₀ q freed ((p, x) :: rest) m) (hnull : null ∉ m₀) (hq : q ∈ m₀)
    (hpq : p ≠ q) (hqfreed : q ∉ freed) (hpfreed : p ∉ freed) (hp : cellAt m₀ p = some (x, next))
    (hrest : Chain (cellAt m₀) next rest null) (rounds : ℕ) :
    ((x = null ∨ (x ∈ m₀ ∧ x ≠ p ∧ x ∉ freed)) ∧
      ∃ m', Round m₀ q (insert x (insert p freed)) rest m' ∧
        destroyLoop (rounds + 1) m q = destroyLoop rounds m' q) ∨
    (¬ (x = null ∨ (x ∈ m₀ ∧ x ≠ p ∧ x ∉ freed)) ∧
      destroyLoop (rounds + 1) m q = .error .undefined) := by
  have hpnull : p ≠ null := by
    rintro rfl
    exact hnull (mem_of_cellAt (by rw [hp]; exact Option.some_ne_none _))
  obtain ⟨tail, _, hloop⟩ := h.loop hqfreed hpnull rounds
  have hcell : cellAt m p = some (x, next) := by
    rw [cellAt_congr (m := m₀) (by rw [h.others p hpq, if_neg hpfreed])]
    exact hp
  have hplive : p ∈ m := mem_of_cellAt (by rw [hcell]; exact Option.some_ne_none _)
  generalize hm₁ : (m.erase p).insert q (.queue next tail) = m₁
  have hlookup : ∀ a, m₁.lookup a = if a = q then some (.queue next tail)
      else if a ∈ insert p freed then none else m₀.lookup a := by
    intro a
    rw [← hm₁, lookup_insert_eq, lookup_erase_eq]
    by_cases haq : a = q
    · rw [if_pos haq, if_pos haq]
    · rw [if_neg haq, if_neg haq, h.others a haq]
      by_cases hap : a = p
      · rw [if_pos hap, if_pos (by simp [hap])]
      · simp [hap]
  have hnew : next = (rest.head?).elim null Prod.fst := chain_start hrest
  have hqnull : q ≠ null := fun heq => hnull (heq ▸ hq)
  have hgo : destroyLoop (rounds + 1) m q = (do
      let m ← free m₁ x
      destroyLoop rounds m q) := by
    rw [hloop]
    simp only [loadCell_eq hcell, cdrAndFree, free, hpnull, hplive, if_false, if_true, ok_bind, hm₁]
  by_cases hx : x = null
  · subst hx
    refine Or.inl ⟨Or.inl rfl, m₁, ⟨fun _ => ⟨tail, ?_⟩, fun hin => ?_, fun a haq => ?_⟩, ?_⟩
    · rw [hlookup, if_pos rfl, hnew]
    · simp only [Finset.mem_insert] at hin
      rcases hin with heq | heq | hin
      · exact absurd heq hqnull
      · exact absurd heq.symm hpq
      · exact absurd hin hqfreed
    · rw [hlookup, if_neg haq]
      by_cases hanull : a = null
      · rw [hanull, Finmap.lookup_eq_none.mpr hnull]
        simp
      · simp [hanull]
    · rw [hgo, free, if_pos rfl, ok_bind]
  · have hmem : x ∈ m₁ ↔ x ∈ m₀ ∧ x ≠ p ∧ x ∉ freed := by
      rw [← Finmap.lookup_isSome, hlookup]
      by_cases hxq : x = q
      · rw [if_pos hxq, hxq]
        simp [hq, hpq.symm, hqfreed]
      · rw [if_neg hxq]
        by_cases hin : x ∈ insert p freed
        · rw [if_pos hin]
          rw [Finset.mem_insert] at hin
          simp only [Option.isSome_none, Bool.false_eq_true, false_iff]
          rintro ⟨_, hxp, hxfreed⟩
          exact hin.elim hxp hxfreed
        · rw [if_neg hin, Finmap.lookup_isSome]
          rw [Finset.mem_insert, not_or] at hin
          simp [hin.1, hin.2]
    by_cases hfree : x ∈ m₁
    · refine Or.inl ⟨Or.inr (hmem.mp hfree), m₁.erase x, ⟨fun hno => ⟨tail, ?_⟩, fun hin => ?_,
        fun a haq => ?_⟩, ?_⟩
      · have hqx : q ≠ x := fun heq => hno (by simp [heq])
        rw [lookup_erase_eq, if_neg hqx, hlookup, if_pos rfl, hnew]
      · simp only [Finset.mem_insert] at hin
        rcases hin with heq | heq | hin
        · rw [heq, lookup_erase_eq, if_pos rfl]
        · exact absurd heq.symm hpq
        · exact absurd hin hqfreed
      · rw [lookup_erase_eq, hlookup, if_neg haq]
        by_cases hax : a = x
        · simp [hax]
        · simp [hax]
      · rw [hgo, free, if_neg hx, if_pos hfree, ok_bind]
    · refine Or.inr ⟨?_, ?_⟩
      · rintro (hxnull | hxlive)
        · exact hx hxnull
        · exact hfree (hmem.mpr hxlive)
      · rw [hgo, free, if_neg hx, if_neg hfree]
        rfl

end Rounds

/-- The heap after the loop: the cells and the elements are freed. -/
theorem destroyLoop_iff (hnull : null ∉ m₀) (hq : q ∈ m₀)
    (hne : ∀ p ∈ cells.map Prod.fst, p ≠ q) {start : Addr}
    (hchain : Chain (cellAt m₀) start cells null) (h : Round m₀ q freed cells m) {rounds : ℕ}
    (hrounds : cells.length < rounds) :
    (Disposes m₀ q freed cells ∧ ∃ m', destroyLoop rounds m q = .ok m' ∧ Round m₀ q
      (freed ∪ (cells.map Prod.fst).toFinset ∪ (cells.map Prod.snd).toFinset) [] m') ∨
    (¬ Disposes m₀ q freed cells ∧ destroyLoop rounds m q = .error .undefined) := by
  obtain ⟨rounds, rfl⟩ : ∃ k, rounds = k + 1 := ⟨rounds - 1, by omega⟩
  induction cells generalizing m freed rounds start with
  | nil =>
    by_cases hfreed : q ∈ freed
    · exact Or.inr ⟨fun hno => hno hfreed, h.stopped hfreed rounds⟩
    · exact Or.inl ⟨hfreed, m, h.ended hfreed rounds, by simpa using h⟩
  | cons cell rest ih =>
    obtain ⟨p, x⟩ := cell
    obtain ⟨rfl, next, hp, hrest⟩ := chain_cons_iff.mp hchain
    have hpq : start ≠ q := hne start (by simp)
    by_cases hfreed : q ∈ freed
    · exact Or.inr ⟨fun hall => hall.1 hfreed, h.stopped hfreed rounds⟩
    by_cases hpfreed : start ∈ freed
    · refine Or.inr ⟨fun hall => hall.2.1 hpfreed, ?_⟩
      have hpnull : start ≠ null := by
        rintro rfl
        exact hnull (mem_of_cellAt (by rw [hp]; exact Option.some_ne_none _))
      obtain ⟨tail, _, hloop⟩ := h.loop hfreed hpnull rounds
      rw [hloop, loadCell, h.others start hpq, if_pos hpfreed]
      rfl
    obtain ⟨rounds, rfl⟩ : ∃ k, rounds = k + 1 := ⟨rounds - 1, by simp at hrounds; omega⟩
    rcases h.next_round hnull hq hpq hfreed hpfreed hp hrest (rounds + 1) with
      ⟨hfree, m', hround, hloop⟩ | ⟨hno, hstop⟩
    · rw [hloop, Disposes]
      rcases ih (fun a ha => hne a (List.mem_cons_of_mem _ ha)) hrest hround rounds
        (by simp at hrounds; omega) with ⟨hall, m'', hend, hround'⟩ | ⟨hno, hstop⟩
      · refine Or.inl ⟨⟨hfreed, hpfreed, hfree, hall⟩, m'', hend, ?_⟩
        have hset : insert x (insert start freed) ∪ (rest.map Prod.fst).toFinset ∪
            (rest.map Prod.snd).toFinset = freed ∪ (((start, x) :: rest).map Prod.fst).toFinset ∪
            (((start, x) :: rest).map Prod.snd).toFinset := by
          ext a
          simp only [List.map_cons, List.toFinset_cons, Finset.mem_union, Finset.mem_insert]
          tauto
        rw [← hset]
        exact hround'
      · exact Or.inr ⟨fun hall => hno hall.2.2.2, hstop⟩
    · exact Or.inr ⟨fun hall => hno hall.2.2.1, hstop⟩

/-- What `queue_destroy` asks of a queue: no element twice, and each one a block in use
that is not part of the queue, or no pointer at all. -/
structure Disposable (m : Memory) (q : Addr) (cells : List (Addr × Addr)) : Prop where
  nodup : ((cells.map Prod.snd).filter (· ≠ null)).Nodup
  live : ∀ x ∈ cells.map Prod.snd, x ≠ null → x ∈ m ∧ x ≠ q ∧ x ∉ cells.map Prod.fst

theorem disposes_iff (hnull : null ∉ m₀) (hlive : ∀ p ∈ cells.map Prod.fst, p ∈ m₀ ∧ p ≠ q)
    (hq : q ∈ m₀) (hnodup : (cells.map Prod.fst).Nodup) :
    Disposes m₀ q freed cells ↔ q ∉ freed ∧ (∀ p ∈ cells.map Prod.fst, p ∉ freed) ∧
      Disposable m₀ q cells ∧ ∀ x ∈ cells.map Prod.snd, x ≠ null → x ∉ freed := by
  have hne : ∀ p ∈ m₀, p ≠ null := fun p hp heq => hnull (heq ▸ hp)
  induction cells generalizing freed with
  | nil =>
    simp only [Disposes, List.map_nil, List.not_mem_nil, false_implies, implies_true, and_true]
    exact ⟨fun h => ⟨h, trivial, by simp, by simp⟩, fun h => h.1⟩
  | cons cell rest ih =>
    obtain ⟨p, x⟩ := cell
    rw [List.map_cons, List.nodup_cons] at hnodup
    have hp := hlive p (List.mem_cons_self ..)
    have hih := @ih (insert x (insert p freed)) (fun a ha => hlive a (List.mem_cons_of_mem _ ha))
      hnodup.2
    simp only [Finset.mem_insert, not_or] at hih
    simp only [Disposes, List.map_cons, List.forall_mem_cons]
    have hqnull := hne q hq
    have hpnull := hne p hp.1
    constructor
    · rintro ⟨hqf, hpf, hx, hall⟩
      obtain ⟨⟨hqx, _⟩, hrest, hdis, hfresh⟩ := hih.mp hall
      refine ⟨hqf, ⟨hpf, fun a ha => (hrest a ha).2.2⟩, ⟨?_, ?_⟩, ?_, fun a ha hanull => ?_⟩
      · by_cases hxnull : x = null
        · simpa [hxnull] using hdis.nodup
        · simp only [List.filter_cons, hxnull, not_false_eq_true, decide_true, if_true, ne_eq,
            List.map_cons, List.nodup_cons]
          refine ⟨fun hmem => ?_, by simpa using hdis.nodup⟩
          have hin := (List.mem_filter.mp hmem).1
          exact (hfresh x hin hxnull).1 rfl
      · simp only [List.map_cons, List.mem_cons, forall_eq_or_imp, not_or]
        refine ⟨fun hxnull => ?_, fun a ha hanull => ?_⟩
        · rcases hx with hx | ⟨hxlive, hxp, _⟩
          · exact absurd hx hxnull
          · exact ⟨hxlive, fun heq => hqx heq.symm, hxp, fun hin => (hrest x hin).1 rfl⟩
        · obtain ⟨halive, haq, hacells⟩ := hdis.live a ha hanull
          exact ⟨halive, haq, (hfresh a ha hanull).2.1, hacells⟩
      · intro hxnull
        rcases hx with hx | ⟨_, _, hxf⟩
        · exact absurd hx hxnull
        · exact hxf
      · exact (hfresh a ha hanull).2.2
    · rintro ⟨hqf, ⟨hpf, hrest⟩, hdis, hxf, hfresh⟩
      have hnodups := hdis.nodup
      have hlives := hdis.live
      simp only [List.map_cons, List.mem_cons, forall_eq_or_imp, not_or] at hlives
      obtain ⟨hx, hothers⟩ := hlives
      refine ⟨hqf, hpf, ?_, hih.mpr
        ⟨⟨?_, hp.2.symm, hqf⟩, fun a ha => ⟨?_, ?_, hrest a ha⟩, ⟨?_, ?_⟩, ?_⟩⟩
      · by_cases hxnull : x = null
        · exact Or.inl hxnull
        · exact Or.inr ⟨(hx hxnull).1, (hx hxnull).2.2.1, hxf hxnull⟩
      · rintro rfl
        exact (hx hqnull).2.1 rfl
      · rintro rfl
        have ha' := (hlive a (List.mem_cons_of_mem _ ha)).1
        exact (hx (hne a ha')).2.2.2 ha
      · rintro rfl
        exact hnodup.1 ha
      · refine List.Nodup.sublist (List.Sublist.filter _ ?_) hnodups
        exact List.sublist_cons_self ..
      · exact fun a ha hanull => ⟨(hothers a ha hanull).1, (hothers a ha hanull).2.1,
          (hothers a ha hanull).2.2.2⟩
      · intro a ha hanull
        refine ⟨?_, (hothers a ha hanull).2.2.1, hfresh a ha hanull⟩
        rintro rfl
        simp only [List.map_cons, List.filter_cons, ne_eq, hanull, not_false_eq_true, decide_true,
          if_true, List.nodup_cons] at hnodups
        exact hnodups.1 (List.mem_filter.mpr ⟨ha, by simpa using hanull⟩)

theorem length_le_card {head tail : Addr} (hnull : null ∉ m) (hat : QueueAt m q cells head tail) :
    cells.length ≤ m.keys.card := by
  have hnodup := hat.chain.nodup (cellAt_absent hnull)
  rw [← List.length_map Prod.fst, ← List.toFinset_card_of_nodup hnodup]
  apply Finset.card_le_card
  intro a ha
  exact Finmap.mem_keys.mpr (mem_of_cellAt (hat.chain.cell (List.mem_toFinset.mp ha)))

/-- A heap without a queue, its cells and its elements. -/
def Without (m : Memory) (q : Addr) (cells : List (Addr × Addr)) (m' : Memory) : Prop :=
  ∀ a, m'.lookup a =
    if a = q ∨ a ∈ cells.map Prod.fst ∨ a ∈ cells.map Prod.snd then none else m.lookup a

theorem destroy_cases {head tail : Addr} (hnull : null ∉ m) (hat : QueueAt m q cells head tail) :
    (Disposable m q cells ∧ ∃ m', queueDestroy m q = .ok m' ∧ Without m q cells m') ∨
      (¬ Disposable m q cells ∧ queueDestroy m q = .error .undefined) := by
  have hq : q ∈ m := Finmap.mem_of_lookup_eq_some hat.header
  have hqnull : q ≠ null := fun heq => hnull (heq ▸ hq)
  have hround : Round m q ∅ cells m := by
    refine ⟨fun _ => ⟨tail, ?_⟩, fun hin => absurd hin (Finset.notMem_empty q), fun a _ => by simp⟩
    rw [← chain_start hat.chain]
    exact hat.header
  have hiff : Disposes m q ∅ cells ↔ Disposable m q cells := by
    rw [disposes_iff hnull (fun p hp => ⟨mem_of_cellAt (hat.chain.cell hp), hat.cell_ne hp⟩) hq
      (hat.chain.nodup (cellAt_absent hnull))]
    simp
  rcases destroyLoop_iff hnull hq (fun p hp => hat.cell_ne hp) hat.chain hround
    (Nat.lt_succ_of_le (length_le_card hnull hat)) with ⟨hall, m', hloop, hend⟩ | ⟨hno, hstop⟩
  · have hdis := hiff.mp hall
    refine Or.inl ⟨hdis, m'.erase q, ?_, fun a => ?_⟩
    · have hfreed : q ∉ (∅ : Finset Addr) ∪ (cells.map Prod.fst).toFinset ∪
          (cells.map Prod.snd).toFinset := by
        intro hin
        rcases Finset.mem_union.mp hin with hin | hin
        · rcases Finset.mem_union.mp hin with hin | hin
          · exact Finset.notMem_empty q hin
          · exact hat.cell_ne (List.mem_toFinset.mp hin) rfl
        · exact (hdis.live q (List.mem_toFinset.mp hin) hqnull).2.1 rfl
      obtain ⟨tail', hheader⟩ := hend.header hfreed
      have hlive : q ∈ m' := Finmap.mem_of_lookup_eq_some hheader
      simp only [queueDestroy, hloop, ok_bind, free, hqnull, hlive, if_false, if_true]
    · rw [lookup_erase_eq]
      by_cases haq : a = q
      · rw [if_pos haq, if_pos (Or.inl haq)]
      · rw [if_neg haq, hend.others a haq]
        refine if_congr ?_ rfl rfl
        rw [Finset.mem_union, Finset.mem_union, List.mem_toFinset, List.mem_toFinset]
        constructor
        · rintro ((hin | hin) | hin)
          · exact absurd hin (Finset.notMem_empty a)
          · exact Or.inr (Or.inl hin)
          · exact Or.inr (Or.inr hin)
        · rintro (heq | hin | hin)
          · exact absurd heq haq
          · exact Or.inl (Or.inr hin)
          · exact Or.inr hin
  · refine Or.inr ⟨fun hdis => hno (hiff.mpr hdis), ?_⟩
    rw [queueDestroy, hstop]
    rfl

/-- On every heap `queue_destroy` comes to an end. -/
theorem queueDestroy_ends (m : Memory) (q : Addr) : queueDestroy m q ≠ .error .impossible := by
  intro hstop
  rw [queueDestroy] at hstop
  cases hloop : destroyLoop (m.keys.card + 1) m q with
  | error e =>
    rw [hloop] at hstop
    cases hstop
    exact destroyLoop_ends m q (Nat.lt_succ_self _) hloop
  | ok m' =>
    rw [hloop, ok_bind, free] at hstop
    split_ifs at hstop
    cases hstop

/-- `queue_destroy` succeeds exactly on queues whose elements can be freed once each, and
then frees them with the cells and the header and nothing else. On the others its outcome is
not defined, and it ends on every heap. -/
theorem queue_destroy_iff {head tail : Addr} (hnull : null ∉ m) (hat : QueueAt m q cells head tail) :
    ((∃ m', queueDestroy m q = .ok m') ↔ Disposable m q cells) ∧
    (∀ m', queueDestroy m q = .ok m' → Without m q cells m') ∧
    (∀ e, queueDestroy m q = .error e → e = .undefined) ∧
    ∀ (m₁ : Memory) (p : Addr), queueDestroy m₁ p ≠ .error .impossible := by
  rcases destroy_cases hnull hat with ⟨hdis, m', hend, hwithout⟩ | ⟨hno, hstop⟩
  · rw [hend]
    refine ⟨iff_of_true ⟨m', rfl⟩ hdis, ?_, ?_, queueDestroy_ends⟩
    · intro m'' h
      cases h
      exact hwithout
    · intro e h
      cases h
  · rw [hstop]
    refine ⟨iff_of_false (by simp) hno, ?_, ?_, queueDestroy_ends⟩
    · intro m' h
      cases h
    · intro e h
      cases h
      rfl

end Destroy

/-- A call on the heap; the addresses are those that `malloc` gives in it. -/
inductive Call
  | create (fresh : Addr)
  | empty (q : Addr)
  | enq (q fresh element : Addr)
  | deq (q : Addr)
  | peek (q : Addr)
  | destroy (q : Addr)
  | malloc (fresh : Addr)
  | free (p : Addr)

inductive Answer
  | done
  | address (p : Addr)
  | flag (b : Bool)
deriving DecidableEq

def Call.fresh : Call → Option Addr
  | .create fresh | .enq _ fresh _ | .malloc fresh => some fresh
  | _ => none

def call (m : Memory) : Call → Except Stop (Memory × Answer)
  | .create fresh => do
    let (m, q) ← queueCreate m fresh
    .ok (m, .address q)
  | .empty q => do
    let b ← queueEmpty m q
    .ok (m, .flag b)
  | .enq q fresh element => do
    let m ← queueEnq m q fresh element
    .ok (m, .done)
  | .deq q => do
    let (m, element) ← queueDeq m q
    .ok (m, .address element)
  | .peek q => do
    let element ← queuePeek m q
    .ok (m, .address element)
  | .destroy q => do
    let m ← queueDestroy m q
    .ok (m, .done)
  | .malloc fresh => do
    let m ← Queues.malloc m fresh .block
    .ok (m, .address fresh)
  | .free p => do
    let m ← Queues.free m p
    .ok (m, .done)

/-- An ideal store: first-in first-out lists under their handles, and the blocks that the
program has allocated itself. -/
structure Store where
  queues : Addr → Option (List Addr)
  blocks : Finset Addr

def Store.put (s : Store) (q : Addr) (xs : Option (List Addr)) : Store :=
  { s with queues := Function.update s.queues q xs }

def Store.call (s : Store) : Call → Except Stop (Store × Answer)
  | .create fresh => .ok (s.put fresh (some []), .address fresh)
  | .empty q =>
    match s.queues q with
    | some xs => .ok (s, .flag (decide (xs = [])))
    | none => .error .undefined
  | .enq q _ element =>
    match s.queues q with
    | some xs => .ok (s.put q (some (xs ++ [element])), .done)
    | none => .error .undefined
  | .deq q =>
    match s.queues q with
    | some (x :: xs) => .ok (s.put q (some xs), .address x)
    | some [] => .error notEmpty
    | none => .error .undefined
  | .peek q =>
    match s.queues q with
    | some (x :: _) => .ok (s, .address x)
    | some [] => .error notEmpty
    | none => .error .undefined
  | .destroy q =>
    match s.queues q with
    | some xs =>
      if (xs.filter (· ≠ null)).Nodup ∧ ∀ x ∈ xs, x ≠ null → x ∈ s.blocks then
        .ok ({ s.put q none with blocks := s.blocks \ xs.toFinset }, .done)
      else .error .undefined
    | none => .error .undefined
  | .malloc fresh => .ok ({ s with blocks := insert fresh s.blocks }, .address fresh)
  | .free p =>
    if p = null ∨ p ∈ s.blocks then .ok ({ s with blocks := s.blocks.erase p }, .done)
    else .error .undefined

/-- The heap holds the queues of the store, cell by cell, and its blocks. -/
structure Represents (m : Memory) (s : Store) : Prop where
  laid : ∃ w, Laid m w ∧ ∀ q, s.queues q = (w q).map (·.map Prod.snd)
  blocks : ∀ p, p ∈ s.blocks ↔ p ∈ Queues.blocks m

/-- `malloc` gives the call an address that is not in use. -/
def Granted (m : Memory) (c : Call) : Prop := ∀ p ∈ c.fresh, Fresh m p

instance (m : Memory) (c : Call) : Decidable (Granted m c) :=
  inferInstanceAs (Decidable (∀ p ∈ c.fresh, Fresh m p))

section Refinement

variable {m m' : Memory} {s : Store} {w : Addr → Option (List (Addr × Addr))} {q : Addr}

theorem Represents.cells (h : Represents m s) {xs : List Addr} (hq : s.queues q = some xs) :
    ∃ w cells, Laid m w ∧ (∀ q, s.queues q = (w q).map (·.map Prod.snd)) ∧ w q = some cells ∧
      xs = cells.map Prod.snd := by
  obtain ⟨w, hlaid, hqueues⟩ := h.laid
  rw [hqueues] at hq
  obtain ⟨cells, hcells, rfl⟩ := Option.map_eq_some_iff.mp hq
  exact ⟨w, cells, hlaid, hqueues, hcells, rfl⟩

/-- A call on one queue of the heap is the call on the queue of the store. -/
theorem Represents.put (h : Represents m s) {cells : List (Addr × Addr)}
    (hlaid : Laid m' (Function.update w q (some cells))) (hblocks : Queues.blocks m' = Queues.blocks m)
    (hqueues : ∀ q, s.queues q = (w q).map (·.map Prod.snd)) :
    Represents m' (s.put q (some (cells.map Prod.snd))) := by
  refine ⟨⟨_, hlaid, fun q' => ?_⟩, fun p => ?_⟩
  · by_cases hq : q' = q
    · subst hq
      simp [Store.put]
    · simp [Store.put, hq, hqueues]
  · rw [hblocks]
    exact h.blocks p

theorem Represents.live (h : Represents m s) {p : Addr} (hp : p ∈ s.blocks) : p ≠ null ∧ p ∈ m := by
  obtain ⟨w, hlaid, _⟩ := h.laid
  have hlive : p ∈ m := Finmap.mem_of_lookup_eq_some ((h.blocks p).mp hp)
  exact ⟨fun heq => hlaid.null_free (heq ▸ hlive), hlive⟩

private theorem block_apart {cells : List (Addr × Addr)} {p : Addr}
    (hat : ∃ head tail, QueueAt m q cells head tail) (hp : m.lookup p = some .block) :
    ¬ (p = q ∨ p ∈ cells.map Prod.fst) := by
  obtain ⟨head, tail, hat⟩ := hat
  rintro (rfl | hmem)
  · rw [hat.header] at hp
    cases hp
  · exact hat.chain.cell hmem (by rw [cellAt, hp])

/-- The queues do not notice what becomes of the blocks. -/
theorem laid_of_blocks (h : Laid m w) (hnull : null ∉ m')
    (hsame : ∀ a, m'.lookup a = m.lookup a ∨ (Plain (m.lookup a) ∧ Plain (m'.lookup a))) :
    Laid m' w := by
  have hkept : ∀ q cells, w q = some cells → ∀ a, a = q ∨ a ∈ cells.map Prod.fst →
      m'.lookup a = m.lookup a := by
    intro q cells hq a ha
    rcases hsame a with heq | ⟨hplain, _⟩
    · exact heq
    · rcases hplain with hnone | hblock
      · exact absurd (h.live hq ha) (Finmap.lookup_eq_none.mp hnone)
      · exact absurd ha (block_apart (h.queue q cells hq) hblock)
  refine h.others hnull (fun q cells hq => hq) hkept fun a => ?_
  rcases hsame a with heq | ⟨_, hplain⟩
  · exact Or.inr ⟨heq, fun q cells hq _ => hq⟩
  · exact Or.inl hplain

theorem malloc_follows (h : Represents m s) {fresh : Addr} (hfresh : Fresh m fresh) :
    ∃ m', call m (.malloc fresh) = .ok (m', .address fresh) ∧
      Represents m' { s with blocks := insert fresh s.blocks } := by
  obtain ⟨w, hlaid, hqueues⟩ := h.laid
  refine ⟨m.insert fresh .block, ?_, ⟨w, ?_, hqueues⟩, fun p => ?_⟩
  · simp only [call, malloc_fresh hfresh, ok_bind]
  · refine laid_of_blocks hlaid ?_ fun a => ?_
    · rw [Finmap.mem_insert]
      rintro (hnull | hnull)
      · exact hfresh.1 hnull.symm
      · exact hlaid.null_free hnull
    · rw [lookup_insert_eq]
      by_cases ha : a = fresh
      · rw [if_pos ha, ha, Finmap.lookup_eq_none.mpr hfresh.2]
        exact Or.inr ⟨Or.inl rfl, Or.inr rfl⟩
      · rw [if_neg ha]
        exact Or.inl rfl
  · change p ∈ insert fresh s.blocks ↔ (m.insert fresh .block).lookup p = some .block
    rw [Finset.mem_insert, lookup_insert_eq, h.blocks p]
    by_cases hp : p = fresh
    · simp [hp]
    · simp [hp, Queues.blocks]

theorem free_follows (h : Represents m s) {p : Addr} (hp : p = null ∨ p ∈ s.blocks) :
    ∃ m', call m (.free p) = .ok (m', .done) ∧
      Represents m' { s with blocks := s.blocks.erase p } := by
  obtain ⟨w, hlaid, hqueues⟩ := h.laid
  by_cases hnull : p = null
  · subst hnull
    have hnone : null ∉ s.blocks := fun hin => (h.live hin).1 rfl
    refine ⟨m, ?_, ⟨w, hlaid, hqueues⟩, fun a => ?_⟩
    · simp only [call, Queues.free, if_true, ok_bind]
    · rw [Finset.erase_eq_of_notMem hnone]
      exact h.blocks a
  · have hblock := (h.blocks p).mp (hp.resolve_left hnull)
    have hlive : p ∈ m := (h.live (hp.resolve_left hnull)).2
    refine ⟨m.erase p, ?_, ⟨w, ?_, hqueues⟩, fun a => ?_⟩
    · simp only [call, Queues.free, if_neg hnull, if_pos hlive, ok_bind]
    · refine laid_of_blocks hlaid ?_ fun a => ?_
      · rw [Finmap.mem_erase]
        exact fun hin => hlaid.null_free hin.2
      · rw [lookup_erase_eq]
        by_cases ha : a = p
        · rw [if_pos ha, ha]
          exact Or.inr ⟨Or.inr hblock, Or.inl rfl⟩
        · rw [if_neg ha]
          exact Or.inl rfl
    · change a ∈ s.blocks.erase p ↔ (m.erase p).lookup a = some .block
      rw [Finset.mem_erase, lookup_erase_eq, h.blocks a]
      by_cases ha : a = p
      · simp [ha]
      · simp [ha, Queues.blocks]

theorem destroy_follows (h : Represents m s) {xs : List Addr} (hq : s.queues q = some xs)
    (hnodup : (xs.filter (· ≠ null)).Nodup) (hblocks : ∀ x ∈ xs, x ≠ null → x ∈ s.blocks) :
    ∃ m', call m (.destroy q) = .ok (m', .done) ∧
      Represents m' { s.put q none with blocks := s.blocks \ xs.toFinset } := by
  obtain ⟨w, cells, hlaid, hqueues, hcells, rfl⟩ := h.cells hq
  obtain ⟨head, tail, hat⟩ := hlaid.queue q cells hcells
  have hblock : ∀ x ∈ cells.map Prod.snd, x ≠ null → m.lookup x = some .block :=
    fun x hx hxnull => (h.blocks x).mp (hblocks x hx hxnull)
  have hdis : Disposable m q cells := by
    refine ⟨hnodup, fun x hx hxnull => ?_⟩
    have hx' := hblock x hx hxnull
    have hapart := block_apart ⟨head, tail, hat⟩ hx'
    rw [not_or] at hapart
    exact ⟨Finmap.mem_of_lookup_eq_some hx', hapart.1, hapart.2⟩
  rcases destroy_cases hlaid.null_free hat with ⟨_, m', hend, hwithout⟩ | ⟨hno, _⟩
  swap
  · exact absurd hdis hno
  have hplain : ∀ x ∈ cells.map Prod.snd, Plain (m.lookup x) := by
    intro x hx
    by_cases hxnull : x = null
    · rw [hxnull]
      exact Or.inl (Finmap.lookup_eq_none.mpr hlaid.null_free)
    · exact Or.inr (hblock x hx hxnull)
  refine ⟨m', ?_, ⟨Function.update w q none, ?_, fun q' => ?_⟩, fun p => ?_⟩
  · simp only [call, hend, ok_bind]
  · refine hlaid.others ?_ ?_ ?_ ?_
    · rw [← Finmap.lookup_eq_none, hwithout]
      split
      · rfl
      · exact Finmap.lookup_eq_none.mpr hlaid.null_free
    · intro q' cells' hq'
      by_cases hne : q' = q
      · rw [hne, Function.update_self] at hq'
        cases hq'
      · rwa [Function.update_of_ne hne] at hq'
    · intro q' cells' hq' a ha
      by_cases hne : q' = q
      · rw [hne, Function.update_self] at hq'
        cases hq'
      · rw [Function.update_of_ne hne] at hq'
        obtain ⟨haq, hacells⟩ := hlaid.footprint hcells hq' hne ha
        have helement : a ∉ cells.map Prod.snd := by
          intro hin
          rcases hplain a hin with hnone | hblock
          · exact Finmap.lookup_eq_none.mp hnone (hlaid.live hq' ha)
          · exact block_apart (hlaid.queue q' cells' hq') hblock ha
        rw [hwithout, if_neg (by simp only [not_or]; exact ⟨haq, hacells, helement⟩)]
    · intro a
      by_cases hgone : a = q ∨ a ∈ cells.map Prod.fst ∨ a ∈ cells.map Prod.snd
      · refine Or.inl (Or.inl ?_)
        rw [hwithout, if_pos hgone]
      · refine Or.inr ⟨by rw [hwithout, if_neg hgone], fun q' cells' hq' ha => ?_⟩
        have hne : q' ≠ q := by
          rintro rfl
          rw [hcells] at hq'
          cases hq'
          exact hgone (ha.elim Or.inl fun hmem => Or.inr (Or.inl hmem))
        rw [Function.update_of_ne hne]
        exact hq'
  · by_cases hne : q' = q
    · subst hne
      simp [Store.put]
    · simp [Store.put, hne, hqueues]
  · change p ∈ s.blocks \ (cells.map Prod.snd).toFinset ↔ m'.lookup p = some .block
    rw [Finset.mem_sdiff, List.mem_toFinset, h.blocks p, hwithout]
    constructor
    · rintro ⟨hp, hno⟩
      have hapart := block_apart ⟨head, tail, hat⟩ hp
      rw [if_neg (by tauto)]
      exact hp
    · intro hp
      split at hp
      · cases hp
      · rename_i hno
        exact ⟨hp, fun hin => hno (Or.inr (Or.inr hin))⟩

section Outcomes

variable {x : Except Stop (Memory × Answer)} {a : Answer}

theorem follows_ok (h : ∃ m', x = .ok (m', a) ∧ Represents m' s) :
    Follows Represents (· = notEmpty) x (.ok (s, a)) := by
  constructor
  · intro t b heq
    cases heq
    exact h
  · intro e _ heq
    cases heq

theorem follows_assertion (h : x = .error notEmpty) :
    Follows Represents (· = notEmpty) x (.error notEmpty) := by
  constructor
  · intro t b heq
    cases heq
  · intro e _ heq
    cases heq
    exact h

/-- Nothing is promised of a call that the store does not allow. -/
theorem follows_undefined : Follows Represents (· = notEmpty) x (.error .undefined) := by
  constructor
  · intro t b heq
    cases heq
  · intro e he heq
    rw [he] at heq
    cases heq

end Outcomes

/-- Every call on the heap follows the call on the store. -/
theorem call_follows (h : Represents m s) (c : Call) (hfresh : Granted m c) :
    Follows Represents (· = notEmpty) (call m c) (s.call c) := by
  cases c with
  | create fresh =>
    obtain ⟨w, hlaid, hqueues⟩ := h.laid
    obtain ⟨m', hcall, hlaid', hblocks⟩ := create_spec hlaid (hfresh fresh rfl)
    refine follows_ok ⟨m', ?_, h.put hlaid' hblocks hqueues⟩
    simp only [call, hcall, ok_bind]
  | malloc fresh => exact follows_ok (malloc_follows h (hfresh fresh rfl))
  | free p =>
    by_cases hp : p = null ∨ p ∈ s.blocks
    · simp only [Store.call, if_pos hp]
      exact follows_ok (free_follows h hp)
    · simp only [Store.call, if_neg hp]
      exact follows_undefined
  | destroy q =>
    cases hq : s.queues q with
    | none =>
      simp only [Store.call, hq]
      exact follows_undefined
    | some xs =>
      by_cases hall : (xs.filter (· ≠ null)).Nodup ∧ ∀ x ∈ xs, x ≠ null → x ∈ s.blocks
      · simp only [Store.call, hq, if_pos hall]
        exact follows_ok (destroy_follows h hq hall.1 hall.2)
      · simp only [Store.call, hq, if_neg hall]
        exact follows_undefined
  | empty q =>
    cases hq : s.queues q with
    | none =>
      simp only [Store.call, hq]
      exact follows_undefined
    | some xs =>
      obtain ⟨w, cells, hlaid, _, hcells, rfl⟩ := h.cells hq
      obtain ⟨head, tail, hat⟩ := hlaid.queue q cells hcells
      simp only [Store.call, hq]
      refine follows_ok ⟨m, ?_, h⟩
      simp only [call, queueEmpty_eq hlaid.null_free hat, ok_bind, List.map_eq_nil_iff]
  | enq q fresh element =>
    cases hq : s.queues q with
    | none =>
      simp only [Store.call, hq]
      exact follows_undefined
    | some xs =>
      obtain ⟨w, cells, hlaid, hqueues, hcells, rfl⟩ := h.cells hq
      obtain ⟨m', hcall, hlaid', hblocks⟩ : ∃ m', queueEnq m q fresh element = .ok m' ∧ _ :=
        enq_spec hlaid hcells (hfresh fresh rfl)
      have hput := h.put hlaid' hblocks hqueues
      rw [List.map_append] at hput
      simp only [Store.call, hq]
      refine follows_ok ⟨m', ?_, hput⟩
      simp only [call, hcall, ok_bind]
  | deq q =>
    cases hq : s.queues q with
    | none =>
      simp only [Store.call, hq]
      exact follows_undefined
    | some xs =>
      obtain ⟨w, cells, hlaid, hqueues, hcells, rfl⟩ := h.cells hq
      cases cells with
      | nil =>
        simp only [Store.call, hq, List.map_nil]
        refine follows_assertion ?_
        rw [call, deq_empty hlaid hcells]
        rfl
      | cons cell rest =>
        obtain ⟨m', hcall, hlaid', hblocks⟩ := deq_spec hlaid hcells
        simp only [Store.call, hq, List.map_cons]
        refine follows_ok ⟨m', ?_, h.put hlaid' hblocks hqueues⟩
        simp only [call, hcall, ok_bind]
  | peek q =>
    cases hq : s.queues q with
    | none =>
      simp only [Store.call, hq]
      exact follows_undefined
    | some xs =>
      obtain ⟨w, cells, hlaid, _, hcells, rfl⟩ := h.cells hq
      have hpeek := peek_spec hlaid hcells
      cases cells with
      | nil =>
        simp only [Store.call, hq, List.map_nil]
        refine follows_assertion ?_
        rw [call, hpeek]
        rfl
      | cons cell rest =>
        simp only [Store.call, hq, List.map_cons]
        refine follows_ok ⟨m, ?_, h⟩
        rw [call, hpeek]
        rfl

/-- A heap without queues and without blocks is empty. -/
theorem Represents.empty (h : Represents m s) (hqueues : ∀ q, s.queues q = none)
    (hblocks : s.blocks = ∅) : m = ∅ := by
  obtain ⟨w, hlaid, hw⟩ := h.laid
  have hnone : ∀ q, w q = none := fun q => Option.map_eq_none_iff.mp ((hw q).symm.trans (hqueues q))
  apply Finmap.ext_lookup
  intro a
  rw [Finmap.lookup_empty]
  cases ha : m.lookup a with
  | none => rfl
  | some object =>
    cases object with
    | queue head tail => exact absurd (hnone a) (hlaid.header a head tail ha)
    | cell element next =>
      obtain ⟨q, cells, hq, _⟩ := hlaid.cell a (by rw [cellAt_iff.mpr ha]; exact Option.some_ne_none _)
      rw [hnone] at hq
      cases hq
    | block =>
      have hin := (h.blocks a).mpr ha
      rw [hblocks] at hin
      exact absurd hin (Finset.notMem_empty a)

def noQueues : Store := ⟨fun _ => none, ∅⟩

theorem represents_empty : Represents ∅ noQueues := by
  refine ⟨⟨fun _ => none, ?_, fun _ => rfl⟩, fun p => ?_⟩
  · constructor
    · exact Finmap.notMem_empty
    · intro q cells hq
      cases hq
    · intro q head tail hq
      cases hq
    · intro p hp
      exact absurd rfl hp
    · intro q q' cells cells' p hq
      cases hq
  · constructor
    · intro hp
      exact absurd hp (Finset.notMem_empty p)
    · intro hp
      cases hp

/-- Whatever addresses `malloc` gives, calls on the heap give the answers of the ideal
store, its failed assertions among them, and the heap holds the cells, queues and blocks
of the store and nothing else: none is left when the store is empty. -/
theorem queues_refine {cs : List Call} (hgranted : Allowed call Granted ∅ cs) :
    (∀ s answers, feed Store.call noQueues cs = .ok (s, answers) →
      ∃ m, feed call ∅ cs = .ok (m, answers) ∧ Represents m s ∧
        ((∀ q, s.queues q = none) → s.blocks = ∅ → m = ∅)) ∧
    (feed Store.call noQueues cs = .error notEmpty → feed call ∅ cs = .error notEmpty) := by
  have hfollows := feed_follows (fun m s c hm hc => call_follows hm c hc) represents_empty hgranted
  refine ⟨fun s answers hs => ?_, fun hs => hfollows.error notEmpty rfl hs⟩
  obtain ⟨m, hm, hrep⟩ := hfollows.ok s answers hs
  exact ⟨m, hm, hrep, hrep.empty⟩

end Refinement

/-- Two queues of one heap. The first is emptied and filled again, and its new cell gets
the address of the old one. -/
def sharedCalls : List Call :=
  [.malloc 10, .malloc 11, .create 1, .create 2, .enq 1 3 10, .enq 2 4 11, .deq 1, .enq 1 3 10,
    .peek 1, .empty 2, .destroy 1, .destroy 2]

theorem queues_refine_shared :
    ∃ m answers, feed call ∅ sharedCalls = .ok (m, answers) ∧ answers.length = 12 ∧ m = ∅ := by
  obtain ⟨s, answers, hs, hlength, hqueues, hblocks⟩ : ∃ s answers,
      feed Store.call noQueues sharedCalls = .ok (s, answers) ∧ answers.length = 12 ∧
        (∀ q, s.queues q = none) ∧ s.blocks = ∅ := by
    refine ⟨_, _, rfl, rfl, fun q => ?_, by decide +kernel⟩
    by_cases htwo : q = 2
    · subst htwo
      rfl
    · by_cases hone : q = 1
      · subst hone
        rfl
      · simp [Store.put, noQueues, htwo, hone]
  obtain ⟨m, hm, _, hempty⟩ := (@queues_refine sharedCalls (by decide +kernel)).1 s answers hs
  exact ⟨m, answers, hm, hlength, hempty hqueues hblocks⟩

/-- A queue with one element. -/
def oneQueue : Memory := ((Finmap.insert 1 (.queue 3 3) ∅).insert 3 (.cell 10 null)).insert 10 .block

theorem queue_destroy_iff_one :
    ∃ m', queueDestroy oneQueue 1 = .ok m' ∧ Without oneQueue 1 [(3, 10)] m' := by
  have hat : QueueAt oneQueue 1 [(3, 10)] 3 3 :=
    ⟨rfl, Chain.cons rfl (Chain.nil null), by simp⟩
  have hall := queue_destroy_iff (by decide +kernel) hat
  obtain ⟨m', hm'⟩ := hall.1.mpr ⟨by decide, by decide +kernel⟩
  exact ⟨m', hm', hall.2.1 m' hm'⟩

end TopicBroker.QueueCalls
