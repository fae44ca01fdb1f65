import Mathlib.Data.Finmap
import TopicBroker.Chains
import TopicBroker.Message

/-!
The queues of queue.c and their cells from list.c, on a heap. An address comes from
`malloc`, which gives none that is in use; what is read, written or freed must be in
use. Between the calls every cell belongs to one queue and every queue is the chain of
its cells, however many queues share the heap.
-/
namespace TopicBroker.Queues

open Message Chains

abbrev Addr := ℕ

abbrev null : Addr := 0

/-- `block` is what other parts of the program allocate. -/
inductive Object
  | cell (element next : Addr)
  | queue (head tail : Addr)
  | block
deriving DecidableEq

abbrev Memory := Finmap fun _ : Addr => Object

/-- The system gives an address that is not in use, or none. -/
def malloc (m : Memory) (fresh : Addr) (object : Object) : Except Stop Memory :=
  if fresh = null then .error .undefined
  else if fresh ∈ m then .error .impossible
  else .ok (m.insert fresh object)

def free (m : Memory) (p : Addr) : Except Stop Memory :=
  if p = null then .ok m
  else if p ∈ m then .ok (m.erase p)
  else .error .undefined

def loadCell (m : Memory) (p : Addr) : Except Stop (Addr × Addr) :=
  match m.lookup p with
  | some (.cell element next) => .ok (element, next)
  | _ => .error .undefined

def loadQueue (m : Memory) (q : Addr) : Except Stop (Addr × Addr) :=
  match m.lookup q with
  | some (.queue head tail) => .ok (head, tail)
  | _ => .error .undefined

def cons (m : Memory) (fresh element l : Addr) : Except Stop (Memory × Addr) := do
  let m ← malloc m fresh (.cell element l)
  .ok (m, fresh)

def cdrAndFree (m : Memory) (l : Addr) : Except Stop (Memory × Addr) := do
  let (_, next) ← loadCell m l
  let m ← free m l
  .ok (m, next)

def queueCreate (m : Memory) (fresh : Addr) : Except Stop (Memory × Addr) := do
  let m ← malloc m fresh (.queue null null)
  .ok (m, fresh)

def queueEmpty (m : Memory) (q : Addr) : Except Stop Bool := do
  let (head, _) ← loadQueue m q
  .ok (decide (head = null))

def queueEnq (m : Memory) (q fresh element : Addr) : Except Stop Memory := do
  let (head, tail) ← loadQueue m q
  if ← queueEmpty m q then
    let (m, cell) ← cons m fresh element null
    .ok (m.insert q (.queue cell cell))
  else
    let (m, cell) ← cons m fresh element null
    let (last, _) ← loadCell m tail
    .ok ((m.insert tail (.cell last cell)).insert q (.queue head cell))

/-- The assertion of `queue_deq` and `queue_peek`. -/
def notEmpty : Stop := .die "!queue_empty(q)"

def queueDeq (m : Memory) (q : Addr) : Except Stop (Memory × Addr) := do
  let (head, tail) ← loadQueue m q
  if ← queueEmpty m q then .error notEmpty
  else
    let (temp, _) ← loadCell m head
    let (m, next) ← cdrAndFree m head
    .ok (m.insert q (.queue next tail), temp)

def queuePeek (m : Memory) (q : Addr) : Except Stop Addr := do
  let (head, _) ← loadQueue m q
  if ← queueEmpty m q then .error notEmpty
  else
    let (element, _) ← loadCell m head
    .ok element

/-- The loop of `queue_destroy`, with a bound on its rounds. -/
def destroyLoop : ℕ → Memory → Addr → Except Stop Memory
  | 0, _, _ => .error .impossible
  | rounds + 1, m, q => do
    if ← queueEmpty m q then .ok m
    else
      let (m, temp) ← queueDeq m q
      let m ← free m temp
      destroyLoop rounds m q

/-- No loop frees more blocks than there are. -/
def queueDestroy (m : Memory) (q : Addr) : Except Stop Memory := do
  let m ← destroyLoop (m.keys.card + 1) m q
  free m q

/-- The cells of a heap. -/
def cellAt (m : Memory) (p : Addr) : Option (Addr × Addr) :=
  match m.lookup p with
  | some (.cell element next) => some (element, next)
  | _ => none

/-- A queue leads to its cells. `tail` is left behind when the last cell is freed. -/
structure QueueAt (m : Memory) (q : Addr) (cells : List (Addr × Addr)) (head tail : Addr) : Prop where
  header : m.lookup q = some (.queue head tail)
  chain : Chain (cellAt m) head cells null
  last : ∀ cell ∈ cells.getLast?, tail = cell.1

section Cells

variable {m : Memory} {p q e n : Addr}

theorem cellAt_iff : cellAt m p = some (e, n) ↔ m.lookup p = some (.cell e n) := by
  unfold cellAt
  split
  · rename_i hp
    rw [hp]
    simp
  · rename_i hno
    constructor
    · intro h
      cases h
    · intro h
      exact absurd h (hno e n)

theorem cellAt_absent (h : p ∉ m) : cellAt m p = none := by
  rw [cellAt, Finmap.lookup_eq_none.mpr h]

theorem cellAt_congr {m' : Memory} (h : m'.lookup p = m.lookup p) : cellAt m' p = cellAt m p := by
  rw [cellAt, cellAt, h]

theorem loadCell_eq (h : cellAt m p = some (e, n)) : loadCell m p = .ok (e, n) := by
  rw [loadCell, cellAt_iff.mp h]

theorem mem_of_cellAt (h : cellAt m p ≠ none) : p ∈ m := by
  by_contra hno
  exact h (cellAt_absent hno)

end Cells

/-- What the queues of a heap are: the cells behind every handle. -/
structure Laid (m : Memory) (w : Addr → Option (List (Addr × Addr))) : Prop where
  null_free : null ∉ m
  queue : ∀ q cells, w q = some cells → ∃ head tail, QueueAt m q cells head tail
  header : ∀ q head tail, m.lookup q = some (.queue head tail) → w q ≠ none
  cell : ∀ p, cellAt m p ≠ none → ∃ q cells, w q = some cells ∧ p ∈ cells.map Prod.fst
  apart : ∀ q q' cells cells' p, w q = some cells → w q' = some cells' →
    p ∈ cells.map Prod.fst → p ∈ cells'.map Prod.fst → q = q'

section Layouts

variable {m m' : Memory} {w : Addr → Option (List (Addr × Addr))} {q : Addr}
  {cells cells' : List (Addr × Addr)} {head tail head' tail' : Addr}

theorem QueueAt.cell_ne (h : QueueAt m q cells head tail) {p : Addr} (hp : p ∈ cells.map Prod.fst) :
    p ≠ q := by
  rintro rfl
  have hcell := h.chain.cell hp
  rw [cellAt, h.header] at hcell
  exact hcell rfl

theorem QueueAt.congr (h : QueueAt m q cells head tail)
    (hsame : ∀ a, a = q ∨ a ∈ cells.map Prod.fst → m'.lookup a = m.lookup a) :
    QueueAt m' q cells head tail where
  header := by
    rw [hsame q (Or.inl rfl)]
    exact h.header
  chain := h.chain.congr fun a ha => cellAt_congr (hsame a (Or.inr ha))
  last := h.last

theorem Laid.live (h : Laid m w) (hq : w q = some cells) {a : Addr}
    (ha : a = q ∨ a ∈ cells.map Prod.fst) : a ∈ m := by
  obtain ⟨head, tail, hat⟩ := h.queue q cells hq
  rcases ha with rfl | ha
  · exact Finmap.mem_of_lookup_eq_some hat.header
  · exact mem_of_cellAt (hat.chain.cell ha)

/-- Two queues share neither a cell nor a header. -/
theorem Laid.footprint (h : Laid m w) (hq : w q = some cells) {q' : Addr} (hq' : w q' = some cells')
    (hne : q' ≠ q) {a : Addr} (ha : a = q' ∨ a ∈ cells'.map Prod.fst) :
    a ≠ q ∧ a ∉ cells.map Prod.fst := by
  obtain ⟨head, tail, hat⟩ := h.queue q cells hq
  obtain ⟨head', tail', hat'⟩ := h.queue q' cells' hq'
  have hkind : ∀ {b hd tl}, m.lookup b = some (.queue hd tl) → cellAt m b = none := by
    intro b hd tl hb
    rw [cellAt, hb]
  rcases ha with rfl | ha
  · exact ⟨hne, fun hmem => hat.chain.cell hmem (hkind hat'.header)⟩
  · refine ⟨?_, fun hmem => hne (h.apart q' q cells' cells a hq' hq ha hmem)⟩
    rintro rfl
    exact hat'.chain.cell ha (hkind hat.header)

/-- A call that works on one queue leaves the others alone: it touches the cells of the
queue and addresses that were not in use. -/
theorem Laid.update (h : Laid m w) (hold : w q = some cells ∨ (w q = none ∧ cells = [] ∧ q ∉ m))
    (hnull : null ∉ m') (hnew : QueueAt m' q cells' head' tail')
    (hsame : ∀ a, a ≠ q → a ∉ cells.map Prod.fst → a ∉ cells'.map Prod.fst →
      m'.lookup a = m.lookup a)
    (hfreed : ∀ a ∈ cells.map Prod.fst, a ∉ cells'.map Prod.fst → a ∉ m')
    (hfresh : ∀ a ∈ cells'.map Prod.fst, a ∈ cells.map Prod.fst ∨ a ∉ m) :
    Laid m' (Function.update w q (some cells')) := by
  have hother : ∀ q' cs, w q' = some cs → q' ≠ q →
      ∀ a, a = q' ∨ a ∈ cs.map Prod.fst → a ≠ q ∧ a ∉ cells.map Prod.fst ∧ a ∉ cells'.map Prod.fst := by
    intro q' cs hq' hne a ha
    have hlive : a ∈ m := h.live hq' ha
    obtain ⟨haq, hcells⟩ : a ≠ q ∧ a ∉ cells.map Prod.fst := by
      rcases hold with hq | ⟨_, hnil, hdead⟩
      · exact h.footprint hq hq' hne ha
      · exact ⟨fun heq => hdead (heq ▸ hlive), by simp [hnil]⟩
    exact ⟨haq, hcells, fun hmem => (hfresh a hmem).elim hcells fun hdead => hdead hlive⟩
  have hwhere : ∀ a, a ∈ m' → a = q ∨ a ∈ cells'.map Prod.fst ∨ m'.lookup a = m.lookup a := by
    intro a ha
    by_cases hq : a = q
    · exact Or.inl hq
    · by_cases hmem : a ∈ cells'.map Prod.fst
      · exact Or.inr (Or.inl hmem)
      · refine Or.inr (Or.inr (hsame a hq (fun hin => hfreed a hin hmem ha) hmem))
  constructor
  · exact hnull
  · intro q' cs hq'
    by_cases hne : q' = q
    · subst hne
      rw [Function.update_self, Option.some.injEq] at hq'
      subst hq'
      exact ⟨head', tail', hnew⟩
    · rw [Function.update_of_ne hne] at hq'
      obtain ⟨hd', tl', hat⟩ := h.queue q' cs hq'
      refine ⟨hd', tl', hat.congr fun a ha => ?_⟩
      obtain ⟨haq, hacells, hanew⟩ := hother q' cs hq' hne a ha
      exact hsame a haq hacells hanew
  · intro q' hd' tl' hq'
    by_cases hne : q' = q
    · subst hne
      rw [Function.update_self]
      exact Option.some_ne_none _
    · rw [Function.update_of_ne hne]
      rcases hwhere q' (Finmap.mem_of_lookup_eq_some hq') with heq | hmem | heq
      · exact absurd heq hne
      · have hcell := hnew.chain.cell hmem
        rw [cellAt, hq'] at hcell
        exact absurd rfl hcell
      · rw [heq] at hq'
        exact h.header q' hd' tl' hq'
  · intro p hp
    rcases hwhere p (mem_of_cellAt hp) with rfl | hmem | heq
    · rw [cellAt, hnew.header] at hp
      exact absurd rfl hp
    · exact ⟨q, cells', Function.update_self .., hmem⟩
    · rw [cellAt_congr heq] at hp
      obtain ⟨q', cs, hq', hmem⟩ := h.cell p hp
      by_cases hne : q' = q
      · subst hne
        rcases hold with hq | ⟨hnone, _⟩
        · rw [hq] at hq'
          cases hq'
          by_cases hin : p ∈ cells'.map Prod.fst
          · exact ⟨q', cells', Function.update_self .., hin⟩
          · have hdead := Finmap.lookup_eq_none.mpr (hfreed p hmem hin)
            rw [heq] at hdead
            rw [cellAt, hdead] at hp
            exact absurd rfl hp
        · rw [hnone] at hq'
          cases hq'
      · exact ⟨q', cs, by rw [Function.update_of_ne hne]; exact hq', hmem⟩
  · intro q₁ q₂ cs₁ cs₂ p h₁ h₂ hp₁ hp₂
    by_cases hq₁ : q₁ = q
    · by_cases hq₂ : q₂ = q
      · rw [hq₁, hq₂]
      · rw [Function.update_of_ne hq₂] at h₂
        rw [hq₁, Function.update_self, Option.some.injEq] at h₁
        subst h₁
        exact absurd hp₁ (hother q₂ cs₂ h₂ hq₂ p (Or.inr hp₂)).2.2
    · rw [Function.update_of_ne hq₁] at h₁
      by_cases hq₂ : q₂ = q
      · rw [hq₂, Function.update_self, Option.some.injEq] at h₂
        subst h₂
        exact absurd hp₂ (hother q₁ cs₁ h₁ hq₁ p (Or.inr hp₁)).2.2
      · rw [Function.update_of_ne hq₂] at h₂
        exact h.apart q₁ q₂ cs₁ cs₂ p h₁ h₂ hp₁ hp₂

/-- Nothing that belongs to a queue. -/
def Plain (o : Option Object) : Prop := o = none ∨ o = some .block

/-- The queues that are not touched by a call that frees one of them, or none. -/
theorem Laid.others (h : Laid m w) {w' : Addr → Option (List (Addr × Addr))} (hnull : null ∉ m')
    (hsub : ∀ q cells, w' q = some cells → w q = some cells)
    (hkept : ∀ q cells, w' q = some cells → ∀ a, a = q ∨ a ∈ cells.map Prod.fst →
      m'.lookup a = m.lookup a)
    (hleft : ∀ a, Plain (m'.lookup a) ∨ (m'.lookup a = m.lookup a ∧
      ∀ q cells, w q = some cells → a = q ∨ a ∈ cells.map Prod.fst → w' q = some cells)) :
    Laid m' w' := by
  constructor
  · exact hnull
  · intro q cells hq
    obtain ⟨head, tail, hat⟩ := h.queue q cells (hsub q cells hq)
    exact ⟨head, tail, hat.congr (hkept q cells hq)⟩
  · intro q head tail hq
    rcases hleft q with hplain | ⟨hsame, hin⟩
    · rw [hq] at hplain
      rcases hplain with hplain | hplain <;> cases hplain
    · rw [hsame] at hq
      obtain ⟨cells, hcells⟩ := Option.ne_none_iff_exists'.mp (h.header q head tail hq)
      rw [hin q cells hcells (Or.inl rfl)]
      exact Option.some_ne_none _
  · intro p hp
    rcases hleft p with hplain | ⟨hsame, hin⟩
    · rw [cellAt] at hp
      rcases hplain with hplain | hplain <;> rw [hplain] at hp <;> exact absurd rfl hp
    · rw [cellAt_congr hsame] at hp
      obtain ⟨q, cells, hcells, hmem⟩ := h.cell p hp
      exact ⟨q, cells, hin q cells hcells (Or.inr hmem), hmem⟩
  · intro q q' cells cells' p hq hq' hp hp'
    exact h.apart q q' cells cells' p (hsub q cells hq) (hsub q' cells' hq') hp hp'

end Layouts

section Calls

variable {m : Memory} {w : Addr → Option (List (Addr × Addr))} {q fresh element : Addr}
  {cells : List (Addr × Addr)} {head tail : Addr}

theorem lookup_insert_eq (m : Memory) (a b : Addr) (o : Object) :
    (m.insert a o).lookup b = if b = a then some o else m.lookup b := by
  by_cases h : b = a
  · rw [h, Finmap.lookup_insert, if_pos rfl]
  · rw [Finmap.lookup_insert_of_ne _ h, if_neg h]

theorem lookup_erase_eq (m : Memory) (a b : Addr) :
    (m.erase a).lookup b = if b = a then none else m.lookup b := by
  by_cases h : b = a
  · rw [h, Finmap.lookup_erase, if_pos rfl]
  · rw [Finmap.lookup_erase_ne h, if_neg h]

/-- The blocks of the rest of the program. -/
def blocks (m : Memory) : Set Addr := {p | m.lookup p = some .block}

/-- An address that `malloc` can give. -/
def Fresh (m : Memory) (p : Addr) : Prop := p ≠ null ∧ p ∉ m

instance (m : Memory) (p : Addr) : Decidable (Fresh m p) := inferInstanceAs (Decidable (_ ∧ _))

theorem ok_bind {α β : Type} (a : α) (f : α → Except Stop β) :
    (Except.ok a >>= f) = f a := rfl

theorem malloc_fresh (h : Fresh m fresh) (object : Object) :
    malloc m fresh object = .ok (m.insert fresh object) := by
  rw [malloc, if_neg h.1, if_neg h.2]

theorem loadQueue_eq (h : QueueAt m q cells head tail) : loadQueue m q = .ok (head, tail) := by
  rw [loadQueue, h.header]

theorem queueEmpty_eq (hnull : null ∉ m) (h : QueueAt m q cells head tail) :
    queueEmpty m q = .ok (decide (cells = [])) := by
  rw [queueEmpty, loadQueue_eq h]
  have hiff := h.chain.start_eq_iff (cellAt_absent hnull)
  exact congrArg Except.ok (decide_eq_decide.mpr hiff)

theorem Laid.unused (h : Laid m w) (hq : q ∉ m) : w q = none := by
  cases hw : w q with
  | none => rfl
  | some cells =>
    obtain ⟨head, tail, hat⟩ := h.queue q cells hw
    exact absurd (Finmap.mem_of_lookup_eq_some hat.header) hq

theorem create_spec (h : Laid m w) (hfresh : Fresh m fresh) :
    ∃ m', queueCreate m fresh = .ok (m', fresh) ∧ Laid m' (Function.update w fresh (some [])) ∧
      blocks m' = blocks m := by
  refine ⟨m.insert fresh (.queue null null), ?_, ?_, ?_⟩
  · rw [queueCreate, malloc_fresh hfresh]
    rfl
  · have hat : QueueAt (m.insert fresh (.queue null null)) fresh [] null null :=
      ⟨Finmap.lookup_insert m, Chain.nil null, by simp⟩
    refine h.update (Or.inr ⟨h.unused hfresh.2, rfl, hfresh.2⟩) ?_ hat ?_ (by simp) (by simp)
    · rw [Finmap.mem_insert]
      rintro (hnull | hnull)
      · exact hfresh.1 hnull.symm
      · exact h.null_free hnull
    · intro a ha _ _
      rw [lookup_insert_eq, if_neg ha]
  · ext a
    by_cases ha : a = fresh
    · subst ha
      simp [blocks, lookup_insert_eq, Finmap.lookup_eq_none.mpr hfresh.2]
    · simp [blocks, lookup_insert_eq, ha]

/-- Blocks are neither cells nor queues. -/
theorem blocks_eq {m' : Memory} (hsame : ∀ a, m'.lookup a = m.lookup a ∨
    ((∀ b, b = m.lookup a → b ≠ some .block) ∧ ∀ b, b = m'.lookup a → b ≠ some .block)) :
    blocks m' = blocks m := by
  ext a
  rcases hsame a with heq | ⟨hold, hnew⟩
  · change m'.lookup a = _ ↔ m.lookup a = _
    rw [heq]
  · exact iff_of_false (hnew _ rfl) (hold _ rfl)

/-- The first element of an empty queue. -/
private theorem enq_first (h : Laid m w) (hq : w q = some []) (hat : QueueAt m q [] head tail)
    (hfresh : Fresh m fresh) :
    ∃ m', queueEnq m q fresh element = .ok m' ∧
      Laid m' (Function.update w q (some [(fresh, element)])) ∧ blocks m' = blocks m := by
  have hlive : q ∈ m := Finmap.mem_of_lookup_eq_some hat.header
  have hne : fresh ≠ q := fun heq => hfresh.2 (heq ▸ hlive)
  refine ⟨(m.insert fresh (.cell element null)).insert q (.queue fresh fresh), ?_, ?_, ?_⟩
  · simp only [queueEnq, loadQueue_eq hat, queueEmpty_eq h.null_free hat, cons, malloc_fresh hfresh,
      ok_bind, decide_true, if_true]
  · have hat' : QueueAt ((m.insert fresh (.cell element null)).insert q (.queue fresh fresh)) q
        [(fresh, element)] fresh fresh := by
      refine ⟨Finmap.lookup_insert _, Chain.cons (cellAt_iff.mpr ?_) (Chain.nil null), by simp⟩
      rw [lookup_insert_eq, if_neg hne, Finmap.lookup_insert]
    refine h.update (Or.inl hq) ?_ hat' ?_ (by simp) ?_
    · rw [Finmap.mem_insert, Finmap.mem_insert]
      rintro (hnull | hnull | hnull)
      · exact h.null_free (hnull ▸ hlive)
      · exact hfresh.1 hnull.symm
      · exact h.null_free hnull
    · intro a haq _ hnew
      rw [lookup_insert_eq, if_neg haq, lookup_insert_eq, if_neg (by simpa using hnew)]
    · intro a ha
      rw [List.mem_singleton.mp ha]
      exact Or.inr hfresh.2
  · refine blocks_eq fun a => ?_
    by_cases haq : a = q
    · subst haq
      exact Or.inr (by simp [hat.header])
    · by_cases hafresh : a = fresh
      · subst hafresh
        exact Or.inr (by simp [Finmap.lookup_eq_none.mpr hfresh.2, haq])
      · exact Or.inl (by simp [haq, hafresh])

/-- A further element, behind the last cell. -/
private theorem enq_behind {front : List (Addr × Addr)} {last x : Addr} (h : Laid m w)
    (hq : w q = some (front ++ [(last, x)])) (hat : QueueAt m q (front ++ [(last, x)]) head tail)
    (hfresh : Fresh m fresh) :
    ∃ m', queueEnq m q fresh element = .ok m' ∧
      Laid m' (Function.update w q (some (front ++ [(last, x)] ++ [(fresh, element)]))) ∧
      blocks m' = blocks m := by
  have hlive : q ∈ m := Finmap.mem_of_lookup_eq_some hat.header
  have htail : tail = last := hat.last (last, x) (by simp)
  subst htail
  obtain ⟨hfront, hlast⟩ := chain_concat_iff.mp hat.chain
  have hnodup := hat.chain.nodup (cellAt_absent h.null_free)
  rw [List.map_append, List.map_singleton, List.nodup_append] at hnodup
  have hlastLive : tail ∈ m := mem_of_cellAt (by rw [hlast]; exact Option.some_ne_none _)
  have hlastQ : tail ≠ q := hat.cell_ne (by simp)
  have hneq : fresh ≠ q := fun heq => hfresh.2 (heq ▸ hlive)
  have hnelast : fresh ≠ tail := fun heq => hfresh.2 (heq ▸ hlastLive)
  generalize hm' : ((m.insert fresh (.cell element null)).insert tail (.cell x fresh)).insert q
    (.queue head fresh) = m'
  have hlookup : ∀ a, m'.lookup a = if a = q then some (.queue head fresh)
      else if a = tail then some (.cell x fresh) else if a = fresh then some (.cell element null)
      else m.lookup a := by
    intro a
    rw [← hm', lookup_insert_eq, lookup_insert_eq, lookup_insert_eq]
  have hmem : ∀ a, a ∈ m' → a = fresh ∨ a ∈ m := by
    intro a ha
    rw [← hm', Finmap.mem_insert, Finmap.mem_insert, Finmap.mem_insert] at ha
    rcases ha with rfl | rfl | rfl | ha
    · exact Or.inr hlive
    · exact Or.inr hlastLive
    · exact Or.inl rfl
    · exact Or.inr ha
  have hold : ∀ a ∈ front.map Prod.fst, a ≠ q ∧ a ≠ tail ∧ a ≠ fresh := by
    intro a ha
    refine ⟨hat.cell_ne (by simp only [List.map_append, List.mem_append]; exact Or.inl ha), ?_, ?_⟩
    · exact hnodup.2.2 a ha tail (List.mem_singleton_self tail)
    · rintro rfl
      exact hfresh.2 (mem_of_cellAt (hfront.cell ha))
  refine ⟨m', ?_, ?_, ?_⟩
  · have hload : loadCell (m.insert fresh (.cell element null)) tail = .ok (x, null) := by
      apply loadCell_eq
      rw [cellAt_congr (m := m) (by rw [lookup_insert_eq, if_neg hnelast.symm])]
      exact hlast
    have hcells : ¬ front ++ [(tail, x)] = [] := by simp
    simp only [queueEnq, loadQueue_eq hat, queueEmpty_eq h.null_free hat, cons, malloc_fresh hfresh,
      ok_bind, hcells, decide_false, Bool.false_eq_true, if_false, hload, hm']
  · have hat' : QueueAt m' q (front ++ [(tail, x)] ++ [(fresh, element)]) head fresh := by
      refine ⟨by rw [hlookup, if_pos rfl], ?_, by simp⟩
      refine chain_concat_iff.mpr ⟨chain_concat_iff.mpr ⟨?_, ?_⟩, ?_⟩
      · refine hfront.congr fun a ha => cellAt_congr ?_
        obtain ⟨haq, halast, hafresh⟩ := hold a ha
        rw [hlookup, if_neg haq, if_neg halast, if_neg hafresh]
      · rw [cellAt_iff, hlookup, if_neg hlastQ, if_pos rfl]
      · rw [cellAt_iff, hlookup, if_neg hneq, if_neg hnelast, if_pos rfl]
    refine h.update (Or.inl hq) ?_ hat' ?_ ?_ ?_
    · intro hnull
      rcases hmem null hnull with hnull | hnull
      · exact hfresh.1 hnull.symm
      · exact h.null_free hnull
    · intro a haq _ hnew
      simp only [List.map_append, List.map_singleton, List.mem_append, List.mem_singleton,
        not_or] at hnew
      rw [hlookup, if_neg haq, if_neg hnew.1.2, if_neg hnew.2]
    · intro a ha hnot
      exact absurd (by rw [List.map_append]; exact List.mem_append_left _ ha) hnot
    · intro a ha
      rw [List.map_append] at ha
      rcases List.mem_append.mp ha with ha | ha
      · exact Or.inl ha
      · rw [List.mem_singleton.mp ha]
        exact Or.inr hfresh.2
  · refine blocks_eq fun a => ?_
    rw [hlookup]
    by_cases haq : a = q
    · subst haq
      exact Or.inr (by simp [hat.header])
    · by_cases halast : a = tail
      · subst halast
        exact Or.inr (by simp [haq, cellAt_iff.mp hlast])
      · by_cases hafresh : a = fresh
        · subst hafresh
          exact Or.inr (by simp [haq, halast, Finmap.lookup_eq_none.mpr hfresh.2])
        · exact Or.inl (by simp [haq, halast, hafresh])

theorem enq_spec (h : Laid m w) (hq : w q = some cells) (hfresh : Fresh m fresh) :
    ∃ m', queueEnq m q fresh element = .ok m' ∧
      Laid m' (Function.update w q (some (cells ++ [(fresh, element)]))) ∧ blocks m' = blocks m := by
  obtain ⟨head, tail, hat⟩ := h.queue q cells hq
  rcases List.eq_nil_or_concat cells with rfl | ⟨front, ⟨last, x⟩, hcells⟩
  · exact enq_first h hq hat hfresh
  · rw [List.concat_eq_append] at hcells
    subst hcells
    exact enq_behind h hq hat hfresh

/-- What `queue_deq` leaves: the queue without its first cell, which is freed. -/
theorem queueDeq_eq {p x : Addr} {rest : List (Addr × Addr)} (hnull : null ∉ m)
    (hat : QueueAt m q ((p, x) :: rest) head tail) :
    ∃ next, queueDeq m q = .ok ((m.erase p).insert q (.queue next tail), x) ∧
      QueueAt ((m.erase p).insert q (.queue next tail)) q rest next tail := by
  obtain ⟨rfl, next, hp, hrest⟩ := chain_cons_iff.mp hat.chain
  have hnodup := hat.chain.nodup (cellAt_absent hnull)
  rw [List.map_cons, List.nodup_cons] at hnodup
  have hlive : head ∈ m := mem_of_cellAt (by rw [hp]; exact Option.some_ne_none _)
  have hhead : head ≠ null := fun heq => hnull (heq ▸ hlive)
  refine ⟨next, ?_, ?_⟩
  · have hcells : ¬ (head, x) :: rest = [] := by simp
    simp only [queueDeq, loadQueue_eq hat, queueEmpty_eq hnull hat, cdrAndFree, free, ok_bind, hcells,
      decide_false, Bool.false_eq_true, if_false, loadCell_eq hp, hhead, hlive, if_true]
  · refine ⟨Finmap.lookup_insert _, hrest.congr fun a ha => cellAt_congr ?_, ?_⟩
    · have haq : a ≠ q := hat.cell_ne (List.mem_cons_of_mem _ ha)
      have hahead : a ≠ head := fun heq => hnodup.1 (heq ▸ ha)
      rw [lookup_insert_eq, if_neg haq, lookup_erase_eq, if_neg hahead]
    · intro cell hcell
      apply hat.last cell
      cases rest with
      | nil => cases hcell
      | cons y ys => exact hcell

theorem deq_spec {p x : Addr} {rest : List (Addr × Addr)} (h : Laid m w)
    (hq : w q = some ((p, x) :: rest)) :
    ∃ m', queueDeq m q = .ok (m', x) ∧ Laid m' (Function.update w q (some rest)) ∧
      blocks m' = blocks m := by
  obtain ⟨head, tail, hat⟩ := h.queue q _ hq
  obtain ⟨next, hdeq, hat'⟩ := queueDeq_eq h.null_free hat
  have hlive : q ∈ m := Finmap.mem_of_lookup_eq_some hat.header
  have hpq : p ≠ q := hat.cell_ne (List.mem_cons_self ..)
  refine ⟨_, hdeq, h.update (Or.inl hq) ?_ hat' ?_ ?_ ?_, blocks_eq fun a => ?_⟩
  · rw [Finmap.mem_insert, Finmap.mem_erase]
    rintro (hnull | ⟨_, hnull⟩)
    · exact h.null_free (hnull ▸ hlive)
    · exact h.null_free hnull
  · intro a haq hacells _
    rw [lookup_insert_eq, if_neg haq, lookup_erase_eq,
      if_neg fun heq : a = p => hacells (heq ▸ List.mem_cons_self ..)]
  · intro a ha hnot
    rcases List.mem_cons.mp ha with rfl | ha
    · rw [Finmap.mem_insert, Finmap.mem_erase]
      rintro (heq | ⟨hne, _⟩)
      · exact hpq heq
      · exact hne rfl
    · exact absurd ha hnot
  · exact fun a ha => Or.inl (List.mem_cons_of_mem _ ha)
  · by_cases haq : a = q
    · subst haq
      exact Or.inr (by simp [hat.header])
    · by_cases hap : a = p
      · subst hap
        obtain ⟨heq, next', hcell, _⟩ := chain_cons_iff.mp hat.chain
        rw [heq] at hcell
        exact Or.inr (by simp [haq, cellAt_iff.mp hcell])
      · exact Or.inl (by simp [haq, hap])

/-- The assertion fails on an empty queue. -/
theorem deq_empty (h : Laid m w) (hq : w q = some []) : queueDeq m q = .error notEmpty := by
  obtain ⟨head, tail, hat⟩ := h.queue q [] hq
  simp only [queueDeq, loadQueue_eq hat, queueEmpty_eq h.null_free hat, ok_bind, decide_true, if_true]

theorem peek_spec (h : Laid m w) (hq : w q = some cells) :
    queuePeek m q = (cells.head?).elim (.error notEmpty) fun cell => .ok cell.2 := by
  obtain ⟨head, tail, hat⟩ := h.queue q cells hq
  cases cells with
  | nil =>
    simp only [queuePeek, loadQueue_eq hat, queueEmpty_eq h.null_free hat, ok_bind, decide_true, if_true]
    rfl
  | cons cell rest =>
    obtain ⟨rfl, next, hp, _⟩ := chain_cons_iff.mp hat.chain
    have hcells : ¬ cell :: rest = [] := by simp
    simp only [queuePeek, loadQueue_eq hat, queueEmpty_eq h.null_free hat, ok_bind, hcells,
      decide_false, Bool.false_eq_true, if_false, loadCell_eq hp]
    rfl

end Calls

end TopicBroker.Queues
