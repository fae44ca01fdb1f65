import Mathlib.Data.List.Induction
import Mathlib.Data.List.Nodup

/-!
An ideal broker with store and forward, over any types of identities, links, topics
and messages. An account is online on a link or offline with the messages that wait
for it, and no two accounts of a broker have one identity. What is delivered to an
identity together with what waits for it is what was published for it, in that order.
-/
namespace TopicBroker.PubSub

/-- Only an account that is offline has messages waiting. -/
inductive Presence (κ μ : Type*)
  | online (link : κ)
  | offline (pending : List μ)

/-- The subscriptions tell whether they ask for storing; the newest is the first. -/
structure Account (ι κ τ μ : Type*) where
  id : ι
  subs : List (τ × Bool)
  presence : Presence κ μ

inductive Action (ι κ τ μ : Type*)
  | connect (link : κ) (id : ι)
  | leave (link : κ)
  | subscribe (link : κ) (topic : τ) (store : Bool)
  | unsubscribe (link : κ) (topic : τ)
  | publish (topic : τ) (message : μ)
deriving DecidableEq

structure Delivery (ι κ μ : Type*) where
  id : ι
  link : κ
  message : μ

section Accounts

variable {ι κ τ μ : Type*}

def Account.link (a : Account ι κ τ μ) : Option κ :=
  match a.presence with
  | .online link => some link
  | .offline _ => none

def Account.pending (a : Account ι κ τ μ) : List μ :=
  match a.presence with
  | .online _ => []
  | .offline pending => pending

variable [DecidableEq ι] [DecidableEq τ]

/-- How many of the subscriptions are to the topic. -/
def Account.copies (a : Account ι κ τ μ) (topic : τ) : ℕ := a.subs.countP fun p => p.1 = topic

/-- How many of these ask for storing. -/
def Account.stored (a : Account ι κ τ μ) (topic : τ) : ℕ :=
  a.subs.countP fun p => p.1 = topic ∧ p.2 = true

/-- What the broker delivers to an account in an action. -/
def Account.receives (a : Account ι κ τ μ) : Action ι κ τ μ → List (Delivery ι κ μ)
  | .connect link id =>
    match a.presence with
    | .online _ => []
    | .offline pending => if a.id = id then pending.map (⟨a.id, link, ·⟩) else []
  | .publish topic message =>
    match a.presence with
    | .online link => List.replicate (a.copies topic) ⟨a.id, link, message⟩
    | .offline _ => []
  | _ => []

/-- What an action publishes for an account: one copy for every subscription to the
topic while the account is online, and for every one that stores while it is not. -/
def Account.owes (a : Account ι κ τ μ) : Action ι κ τ μ → List μ
  | .publish topic message =>
    match a.presence with
    | .online _ => List.replicate (a.copies topic) message
    | .offline _ => List.replicate (a.stored topic) message
  | _ => []

theorem Account.receives_id {a : Account ι κ τ μ} {x : Action ι κ τ μ} {d : Delivery ι κ μ}
    (h : d ∈ a.receives x) : d.id = a.id := by
  cases x with
  | connect link id =>
    simp only [Account.receives] at h
    split at h
    · cases h
    · split at h
      · obtain ⟨message, _, rfl⟩ := List.mem_map.mp h
        rfl
      · cases h
  | publish topic message =>
    simp only [Account.receives] at h
    split at h
    · rw [List.eq_of_mem_replicate h]
    · cases h
  | _ => cases h

variable [DecidableEq κ]

/-- An account after an action. -/
def Account.next (a : Account ι κ τ μ) : Action ι κ τ μ → Account ι κ τ μ
  | .connect link id =>
    match a.presence with
    | .online _ => a
    | .offline _ => if a.id = id then { a with presence := .online link } else a
  | .leave link => if a.link = some link then { a with presence := .offline [] } else a
  | .subscribe link topic store =>
    if a.link = some link then { a with subs := (topic, store) :: a.subs } else a
  | .unsubscribe link topic =>
    if a.link = some link then { a with subs := a.subs.filter fun p => p.1 ≠ topic } else a
  | .publish topic message =>
    match a.presence with
    | .online _ => a
    | .offline pending => { a with
        presence := .offline (pending ++ List.replicate (a.stored topic) message) }

@[simp] theorem Account.next_id (a : Account ι κ τ μ) (x : Action ι κ τ μ) :
    (a.next x).id = a.id := by
  cases x with
  | connect link id =>
    simp only [Account.next]
    split
    · rfl
    · split <;> rfl
  | _ =>
    simp only [Account.next]
    split <;> rfl

/-- An account is on the link that it receives on. -/
theorem Account.receives_link {a : Account ι κ τ μ} {x : Action ι κ τ μ} {d : Delivery ι κ μ}
    (h : d ∈ a.receives x) : (a.next x).link = some d.link := by
  cases x with
  | connect link id =>
    cases hp : a.presence with
    | online link' => simp [Account.receives, hp] at h
    | offline pending =>
      simp only [Account.receives, hp] at h
      split at h
      · rename_i hid
        obtain ⟨message, _, rfl⟩ := List.mem_map.mp h
        simp [Account.next, hp, hid, Account.link]
      · cases h
  | publish topic message =>
    cases hp : a.presence with
    | online link =>
      simp only [Account.receives, hp] at h
      rw [List.eq_of_mem_replicate h]
      simp [Account.next, hp, Account.link]
    | offline pending => simp [Account.receives, hp] at h
  | _ => cases h

/-- One action moves messages from what is owed to what waits and to what is delivered,
and loses none. -/
theorem Account.conserves (a : Account ι κ τ μ) (x : Action ι κ τ μ) :
    (a.receives x).map Delivery.message ++ (a.next x).pending = a.pending ++ a.owes x := by
  cases x with
  | connect link id =>
    cases hp : a.presence with
    | online link' => simp [Account.receives, Account.next, Account.owes, hp]
    | offline pending =>
      by_cases hid : a.id = id
      · simp [Account.receives, Account.next, Account.owes, Account.pending, hp, hid,
          Function.comp_def]
      · simp [Account.receives, Account.next, Account.owes, Account.pending, hp, hid]
  | leave link =>
    simp only [Account.receives, Account.next, Account.owes, List.map_nil, List.nil_append,
      List.append_nil]
    split
    · rename_i hlink
      cases hp : a.presence with
      | online link' => simp [Account.pending, hp]
      | offline pending => simp [Account.link, hp] at hlink
    · rfl
  | subscribe link topic store =>
    simp only [Account.receives, Account.next, Account.owes, List.map_nil, List.nil_append,
      List.append_nil]
    split <;> rfl
  | unsubscribe link topic =>
    simp only [Account.receives, Account.next, Account.owes, List.map_nil, List.nil_append,
      List.append_nil]
    split <;> rfl
  | publish topic message =>
    cases hp : a.presence with
    | online link => simp [Account.receives, Account.next, Account.owes, Account.pending, hp]
    | offline pending => simp [Account.receives, Account.next, Account.owes, Account.pending, hp]

end Accounts

/-- Accounts in the order in which they came. -/
structure Broker (ι κ τ μ : Type*) where
  accounts : List (Account ι κ τ μ)
  nodup : (accounts.map Account.id).Nodup

section Brokers

variable {ι κ τ μ : Type*}

def empty : Broker ι κ τ μ := ⟨[], List.nodup_nil⟩

theorem Broker.unique (b : Broker ι κ τ μ) {a a' : Account ι κ τ μ} (ha : a ∈ b.accounts)
    (ha' : a' ∈ b.accounts) (hid : a.id = a'.id) : a = a' :=
  List.inj_on_of_nodup_map b.nodup ha ha' hid

/-- No two accounts are on one link. -/
def Broker.Apart (b : Broker ι κ τ μ) : Prop :=
  ∀ a ∈ b.accounts, ∀ a' ∈ b.accounts, ∀ link, a.link = some link → a'.link = some link → a = a'

variable [DecidableEq ι]

/-- The messages that wait for an identity. -/
def Broker.pending (b : Broker ι κ τ μ) (id : ι) : List μ :=
  (b.accounts.filter (·.id = id)).flatMap Account.pending

theorem Broker.account_cases (b : Broker ι κ τ μ) (id : ι) :
    b.accounts.filter (·.id = id) = [] ∨ ∃ a, b.accounts.filter (·.id = id) = [a] := by
  have hcount : (b.accounts.filter (·.id = id)).length = (b.accounts.map Account.id).count id := by
    rw [List.count, List.countP_map, ← List.countP_eq_length_filter]
    apply List.countP_congr
    intro a _
    simp
  have hle := List.nodup_iff_count_le_one.mp b.nodup id
  rw [← hcount] at hle
  rcases Nat.le_one_iff_eq_zero_or_eq_one.mp hle with hzero | hone
  · exact Or.inl (List.eq_nil_of_length_eq_zero hzero)
  · exact Or.inr (List.length_eq_one_iff.mp hone)

theorem Broker.pending_of_mem {b : Broker ι κ τ μ} {a : Account ι κ τ μ} (ha : a ∈ b.accounts) :
    b.pending a.id = a.pending := by
  have hmem : a ∈ b.accounts.filter (·.id = a.id) := List.mem_filter.mpr ⟨ha, by simp⟩
  rw [Broker.pending]
  rcases b.account_cases a.id with hnone | ⟨a', hone⟩
  · rw [hnone] at hmem
    cases hmem
  · rw [hone] at hmem ⊢
    rw [List.mem_singleton.mp hmem, List.flatMap_singleton]

theorem Broker.pending_of_absent {b : Broker ι κ τ μ} {id : ι} (h : ∀ a ∈ b.accounts, a.id ≠ id) :
    b.pending id = [] := by
  have hnone : b.accounts.filter (·.id = id) = [] :=
    List.filter_eq_nil_iff.mpr fun a ha => by simpa using h a ha
  rw [Broker.pending, hnone, List.flatMap_nil]

variable [DecidableEq τ]

def Broker.deliveries (b : Broker ι κ τ μ) (x : Action ι κ τ μ) : List (Delivery ι κ μ) :=
  b.accounts.flatMap (·.receives x)

def Broker.owes (b : Broker ι κ τ μ) (id : ι) (x : Action ι κ τ μ) : List μ :=
  (b.accounts.filter (·.id = id)).flatMap (·.owes x)

def Broker.receives (b : Broker ι κ τ μ) (id : ι) (x : Action ι κ τ μ) : List μ :=
  ((b.deliveries x).filter (·.id = id)).map Delivery.message

/-- An identity that connects gets what waits for it. -/
theorem Broker.deliveries_connect (b : Broker ι κ τ μ) (link : κ) (id : ι) :
    b.deliveries (.connect link id) = (b.pending id).map (⟨id, link, ·⟩) := by
  have hgets : ∀ accounts : List (Account ι κ τ μ), accounts.flatMap (·.receives (.connect link id)) =
      ((accounts.filter (·.id = id)).flatMap Account.pending).map (⟨id, link, ·⟩) := by
    intro accounts
    induction accounts with
    | nil => rfl
    | cons a rest ih =>
      rw [List.flatMap_cons, ih]
      by_cases hid : a.id = id
      · rw [List.filter_cons_of_pos (by simpa using hid), List.flatMap_cons, List.map_append]
        cases hp : a.presence with
        | online link' => simp [Account.receives, Account.pending, hp]
        | offline pending => simp [Account.receives, Account.pending, hp, hid]
      · rw [List.filter_cons_of_neg (by simpa using hid)]
        cases hp : a.presence with
        | online link' => simp [Account.receives, hp]
        | offline pending => simp [Account.receives, hp, hid]
  exact hgets b.accounts

private theorem filter_deliveries (id : ι) (x : Action ι κ τ μ) (accounts : List (Account ι κ τ μ)) :
    (accounts.flatMap (·.receives x)).filter (·.id = id) =
      (accounts.filter (·.id = id)).flatMap (·.receives x) := by
  induction accounts with
  | nil => rfl
  | cons a rest ih =>
    rw [List.flatMap_cons, List.filter_append, ih]
    by_cases hid : a.id = id
    · rw [List.filter_cons_of_pos (by simpa using hid), List.flatMap_cons, List.filter_eq_self.mpr]
      intro d hd
      simpa using (Account.receives_id hd).trans hid
    · rw [List.filter_cons_of_neg (by simpa using hid), List.filter_eq_nil_iff.mpr, List.nil_append]
      intro d hd
      simpa [Account.receives_id hd] using hid

variable [DecidableEq κ]

/-- The account that an identity gets when it connects for the first time. -/
def Broker.joins (b : Broker ι κ τ μ) (x : Action ι κ τ μ) : List (Account ι κ τ μ) :=
  match x with
  | .connect link id => if ∃ a ∈ b.accounts, a.id = id then [] else [⟨id, [], .online link⟩]
  | _ => []

theorem Broker.joins_nodup (b : Broker ι κ τ μ) (x : Action ι κ τ μ) :
    ((b.accounts.map (·.next x) ++ b.joins x).map Account.id).Nodup := by
  have hold : (b.accounts.map (·.next x)).map Account.id = b.accounts.map Account.id := by
    rw [List.map_map]
    exact List.map_congr_left fun a _ => a.next_id x
  rw [List.map_append, hold]
  cases x with
  | connect link id =>
    simp only [joins]
    split
    · rw [List.map_nil, List.append_nil]
      exact b.nodup
    · rename_i hnone
      rw [List.map_singleton]
      refine List.nodup_append.mpr ⟨b.nodup, List.nodup_singleton _, ?_⟩
      intro i hi j hj hij
      obtain ⟨a, ha, rfl⟩ := List.mem_map.mp hi
      exact hnone ⟨a, ha, hij.trans (List.mem_singleton.mp hj)⟩
  | _ =>
    simp only [joins, List.map_nil, List.append_nil]
    exact b.nodup

/-- A broker after an action. -/
def Broker.next (b : Broker ι κ τ μ) (x : Action ι κ τ μ) : Broker ι κ τ μ :=
  ⟨b.accounts.map (·.next x) ++ b.joins x, b.joins_nodup x⟩

theorem Broker.next_accounts (b : Broker ι κ τ μ) (x : Action ι κ τ μ) :
    (b.next x).accounts = b.accounts.map (·.next x) ++ b.joins x := rfl

/-- The accounts of an identity after an action. -/
theorem Broker.next_filter (b : Broker ι κ τ μ) (id : ι) (x : Action ι κ τ μ) :
    (b.next x).accounts.filter (·.id = id) =
      (b.accounts.filter (·.id = id)).map (·.next x) ++ (b.joins x).filter (·.id = id) := by
  have hold : (b.accounts.map (·.next x)).filter (·.id = id) =
      (b.accounts.filter (·.id = id)).map (·.next x) := by
    rw [List.filter_map]
    congr 1
    apply List.filter_congr
    intro a _
    simp
  rw [Broker.next, List.filter_append, hold]

private theorem pending_next (b : Broker ι κ τ μ) (id : ι) (x : Action ι κ τ μ) :
    (b.next x).pending id =
      ((b.accounts.filter (·.id = id)).map (·.next x)).flatMap Account.pending := by
  have hnew : ((b.joins x).filter (·.id = id)).flatMap Account.pending = [] := by
    rw [List.flatMap_eq_nil_iff]
    intro a ha
    have hjoin := List.mem_of_mem_filter ha
    unfold Broker.joins at hjoin
    split at hjoin
    · split at hjoin
      · cases hjoin
      · rw [List.mem_singleton.mp hjoin]
        rfl
    · cases hjoin
  rw [Broker.pending, Broker.next_filter, List.flatMap_append, hnew, List.append_nil]

/-- One action conserves the messages of every identity. -/
theorem Broker.conserves (b : Broker ι κ τ μ) (id : ι) (x : Action ι κ τ μ) :
    b.receives id x ++ (b.next x).pending id = b.pending id ++ b.owes id x := by
  rw [pending_next, Broker.receives, Broker.deliveries, filter_deliveries, Broker.pending,
    Broker.owes]
  rcases b.account_cases id with hnone | ⟨a, hone⟩
  · rw [hnone]
    rfl
  · rw [hone]
    simpa using a.conserves x

/-- A delivery goes to the account of its identity, which is on the link afterwards. -/
theorem Broker.recipient {b : Broker ι κ τ μ} {x : Action ι κ τ μ} {d : Delivery ι κ μ}
    (h : d ∈ b.deliveries x) :
    ∃ a ∈ (b.next x).accounts, a.id = d.id ∧ a.link = some d.link := by
  obtain ⟨a, ha, hd⟩ := List.mem_flatMap.mp h
  exact ⟨a.next x, List.mem_append_left _ (List.mem_map_of_mem ha),
    (a.next_id x).trans (Account.receives_id hd).symm, Account.receives_link hd⟩

/-- What is delivered on a link is delivered to the account that is on it. -/
theorem Broker.deliveries_on_link {b : Broker ι κ τ μ} {x : Action ι κ τ μ} (h : (b.next x).Apart)
    {a : Account ι κ τ μ} (ha : a ∈ (b.next x).accounts) {link : κ} (hlink : a.link = some link) :
    (b.deliveries x).filter (·.link = link) = (b.deliveries x).filter (·.id = a.id) := by
  apply List.filter_congr
  intro d hd
  obtain ⟨a', hmem, hid, hon⟩ := Broker.recipient hd
  refine decide_eq_decide.mpr ⟨?_, ?_⟩
  · rintro rfl
    rw [h a ha a' hmem _ hlink hon, hid]
  · intro heq
    rw [(b.next x).unique hmem ha (hid.trans heq), hlink] at hon
    exact (Option.some.inj hon).symm

/-- Nothing is delivered to an account that is offline afterwards. -/
theorem Broker.receives_of_offline {b : Broker ι κ τ μ} {x : Action ι κ τ μ} {a : Account ι κ τ μ}
    (ha : a ∈ (b.next x).accounts) (hlink : a.link = none) : b.receives a.id x = [] := by
  rw [receives, List.map_eq_nil_iff, List.filter_eq_nil_iff]
  intro d hd hid
  obtain ⟨a', hmem, hsame, hon⟩ := Broker.recipient hd
  rw [(b.next x).unique hmem ha (hsame.trans (of_decide_eq_true hid)), hlink] at hon
  cases hon

/-- The broker after a list of actions, from the first one on. -/
def after (xs : List (Action ι κ τ μ)) : Broker ι κ τ μ := xs.foldl Broker.next empty

theorem after_concat (xs : List (Action ι κ τ μ)) (x : Action ι κ τ μ) :
    after (xs ++ [x]) = (after xs).next x := by
  rw [after, after, List.foldl_append, List.foldl_cons, List.foldl_nil]

/-- What the actions from a broker on yield one after the other. -/
def along {α : Type*} (f : Broker ι κ τ μ → Action ι κ τ μ → List α) :
    Broker ι κ τ μ → List (Action ι κ τ μ) → List α
  | _, [] => []
  | b, x :: xs => f b x ++ along f (b.next x) xs

theorem along_concat {α : Type*} (f : Broker ι κ τ μ → Action ι κ τ μ → List α)
    (b : Broker ι κ τ μ) (xs : List (Action ι κ τ μ)) (x : Action ι κ τ μ) :
    along f b (xs ++ [x]) = along f b xs ++ f (xs.foldl Broker.next b) x := by
  induction xs generalizing b with
  | nil => simp [along]
  | cons y ys ih => rw [List.cons_append, along, along, ih, List.foldl_cons, List.append_assoc]

/-- What the actions publish for an identity. -/
def due (id : ι) (xs : List (Action ι κ τ μ)) : List μ := along (fun b x => b.owes id x) empty xs

/-- What is delivered to an identity on its links. -/
def received (id : ι) (xs : List (Action ι κ τ μ)) : List μ :=
  along (fun b x => b.receives id x) empty xs

theorem received_concat (id : ι) (xs : List (Action ι κ τ μ)) (x : Action ι κ τ μ) :
    received id (xs ++ [x]) = received id xs ++ (after xs).receives id x :=
  along_concat _ _ _ _

/-- Nothing has been delivered to an identity without an account. -/
theorem received_of_absent {id : ι} {xs : List (Action ι κ τ μ)}
    (h : ∀ a ∈ (after xs).accounts, a.id ≠ id) : received id xs = [] := by
  induction xs using List.reverseRecOn with
  | nil => rfl
  | append_singleton xs x ih =>
    rw [after_concat] at h
    have hbefore : ∀ a ∈ (after xs).accounts, a.id ≠ id := by
      intro a ha
      rw [← a.next_id x]
      exact h _ (List.mem_append_left _ (List.mem_map_of_mem ha))
    have hnow : (after xs).receives id x = [] := by
      rw [Broker.receives, List.map_eq_nil_iff, List.filter_eq_nil_iff]
      intro d hd hid
      obtain ⟨a, ha, hsame, _⟩ := Broker.recipient hd
      exact h a ha (hsame.trans (of_decide_eq_true hid))
    rw [received_concat, ih hbefore, hnow, List.append_nil]

/-- What was published for an identity has been delivered to it or waits for it: nothing
is lost, nothing comes twice and the order is kept. -/
theorem received_append_pending (id : ι) (xs : List (Action ι κ τ μ)) :
    received id xs ++ (after xs).pending id = due id xs := by
  induction xs using List.reverseRecOn with
  | nil => rfl
  | append_singleton xs x ih =>
    have hdue : due id (xs ++ [x]) = due id xs ++ (after xs).owes id x := along_concat _ _ _ _
    rw [received_concat, after_concat, List.append_assoc, Broker.conserves, ← List.append_assoc, ih,
      hdue]

theorem along_mem {α : Type*} {f : Broker ι κ τ μ → Action ι κ τ μ → List α} {m : α}
    {b : Broker ι κ τ μ} {xs : List (Action ι κ τ μ)} (h : m ∈ along f b xs) :
    ∃ b', ∃ x ∈ xs, m ∈ f b' x := by
  induction xs generalizing b with
  | nil => cases h
  | cons x xs ih =>
    rcases List.mem_append.mp h with hnow | hlater
    · exact ⟨b, x, List.mem_cons_self .., hnow⟩
    · obtain ⟨b', y, hy, hm⟩ := ih hlater
      exact ⟨b', y, List.mem_cons_of_mem x hy, hm⟩

/-- What is due was published. -/
theorem due_published {id : ι} {xs : List (Action ι κ τ μ)} {m : μ} (h : m ∈ due id xs) :
    ∃ topic, .publish topic m ∈ xs := by
  obtain ⟨b, x, hx, hm⟩ := along_mem h
  obtain ⟨a, _, hm⟩ := List.mem_flatMap.mp hm
  cases x with
  | publish topic message =>
    have heq : m = message := by
      simp only [Account.owes] at hm
      split at hm
      · exact List.eq_of_mem_replicate hm
      · exact List.eq_of_mem_replicate hm
    subst heq
    exact ⟨topic, hx⟩
  | _ => cases hm

/-- What is delivered was published. -/
theorem deliveries_published {xs : List (Action ι κ τ μ)} {x : Action ι κ τ μ} {d : Delivery ι κ μ}
    (h : d ∈ (after xs).deliveries x) : ∃ topic, .publish topic d.message ∈ xs ++ [x] := by
  have hdue : d.message ∈ due d.id (xs ++ [x]) := by
    rw [← received_append_pending, received_concat]
    refine List.mem_append_left _ (List.mem_append_right _ (List.mem_map_of_mem ?_))
    exact List.mem_filter.mpr ⟨h, by simp⟩
  exact due_published hdue

end Brokers

/-!
A broker never looks into a message: what it owes commutes with a change of messages.
-/
section Messages

variable {ι κ τ μ ν : Type*}

def Presence.map (f : μ → ν) : Presence κ μ → Presence κ ν
  | .online link => .online link
  | .offline pending => .offline (pending.map f)

def Account.map (f : μ → ν) (a : Account ι κ τ μ) : Account ι κ τ ν :=
  ⟨a.id, a.subs, a.presence.map f⟩

def Action.map (f : μ → ν) : Action ι κ τ μ → Action ι κ τ ν
  | .connect link id => .connect link id
  | .leave link => .leave link
  | .subscribe link topic store => .subscribe link topic store
  | .unsubscribe link topic => .unsubscribe link topic
  | .publish topic message => .publish topic (f message)

def Broker.map (f : μ → ν) (b : Broker ι κ τ μ) : Broker ι κ τ ν :=
  ⟨b.accounts.map (Account.map f), by
    rw [List.map_map]
    exact b.nodup⟩

@[simp] theorem Account.map_link (f : μ → ν) (a : Account ι κ τ μ) : (a.map f).link = a.link := by
  obtain ⟨id, subs, presence⟩ := a
  cases presence <;> rfl

variable [DecidableEq τ]

theorem Account.map_owes (f : μ → ν) (a : Account ι κ τ μ) (x : Action ι κ τ μ) :
    (a.map f).owes (x.map f) = (a.owes x).map f := by
  obtain ⟨id, subs, presence⟩ := a
  cases x with
  | publish topic message =>
    cases presence with
    | online link =>
      simp only [Account.map, Presence.map, Action.map, Account.owes, Account.copies,
        List.map_replicate]
    | offline pending =>
      simp only [Account.map, Presence.map, Action.map, Account.owes, Account.stored,
        List.map_replicate]
  | _ => rfl

variable [DecidableEq ι]

theorem Broker.map_owes (f : μ → ν) (b : Broker ι κ τ μ) (id : ι) (x : Action ι κ τ μ) :
    (b.map f).owes id (x.map f) = (b.owes id x).map f := by
  rw [Broker.owes, Broker.owes, Broker.map, List.filter_map, List.map_flatMap, List.flatMap_map]
  exact List.flatMap_congr fun a _ => a.map_owes f x

variable [DecidableEq κ]

theorem Account.map_next (f : μ → ν) (a : Account ι κ τ μ) (x : Action ι κ τ μ) :
    (a.map f).next (x.map f) = (a.next x).map f := by
  cases x with
  | connect link id =>
    obtain ⟨id', subs, presence⟩ := a
    cases presence with
    | online link' => rfl
    | offline pending =>
      by_cases hid : id' = id
      · simp only [Account.map, Presence.map, Action.map, Account.next, if_pos hid]
        exact if_pos hid
      · simp only [Account.map, Presence.map, Action.map, Account.next, if_neg hid]
        exact if_neg hid
  | publish topic message =>
    obtain ⟨id, subs, presence⟩ := a
    cases presence with
    | online link => rfl
    | offline pending =>
      simp only [Account.map, Presence.map, Action.map, Account.next, Account.stored,
        List.map_append, List.map_replicate]
  | _ =>
    simp only [Action.map, Account.next, Account.map_link]
    split <;> rfl

theorem Broker.map_next (f : μ → ν) (b : Broker ι κ τ μ) (x : Action ι κ τ μ) :
    (b.map f).next (x.map f) = (b.next x).map f := by
  have hjoins : (b.map f).joins (x.map f) = (b.joins x).map (Account.map f) := by
    cases x with
    | connect link id =>
      have hknown : (∃ a ∈ (b.map f).accounts, a.id = id) ↔ ∃ a ∈ b.accounts, a.id = id :=
        ⟨fun ⟨_, ha, hid⟩ => by
          obtain ⟨a, hmem, rfl⟩ := List.mem_map.mp ha
          exact ⟨a, hmem, hid⟩, fun ⟨a, ha, hid⟩ => ⟨a.map f, List.mem_map_of_mem ha, hid⟩⟩
      by_cases hex : ∃ a ∈ b.accounts, a.id = id
      · simp only [Action.map, Broker.joins, if_pos hex, if_pos (hknown.mpr hex), List.map_nil]
      · simp only [Action.map, Broker.joins, if_neg hex, if_neg (fun h => hex (hknown.mp h))]
        rfl
    | _ => rfl
  simp only [Broker.next, Broker.map, Broker.mk.injEq, List.map_append, List.map_map]
  rw [← hjoins]
  congr 1
  exact List.map_congr_left fun a _ => a.map_next f x

theorem due_map (f : μ → ν) (id : ι) (xs : List (Action ι κ τ μ)) :
    due id (xs.map (Action.map f)) = (due id xs).map f := by
  have hall : ∀ b : Broker ι κ τ μ, along (fun b x => b.owes id x) (b.map f) (xs.map (Action.map f)) =
      (along (fun b x => b.owes id x) b xs).map f := by
    induction xs with
    | nil => exact fun b => rfl
    | cons x xs ih =>
      intro b
      rw [List.map_cons, along, along, Broker.map_owes, Broker.map_next, ih, List.map_append]
  exact hall empty

end Messages

end TopicBroker.PubSub
