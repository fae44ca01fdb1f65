import TopicBroker.PubSub

/-!
The life of an identity: of all actions at a broker those that concern it, without the
names of identities and links. What a broker delivers to an identity and keeps for it is
what a broker that only sees this life does, so one identity never learns of the others.
-/
namespace TopicBroker.Lives

open PubSub

variable {ι κ τ μ : Type*}

def erase : Action ι κ τ μ → Action Unit Unit τ μ
  | .connect _ _ => .connect () ()
  | .leave _ => .leave ()
  | .subscribe _ topic store => .subscribe () topic store
  | .unsubscribe _ topic => .unsubscribe () topic
  | .publish topic message => .publish topic message

def erasePresence : Presence κ μ → Presence Unit μ
  | .online _ => .online ()
  | .offline pending => .offline pending

def eraseAccount (a : Account ι κ τ μ) : Account Unit Unit τ μ :=
  ⟨(), a.subs, erasePresence a.presence⟩

section Accounts

variable (a : Account ι κ τ μ)

@[simp] theorem eraseAccount_pending : (eraseAccount a).pending = a.pending := by
  obtain ⟨id, subs, presence⟩ := a
  cases presence <;> rfl

theorem eraseAccount_link : (eraseAccount a).link = some () ↔ ∃ link, a.link = some link := by
  obtain ⟨id, subs, presence⟩ := a
  cases presence with
  | online link => exact iff_of_true rfl ⟨link, rfl⟩
  | offline pending => exact iff_of_false (fun h => by cases h) fun ⟨_, h⟩ => by cases h

/-- The action is the account's own, or a publication. -/
def Touches (a : Account ι κ τ μ) : Action ι κ τ μ → Prop
  | .connect _ id => id = a.id
  | .leave link => a.link = some link
  | .subscribe link _ _ => a.link = some link
  | .unsubscribe link _ => a.link = some link
  | .publish _ _ => True

variable [DecidableEq τ]

theorem owes_eq (x : Action ι κ τ μ) : a.owes x = (eraseAccount a).owes (erase x) := by
  cases x with
  | publish topic message =>
    cases hp : a.presence with
    | online link =>
      simp [Account.owes, eraseAccount, erasePresence, erase, hp, Account.copies]
    | offline pending =>
      simp [Account.owes, eraseAccount, erasePresence, erase, hp, Account.stored]
  | _ => rfl

variable [DecidableEq ι] [DecidableEq κ]

theorem next_of_touches {x : Action ι κ τ μ} (h : Touches a x) :
    eraseAccount (a.next x) = (eraseAccount a).next (erase x) := by
  cases x with
  | connect link id =>
    have hid : a.id = id := h.symm
    cases hp : a.presence with
    | online link' => simp [Account.next, eraseAccount, erasePresence, erase, hp]
    | offline pending => simp [Account.next, eraseAccount, erasePresence, erase, hp, hid]
  | publish topic message =>
    cases hp : a.presence with
    | online link => simp [Account.next, eraseAccount, erasePresence, erase, hp]
    | offline pending =>
      simp [Account.next, eraseAccount, erasePresence, erase, hp, Account.stored]
  | leave link =>
    have hlink : a.link = some link := h
    simp only [erase, Account.next, if_pos hlink, if_pos ((eraseAccount_link a).mpr ⟨link, hlink⟩)]
    rfl
  | subscribe link topic store =>
    have hlink : a.link = some link := h
    simp only [erase, Account.next, if_pos hlink, if_pos ((eraseAccount_link a).mpr ⟨link, hlink⟩)]
    rfl
  | unsubscribe link topic =>
    have hlink : a.link = some link := h
    simp only [erase, Account.next, if_pos hlink, if_pos ((eraseAccount_link a).mpr ⟨link, hlink⟩)]
    rfl

theorem next_of_not_touches {x : Action ι κ τ μ} (h : ¬ Touches a x) : a.next x = a := by
  cases x with
  | connect link id =>
    have hid : ¬ a.id = id := fun he => h he.symm
    cases hp : a.presence with
    | online link' => simp [Account.next, hp]
    | offline pending => simp [Account.next, hp, hid]
  | publish topic message => exact absurd trivial h
  | leave link => exact if_neg h
  | subscribe link topic store => exact if_neg h
  | unsubscribe link topic => exact if_neg h

end Accounts

section Brokers

variable [DecidableEq ι] {id : ι} {b : Broker ι κ τ μ} {b' : Broker Unit Unit τ μ}

/-- The action concerns the identity, whether it has an account or not yet. -/
def Concerns (b : Broker ι κ τ μ) (id : ι) : Action ι κ τ μ → Prop
  | .connect _ id' => id' = id
  | .leave link => ∃ a ∈ b.accounts, a.id = id ∧ a.link = some link
  | .subscribe link _ _ => ∃ a ∈ b.accounts, a.id = id ∧ a.link = some link
  | .unsubscribe link _ => ∃ a ∈ b.accounts, a.id = id ∧ a.link = some link
  | .publish _ _ => True

/-- The broker on the right has the account of the identity, if there is one, and no other. -/
def Solo (id : ι) (b : Broker ι κ τ μ) (b' : Broker Unit Unit τ μ) : Prop :=
  (b.accounts.filter (·.id = id)).map eraseAccount = b'.accounts

omit [DecidableEq ι] in
theorem concerns_iff {a : Account ι κ τ μ} (ha : a ∈ b.accounts) (hid : a.id = id)
    (x : Action ι κ τ μ) : Concerns b id x ↔ Touches a x := by
  have hlinked : ∀ link, (∃ a ∈ b.accounts, a.id = id ∧ a.link = some link) ↔ a.link = some link := by
    intro link
    refine ⟨?_, fun h => ⟨a, ha, hid, h⟩⟩
    rintro ⟨a', ha', hid', hlink⟩
    rwa [b.unique ha ha' (hid.trans hid'.symm)]
  cases x with
  | connect link id' =>
    change id' = id ↔ id' = a.id
    rw [hid]
  | publish topic message => exact Iff.rfl
  | leave link => exact hlinked link
  | subscribe link topic store => exact hlinked link
  | unsubscribe link topic => exact hlinked link

variable [DecidableEq κ] [DecidableEq τ]

instance (b : Broker ι κ τ μ) (id : ι) (x : Action ι κ τ μ) : Decidable (Concerns b id x) :=
  match x with
  | .connect _ id' => inferInstanceAs (Decidable (id' = id))
  | .leave link => inferInstanceAs (Decidable (∃ a ∈ b.accounts, a.id = id ∧ a.link = some link))
  | .subscribe link _ _ =>
    inferInstanceAs (Decidable (∃ a ∈ b.accounts, a.id = id ∧ a.link = some link))
  | .unsubscribe link _ =>
    inferInstanceAs (Decidable (∃ a ∈ b.accounts, a.id = id ∧ a.link = some link))
  | .publish _ _ => isTrue trivial

/-- An account of the identity and what the broker on the right makes of it. -/
theorem accounts_next (h : Solo id b b') (x : Action ι κ τ μ) :
    ((b.accounts.filter (·.id = id)).map (·.next x)).map eraseAccount =
      if Concerns b id x then b'.accounts.map (·.next (erase x)) else b'.accounts := by
  rw [← h, List.map_map, List.map_map]
  split_ifs with hx
  · apply List.map_congr_left
    intro a ha
    obtain ⟨hmem, hid⟩ := List.mem_filter.mp ha
    exact next_of_touches a ((concerns_iff hmem (of_decide_eq_true hid) x).mp hx)
  · apply List.map_congr_left
    intro a ha
    obtain ⟨hmem, hid⟩ := List.mem_filter.mp ha
    have hnot := fun ht => hx ((concerns_iff hmem (of_decide_eq_true hid) x).mpr ht)
    exact congrArg eraseAccount (next_of_not_touches a hnot)

omit [DecidableEq τ] in
/-- Only a connection of the identity itself makes an account for it. -/
theorem joins_next (h : Solo id b b') (x : Action ι κ τ μ) :
    ((b.joins x).filter (·.id = id)).map eraseAccount =
      if Concerns b id x then b'.joins (erase x) else [] := by
  have hknown : (∃ a ∈ b'.accounts, a.id = ()) ↔ ∃ a ∈ b.accounts, a.id = id := by
    rw [← h]
    simp
  cases x with
  | connect link id' =>
    by_cases hid : id' = id
    · subst hid
      rw [if_pos (show Concerns b id' (.connect link id') from rfl)]
      by_cases hex : ∃ a ∈ b.accounts, a.id = id'
      · have hnone : b.joins (.connect link id') = [] := if_pos hex
        have hnone' : b'.joins (erase (.connect link id')) = [] := if_pos (hknown.mpr hex)
        rw [hnone, hnone']
        rfl
      · have hnew : b.joins (.connect link id') = [⟨id', [], .online link⟩] := if_neg hex
        have hnew' : b'.joins (erase (.connect link id')) = [⟨(), [], .online ()⟩] :=
          if_neg fun h => hex (hknown.mp h)
        rw [hnew, hnew', List.filter_cons_of_pos (by simp)]
        rfl
    · rw [if_neg (show ¬ Concerns b id (.connect link id') from hid)]
      simp only [Broker.joins]
      split_ifs with hex
      · rfl
      · simp [hid]
  | _ => simp [Broker.joins, erase]

theorem solo_next (h : Solo id b b') (x : Action ι κ τ μ) :
    Solo id (b.next x) (if Concerns b id x then b'.next (erase x) else b') := by
  unfold Solo
  rw [b.next_filter, List.map_append, accounts_next h, joins_next h]
  split_ifs with hx
  · rfl
  · rw [List.append_nil]

theorem solo_owes (h : Solo id b b') (x : Action ι κ τ μ) :
    b.owes id x = if Concerns b id x then b'.owes () (erase x) else [] := by
  have hall : b'.accounts.filter (·.id = ()) = b'.accounts := by simp
  rw [Broker.owes, Broker.owes, hall, ← h, List.flatMap_map]
  have howes : (b.accounts.filter (·.id = id)).flatMap (·.owes x) =
      (b.accounts.filter (·.id = id)).flatMap fun a => (eraseAccount a).owes (erase x) :=
    List.flatMap_congr fun a _ => owes_eq a x
  split_ifs with hx
  · exact howes
  · cases x with
    | publish topic message => exact absurd trivial hx
    | _ => simp [Account.owes]

omit [DecidableEq κ] [DecidableEq τ] in
theorem solo_pending (h : Solo id b b') : b.pending id = b'.pending () := by
  have hall : b'.accounts.filter (·.id = ()) = b'.accounts := by simp
  rw [Broker.pending, Broker.pending, hall, ← h, List.flatMap_map]
  exact List.flatMap_congr fun a _ => (eraseAccount_pending a).symm

/-- The actions that concern an identity, without names. -/
def life (id : ι) (xs : List (Action ι κ τ μ)) : List (Action Unit Unit τ μ) :=
  along (fun b x => if Concerns b id x then [erase x] else []) empty xs

theorem life_concat (id : ι) (xs : List (Action ι κ τ μ)) (x : Action ι κ τ μ) :
    life id (xs ++ [x]) = life id xs ++ if Concerns (after xs) id x then [erase x] else [] :=
  along_concat _ _ _ _

theorem solo_life (id : ι) (xs : List (Action ι κ τ μ)) : Solo id (after xs) (after (life id xs)) := by
  induction xs using List.reverseRecOn with
  | nil => rfl
  | append_singleton xs x ih =>
    have hnext := solo_next ih x
    rw [after_concat, life_concat]
    split_ifs with hx
    · rw [if_pos hx] at hnext
      rwa [after_concat]
    · rw [if_neg hx] at hnext
      rwa [List.append_nil]

/-- What is published for an identity is known from its life. -/
theorem due_life (id : ι) (xs : List (Action ι κ τ μ)) : due id xs = due () (life id xs) := by
  induction xs using List.reverseRecOn with
  | nil => rfl
  | append_singleton xs x ih =>
    have hdue : due id (xs ++ [x]) = due id xs ++ (after xs).owes id x := along_concat _ _ _ _
    have howes := solo_owes (solo_life id xs) x
    rw [hdue, ih, howes, life_concat]
    split_ifs with hx
    · exact (along_concat _ _ _ _).symm
    · rw [List.append_nil, List.append_nil]

/-- So is what has been delivered to it. -/
theorem received_life (id : ι) (xs : List (Action ι κ τ μ)) :
    received id xs = received () (life id xs) := by
  have hleft := received_append_pending id xs
  have hright := received_append_pending () (life id xs)
  rw [due_life, ← hright, solo_pending (solo_life id xs)] at hleft
  exact List.append_cancel_right hleft

/-- Two identities with the same life have the same account, up to names. -/
theorem account_life {ι' κ' : Type*} [DecidableEq ι'] [DecidableEq κ'] {xs : List (Action ι κ τ μ)}
    {ys : List (Action ι' κ' τ μ)} {a : Account ι κ τ μ} {a' : Account ι' κ' τ μ}
    (ha : a ∈ (after xs).accounts) (ha' : a' ∈ (after ys).accounts)
    (h : life a.id xs = life a'.id ys) : eraseAccount a = eraseAccount a' := by
  have hleft := solo_life a.id xs
  have hright := solo_life a'.id ys
  rw [h] at hleft
  have hmem : eraseAccount a ∈ (after (life a'.id ys)).accounts := by
    rw [← hleft]
    exact List.mem_map_of_mem (List.mem_filter.mpr ⟨ha, by simp⟩)
  have hmem' : eraseAccount a' ∈ (after (life a'.id ys)).accounts := by
    rw [← hright]
    exact List.mem_map_of_mem (List.mem_filter.mpr ⟨ha', by simp⟩)
  exact (after (life a'.id ys)).unique hmem hmem' rfl

end Brokers

end TopicBroker.Lives
