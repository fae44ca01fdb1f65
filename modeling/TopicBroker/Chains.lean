import Mathlib.Data.List.Nodup

/-!
Chains of cells. `succ` tells what a cell holds and which cell is next, and is `none`
where there is no cell. A chain from a cell up to an end lists the cells on the way
with what they hold. A chain to a place without a cell is unique and has no cell twice.
-/
namespace TopicBroker.Chains

variable {α β : Type*}

inductive Chain (succ : α → Option (β × α)) : α → List (α × β) → α → Prop
  | nil (p : α) : Chain succ p [] p
  | cons {p n q : α} {x : β} {rest : List (α × β)} (hp : succ p = some (x, n))
      (hrest : Chain succ n rest q) : Chain succ p ((p, x) :: rest) q

variable {succ succ' : α → Option (β × α)} {p q r : α} {cells more : List (α × β)}

theorem chain_nil_iff : Chain succ p [] q ↔ p = q := by
  constructor
  · intro h
    cases h
    rfl
  · rintro rfl
    exact Chain.nil p

theorem chain_cons_iff {a : α} {x : β} :
    Chain succ p ((a, x) :: cells) q ↔ p = a ∧ ∃ n, succ p = some (x, n) ∧ Chain succ n cells q := by
  constructor
  · intro h
    cases h with
    | cons hp hrest => exact ⟨rfl, _, hp, hrest⟩
  · rintro ⟨rfl, n, hp, hrest⟩
    exact Chain.cons hp hrest

theorem chain_append_iff :
    Chain succ p (cells ++ more) q ↔ ∃ r, Chain succ p cells r ∧ Chain succ r more q := by
  induction cells generalizing p with
  | nil =>
    simp only [List.nil_append, chain_nil_iff, exists_eq_left']
  | cons cell rest ih =>
    obtain ⟨a, x⟩ := cell
    rw [List.cons_append, chain_cons_iff]
    constructor
    · rintro ⟨rfl, n, hp, h⟩
      obtain ⟨r, hrest, hmore⟩ := ih.mp h
      exact ⟨r, Chain.cons hp hrest, hmore⟩
    · rintro ⟨r, hcells, hmore⟩
      obtain ⟨rfl, n, hp, hrest⟩ := chain_cons_iff.mp hcells
      exact ⟨rfl, n, hp, ih.mpr ⟨r, hrest, hmore⟩⟩

/-- The last cell of a chain points at its end. -/
theorem chain_concat_iff {a : α} {x : β} :
    Chain succ p (cells ++ [(a, x)]) q ↔ Chain succ p cells a ∧ succ a = some (x, q) := by
  rw [chain_append_iff]
  constructor
  · rintro ⟨r, hcells, hlast⟩
    obtain ⟨rfl, n, ha, hend⟩ := chain_cons_iff.mp hlast
    rw [chain_nil_iff.mp hend] at ha
    exact ⟨hcells, ha⟩
  · rintro ⟨hcells, ha⟩
    exact ⟨a, hcells, Chain.cons ha (Chain.nil q)⟩

/-- A chain looks at its own cells only. -/
theorem Chain.congr (h : Chain succ p cells q) (hsame : ∀ a ∈ cells.map Prod.fst, succ' a = succ a) :
    Chain succ' p cells q := by
  induction h with
  | nil p => exact Chain.nil p
  | cons hp hrest ih =>
    refine Chain.cons ?_ (ih fun a ha => hsame a (List.mem_cons_of_mem _ ha))
    rw [hsame _ (List.mem_cons_self ..)]
    exact hp

theorem Chain.cell (h : Chain succ p cells q) {a : α} (ha : a ∈ cells.map Prod.fst) :
    succ a ≠ none := by
  induction h with
  | nil p => cases ha
  | cons hp hrest ih =>
    rcases List.mem_cons.mp ha with rfl | ha
    · rw [hp]
      exact Option.some_ne_none _
    · exact ih ha

/-- Where a chain ends, no cell is. -/
theorem Chain.eq_nil (h : Chain succ q cells q) (hend : succ q = none) : cells = [] := by
  cases h with
  | nil => rfl
  | cons hp hrest =>
    rw [hend] at hp
    cases hp

theorem Chain.start_eq_iff (h : Chain succ p cells q) (hend : succ q = none) : p = q ↔ cells = [] := by
  constructor
  · rintro rfl
    exact h.eq_nil hend
  · rintro rfl
    exact chain_nil_iff.mp h

theorem Chain.unique (h : Chain succ p cells q) (h' : Chain succ p more q) (hend : succ q = none) :
    cells = more := by
  induction h generalizing more with
  | nil p => exact (h'.eq_nil hend).symm
  | cons hp hrest ih =>
    cases h' with
    | nil =>
      rw [hend] at hp
      cases hp
    | cons hp' hrest' =>
      rw [hp] at hp'
      cases hp'
      rw [ih hrest' hend]

/-- A chain that ends never comes back to a cell: from there it would have two lengths. -/
theorem Chain.nodup (h : Chain succ p cells q) (hend : succ q = none) :
    (cells.map Prod.fst).Nodup := by
  induction h with
  | nil p => exact List.nodup_nil
  | @cons p n q x rest hp hrest ih =>
    rw [List.map_cons, List.nodup_cons]
    refine ⟨fun hmem => ?_, ih hend⟩
    obtain ⟨⟨a, y⟩, hcell, rfl⟩ := List.mem_map.mp hmem
    obtain ⟨front, back, rfl⟩ := List.append_of_mem hcell
    obtain ⟨r, _, hback⟩ := chain_append_iff.mp hrest
    have hr := (chain_cons_iff.mp hback).1
    subst hr
    have hsame := hback.unique (Chain.cons hp hrest) hend
    have hlength := congrArg List.length hsame
    simp only [List.length_cons, List.length_append] at hlength
    omega

end TopicBroker.Chains
