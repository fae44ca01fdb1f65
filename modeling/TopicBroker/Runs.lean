import Mathlib.Data.List.Basic
import Mathlib.Tactic.Common

/-!
Finite runs of a transition relation that consumes inputs. A run keeps, for
every step, the state in which the step was taken and the input it consumed,
so a property of a run can speak about states and inputs alike. The invariant
rule is proved here once; functions give runs through `exec`.
-/
namespace TopicBroker.Runs

variable {σ ι : Type*}

/-- The entries of a path, oldest first, are the states left and the inputs consumed. -/
inductive Path (step : σ → ι → σ → Prop) : σ → List (σ × ι) → σ → Prop
  | refl (s : σ) : Path step s [] s
  | tail {s t u : σ} {tr : List (σ × ι)} {i : ι} :
      Path step s tr t → step t i u → Path step s (tr ++ [(t, i)]) u

variable {step : σ → ι → σ → Prop}

theorem Path.single {s t : σ} {i : ι} (h : step s i t) : Path step s [(s, i)] t := by
  simpa only [List.nil_append] using Path.tail (Path.refl s) h

theorem Path.trans {s t u : σ} {tr tr' : List (σ × ι)}
    (h : Path step s tr t) (h' : Path step t tr' u) : Path step s (tr ++ tr') u := by
  induction h' with
  | refl => simpa only [List.append_nil] using h
  | tail _ hstep ih =>
    rw [← List.append_assoc]
    exact Path.tail ih hstep

theorem Path.head {s t u : σ} {tr : List (σ × ι)} {i : ι}
    (hstep : step s i t) (h : Path step t tr u) : Path step s ((s, i) :: tr) u :=
  (Path.single hstep).trans h

/-- The invariant rule: what holds at the start and is kept by every step taken
along the path holds at its end. The property may mention the path itself. -/
theorem Path.invariant {s : σ} (P : List (σ × ι) → σ → Prop) (hinit : P [] s)
    (hstep : ∀ tr t i u, Path step s tr t → P tr t → step t i u → P (tr ++ [(t, i)]) u)
    {tr : List (σ × ι)} {t : σ} (h : Path step s tr t) : P tr t := by
  induction h with
  | refl => exact hinit
  | tail hpath hlast ih => exact hstep _ _ _ _ hpath ih hlast

/-- A path splits at any of its entries. -/
theorem Path.split {s u : σ} {pre post : List (σ × ι)} {t : σ} {i : ι}
    (h : Path step s (pre ++ (t, i) :: post) u) :
    ∃ v, Path step s pre t ∧ step t i v ∧ Path step v post u := by
  generalize htr : pre ++ (t, i) :: post = tr at h
  induction h generalizing post with
  | refl => simp at htr
  | @tail t' u' tr' i' hpath hstep ih =>
    rcases List.eq_nil_or_concat post with hnil | ⟨post', last, hlast⟩
    · subst hnil
      obtain ⟨hpre, heq⟩ := List.append_inj' htr rfl
      simp only [List.cons.injEq, Prod.mk.injEq, and_true] at heq
      obtain ⟨rfl, rfl⟩ := heq
      subst hpre
      exact ⟨u', hpath, hstep, Path.refl u'⟩
    · rw [List.concat_eq_append] at hlast
      subst hlast
      rw [← List.cons_append, ← List.append_assoc] at htr
      obtain ⟨hpre, heq⟩ := List.append_inj' htr rfl
      simp only [List.cons.injEq, and_true] at heq
      subst heq
      obtain ⟨v, hleft, hmid, hright⟩ := ih hpre
      exact ⟨v, hleft, hmid, Path.tail hright hstep⟩

section Functions

variable (f : σ → ι → Option σ)

/-- Feed a list of inputs to a partial step function. -/
def exec : σ → List ι → Option σ
  | s, [] => some s
  | s, i :: rest => (f s i).bind fun t => exec t rest

/-- The entries of the path that `exec` follows. -/
def traceOf : σ → List ι → List (σ × ι)
  | _, [] => []
  | s, i :: rest =>
    match f s i with
    | none => []
    | some t => (s, i) :: traceOf t rest

theorem path_of_exec {s t : σ} {is : List ι} (h : exec f s is = some t) :
    Path (fun a i b => f a i = some b) s (traceOf f s is) t := by
  induction is generalizing s with
  | nil =>
    simp only [exec, Option.some.injEq] at h
    subst h
    exact Path.refl s
  | cons i rest ih =>
    simp only [exec] at h
    cases hfst : f s i with
    | none => simp [hfst] at h
    | some v =>
      simp only [hfst, Option.bind_some] at h
      simp only [traceOf, hfst]
      exact Path.head hfst (ih h)

/-- The entries have the inputs that were fed. -/
theorem mem_traceOf {s : σ} {is : List ι} {e : σ × ι} (h : e ∈ traceOf f s is) : e.2 ∈ is := by
  induction is generalizing s with
  | nil => cases h
  | cons i rest ih =>
    simp only [traceOf] at h
    split at h
    · cases h
    · rcases List.mem_cons.mp h with rfl | h
      · exact List.mem_cons_self ..
      · exact List.mem_cons_of_mem i (ih h)

/-- What is computed of a run is true of some path. -/
theorem exists_path {s : σ} {is : List ι} (P : List (σ × ι) → σ → Bool)
    (h : (exec f s is).any (P (traceOf f s is)) = true) :
    ∃ tr t, Path (fun a i b => f a i = some b) s tr t ∧ P tr t = true := by
  obtain ⟨t, ht, hP⟩ := (Option.any_eq_true _ _).mp h
  exact ⟨_, t, path_of_exec f ht, hP⟩

end Functions

section Answers

variable {ε α τ : Type*}

/-- Calls one after the other, with their answers. -/
def feed (f : σ → ι → Except ε (σ × α)) : σ → List ι → Except ε (σ × List α)
  | s, [] => .ok (s, [])
  | s, i :: rest =>
    match f s i with
    | .error e => .error e
    | .ok (t, a) =>
      match feed f t rest with
      | .error e => .error e
      | .ok (u, as) => .ok (u, a :: as)

/-- Every call is made in a state that allows it. -/
def Allowed (f : σ → ι → Except ε (σ × α)) (P : σ → ι → Prop) : σ → List ι → Prop
  | _, [] => True
  | s, i :: rest => P s i ∧
    match f s i with
    | .error _ => True
    | .ok (t, _) => Allowed f P t rest

instance Allowed.decidable (f : σ → ι → Except ε (σ × α)) (P : σ → ι → Prop)
    [∀ s i, Decidable (P s i)] : ∀ s is, Decidable (Allowed f P s is)
  | _, [] => isTrue trivial
  | s, i :: rest =>
    have : Decidable (match f s i with
        | .error _ => True
        | .ok (t, _) => Allowed f P t rest) :=
      match f s i with
      | .error _ => isTrue trivial
      | .ok (t, _) => Allowed.decidable f P t rest
    inferInstanceAs (Decidable (P s i ∧ _))

/-- Where `g` answers, `f` gives the same answer; where `g` fails in a way that is
promised, `f` fails in that way too. -/
structure Follows (R : σ → τ → Prop) (promised : ε → Prop) (x : Except ε (σ × α))
    (y : Except ε (τ × α)) : Prop where
  ok : ∀ t a, y = .ok (t, a) → ∃ s, x = .ok (s, a) ∧ R s t
  error : ∀ e, promised e → y = .error e → x = .error e

/-- Refinement of calls lifts to lists of calls. -/
theorem feed_follows {f : σ → ι → Except ε (σ × α)} {g : τ → ι → Except ε (τ × α)}
    {R : σ → τ → Prop} {P : σ → ι → Prop} {promised : ε → Prop}
    (hcall : ∀ s t i, R s t → P s i → Follows R promised (f s i) (g t i)) {is : List ι} :
    ∀ {s : σ} {t : τ}, R s t → Allowed f P s is →
      Follows (fun s t => R s t) promised (feed f s is) (feed g t is) := by
  induction is with
  | nil =>
    intro s t hR _
    refine ⟨fun t' as h => ?_, fun e _ h => by cases h⟩
    cases h
    exact ⟨s, rfl, hR⟩
  | cons i rest ih =>
    intro s t hR hall
    obtain ⟨hP, hrest⟩ := hall
    have hstep := hcall s t i hR hP
    cases hg : g t i with
    | error e =>
      refine ⟨fun t' as h => ?_, fun e' he' h => ?_⟩
      · simp [feed, hg] at h
      · simp only [feed, hg, Except.error.injEq] at h
        subst h
        simp only [feed, hstep.error e he' hg]
    | ok out =>
      obtain ⟨t₁, a⟩ := out
      obtain ⟨s₁, hf, hR₁⟩ := hstep.ok t₁ a hg
      rw [hf] at hrest
      have hlater := ih hR₁ hrest
      refine ⟨fun t' as h => ?_, fun e he h => ?_⟩
      · cases hrun : feed g t₁ rest with
        | error e => simp [feed, hg, hrun] at h
        | ok out =>
          obtain ⟨t₂, as₂⟩ := out
          simp only [feed, hg, hrun, Except.ok.injEq, Prod.mk.injEq] at h
          obtain ⟨rfl, rfl⟩ := h
          obtain ⟨s₂, hfrun, hR₂⟩ := hlater.ok t₂ as₂ hrun
          exact ⟨s₂, by simp only [feed, hf, hfrun], hR₂⟩
      · cases hrun : feed g t₁ rest with
        | ok out => simp [feed, hg, hrun] at h
        | error e' =>
          simp only [feed, hg, hrun, Except.error.injEq] at h
          subst h
          simp only [feed, hf, hlater.error e' he hrun]

end Answers

end TopicBroker.Runs
