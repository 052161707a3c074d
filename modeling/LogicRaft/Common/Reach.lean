import Mathlib.Logic.Relation

/-!
# Runs of a partial step function

A machine is a partial function `step : σ → ι → Option σ`: input `a` takes `s` to `t` when
`step s a = some t` and is not possible in `s` otherwise. A run may be restricted to steps that meet
a condition `ok` on the state before the step and the input. `Reach` closes this under repetition;
`Reach.invariant` is the induction every safety result goes through. `exec` runs a list of inputs.

Two partial computations that fail together and have related results otherwise are related by
`Option.Rel`; the rules at the end take this through `bind` and `map`.
-/

namespace LogicRaft

variable {σ ι : Type*} {step : σ → ι → Option σ} {ok : σ → ι → Prop}

/-- One step of a run whose steps all meet `ok`. -/
def StepTo (step : σ → ι → Option σ) (ok : σ → ι → Prop) (s t : σ) : Prop :=
  ∃ a, ok s a ∧ step s a = some t

/-- `t` is reached from `s` by steps that all meet `ok`. -/
def Reach (step : σ → ι → Option σ) (ok : σ → ι → Prop) : σ → σ → Prop :=
  Relation.ReflTransGen (StepTo step ok)

namespace Reach

theorem refl (s : σ) : Reach step ok s s := Relation.ReflTransGen.refl

/-- One step. -/
theorem single {a : ι} {s t : σ} (hok : ok s a) (h : step s a = some t) : Reach step ok s t :=
  Relation.ReflTransGen.single ⟨a, hok, h⟩

theorem trans {s t u : σ} (h₁ : Reach step ok s t) (h₂ : Reach step ok t u) : Reach step ok s u :=
  Relation.ReflTransGen.trans h₁ h₂

/-- A property that every further step of a run keeps holds at its end. -/
theorem invariant_along {I : σ → Prop} {s : σ}
    (hstep : ∀ t a u, Reach step ok s t → I t → ok t a → step t a = some u → I u)
    {t : σ} (h : Reach step ok s t) (hs : I s) : I t := by
  induction h with
  | refl => exact hs
  | tail hrun hlast ih =>
    obtain ⟨a, hok, ha⟩ := hlast
    exact hstep _ a _ hrun ih hok ha

/-- A property that every step keeps holds at the end of every run that starts in it. -/
theorem invariant {I : σ → Prop} (hstep : ∀ s a t, I s → ok s a → step s a = some t → I t)
    {s t : σ} (h : Reach step ok s t) (hs : I s) : I t :=
  h.invariant_along (fun t a u _ => hstep t a u) hs

/-- A reflexive and transitive relation that holds across every step from an invariant state holds
across every run. -/
theorem relation {I : σ → Prop} {R : σ → σ → Prop} (hrefl : ∀ s, R s s)
    (htrans : ∀ s t u, R s t → R t u → R s u)
    (hstep : ∀ s a t, I s → ok s a → step s a = some t → I t ∧ R s t)
    {s t : σ} (h : Reach step ok s t) (hs : I s) : R s t := by
  have hIR : I t ∧ R s t := by
    induction h with
    | refl => exact ⟨hs, hrefl s⟩
    | tail _ hlast ih =>
      obtain ⟨a, hok, ha⟩ := hlast
      obtain ⟨hI, hR⟩ := hstep _ a _ ih.1 hok ha
      exact ⟨hI, htrans _ _ _ ih.2 hR⟩
  exact hIR.2

/-- A weaker condition allows more runs. -/
theorem mono {ok' : σ → ι → Prop} (himp : ∀ s a, ok s a → ok' s a) {s t : σ}
    (h : Reach step ok s t) : Reach step ok' s t := by
  induction h with
  | refl => exact Reach.refl s
  | tail _ hlast ih =>
    obtain ⟨a, hok, ha⟩ := hlast
    exact Relation.ReflTransGen.tail ih ⟨a, himp _ a hok, ha⟩

end Reach

/-- Run a list of inputs, checking the condition before each. -/
def exec (step : σ → ι → Option σ) (ok : σ → ι → Prop) [∀ s a, Decidable (ok s a)] :
    List ι → σ → Option σ
  | [], s => some s
  | a :: as, s => if ok s a then (step s a).bind (exec step ok as) else none

theorem Reach.of_exec [∀ s a, Decidable (ok s a)] {as : List ι} {s t : σ}
    (h : exec step ok as s = some t) : Reach step ok s t := by
  induction as generalizing s with
  | nil =>
    obtain rfl : s = t := by simpa [exec] using h
    exact Reach.refl s
  | cons a as ih =>
    simp only [exec] at h
    split at h
    case isTrue hok =>
      obtain ⟨u, hu, hrest⟩ := Option.bind_eq_some_iff.mp h
      exact Relation.ReflTransGen.head ⟨a, hok, hu⟩ (ih hrest)
    case isFalse => cases h

/-- A state with a decidable property at the end of a list of inputs. -/
theorem Reach.exists_of_exec [∀ s a, Decidable (ok s a)] (as : List ι) {s : σ} {P : σ → Prop}
    [DecidablePred P] (h : (exec step ok as s).any (fun t => decide (P t)) = true) :
    ∃ t, Reach step ok s t ∧ P t := by
  obtain ⟨hsome, hP⟩ := (Option.any_eq_true_iff_get _ _).mp h
  exact ⟨_, Reach.of_exec (Option.some_get hsome).symm, of_decide_eq_true hP⟩

end LogicRaft

/-! ## Two computations side by side -/

namespace Option.Rel

variable {α β γ δ : Type*} {r : α → β → Prop} {q : γ → δ → Prop} {x : Option α} {y : Option β}

theorem bind (h : Option.Rel r x y) {f : α → Option γ} {g : β → Option δ}
    (hfg : ∀ a b, r a b → Option.Rel q (f a) (g b)) : Option.Rel q (x.bind f) (y.bind g) := by
  cases h with
  | none => exact .none
  | some hab => exact hfg _ _ hab

theorem map (h : Option.Rel r x y) {f : α → γ} {g : β → δ} (hfg : ∀ a b, r a b → q (f a) (g b)) :
    Option.Rel q (x.map f) (y.map g) := by
  cases h with
  | none => exact .none
  | some hab => exact .some (hfg _ _ hab)

theorem mono (h : Option.Rel r x y) {r' : α → β → Prop} (himp : ∀ a b, r a b → r' a b) :
    Option.Rel r' x y := by
  cases h with
  | none => exact .none
  | some hab => exact .some (himp _ _ hab)

end Option.Rel
