/-
# Labelled transition systems given by a partial step function

A system is a function `step : σ → α → Option σ`: `step s a = some s'` says that
the action `a` is enabled in `s` and leads to `s'`.  The action carries every
choice the environment makes (which task runs, what a peer sends, whether an
operation fails), so a run is a list of actions and can be executed.

* `exec step s as` runs the actions in order;
* `Run step G s as s'` is the same run as a relation, in which every step is
  taken in a state where the guard `G` holds of the action (`G = fun _ _ => True`
  for unrestricted runs);
* `resume` puts a task that was run back into a list of tasks;
* `observe step record` runs a system together with a history variable;
* `Run.invariant` is the induction rule every safety result goes through,
  `Run.invariant_observe` the same with a history, and `Run.of_exec` and `Run.of_execIf`
  turn an executed list of actions into a run.
-/
import Mathlib.Data.List.Basic
import Mathlib.Data.Option.Basic

namespace Transition

variable {σ α : Type*}

/-- A step that is enabled under a condition. -/
theorem of_ite_eq_some {p : Prop} [Decidable p] {s s' : σ}
    (h : (if p then some s else none) = some s') : p ∧ s = s' := by
  split at h
  · next hp => exact ⟨hp, Option.some.inj h⟩
  · cases h

/-- Put a task back, unless it has nothing left to do. -/
def resume {β : Type*} (code : α → List β) (t : α) (tasks : List α) : List α :=
  if (code t).isEmpty then tasks else t :: tasks

theorem mem_resume {β : Type*} {code : α → List β} {t t' : α} {tasks : List α}
    (h : t' ∈ resume code t tasks) : t' = t ∨ t' ∈ tasks := by
  unfold resume at h
  split at h
  · exact Or.inr h
  · exact List.mem_cons.mp h

/-- What is left to do. -/
theorem flatMap_resume {β : Type*} (code : α → List β) (t : α) (tasks : List α) :
    (resume code t tasks).flatMap code = code t ++ tasks.flatMap code := by
  unfold resume
  split
  · next hdone => rw [List.isEmpty_iff.mp hdone, List.nil_append]
  · rfl

/-- Execute a list of actions. -/
def exec (step : σ → α → Option σ) : σ → List α → Option σ
  | s, [] => some s
  | s, a :: as => (step s a).bind fun s' => exec step s' as

@[simp] theorem exec_nil (step : σ → α → Option σ) (s : σ) : exec step s [] = some s := rfl

@[simp] theorem exec_cons (step : σ → α → Option σ) (s : σ) (a : α) (as : List α) :
    exec step s (a :: as) = (step s a).bind fun s' => exec step s' as := rfl

theorem exec_append (step : σ → α → Option σ) (s : σ) (as bs : List α) :
    exec step s (as ++ bs) = (exec step s as).bind fun s' => exec step s' bs := by
  induction as generalizing s with
  | nil => rfl
  | cons a as ih =>
      rw [List.cons_append, exec_cons, exec_cons, Option.bind_assoc]
      congr 1
      funext s'
      exact ih s'

/-- The system with a history: `record` says what is noted at each step, from the state
before it. -/
def observe {η : Type*} (step : σ → α → Option σ) (record : σ → α → η → η) (x : σ × η) (a : α) :
    Option (σ × η) :=
  (step x.1 a).map fun s' => (s', record x.1 a x.2)

theorem observe_eq_some {η : Type*} {step : σ → α → Option σ} {record : σ → α → η → η}
    {x y : σ × η} {a : α} :
    observe step record x a = some y ↔ step x.1 a = some y.1 ∧ y.2 = record x.1 a x.2 := by
  rw [observe, Option.map_eq_some_iff]
  constructor
  · rintro ⟨s', hs, rfl⟩
    exact ⟨hs, rfl⟩
  · rintro ⟨hs, hh⟩
    exact ⟨y.1, hs, by rw [← hh]⟩

/-- `Run step G s as s'`: the actions `as` lead from `s` to `s'`, and each of them
satisfies the guard `G` in the state it is taken in. -/
inductive Run (step : σ → α → Option σ) (G : σ → α → Prop) (s₀ : σ) : List α → σ → Prop
  | refl : Run step G s₀ [] s₀
  | tail {as : List α} {s : σ} {a : α} {s' : σ} :
      Run step G s₀ as s → G s a → step s a = some s' → Run step G s₀ (as ++ [a]) s'

/-- A run with no condition on its steps. -/
abbrev FreeRun (step : σ → α → Option σ) (s₀ : σ) (as : List α) (s' : σ) : Prop :=
  Run step (fun _ _ => True) s₀ as s'

variable {step : σ → α → Option σ} {G : σ → α → Prop} {s₀ : σ}

/-- **The invariant rule.**  What holds initially and is kept by every guarded step
holds in every state of a guarded run. -/
theorem Run.invariant {I : σ → Prop} (h₀ : I s₀)
    (hstep : ∀ s a s', I s → G s a → step s a = some s' → I s') {as : List α} {s : σ}
    (h : Run step G s₀ as s) : I s := by
  induction h with
  | refl => exact h₀
  | tail _ hg hs ih => exact hstep _ _ _ ih hg hs

/-- Weaker guards allow more runs. -/
theorem Run.mono {G' : σ → α → Prop} (hG : ∀ s a, G s a → G' s a) {as : List α} {s : σ}
    (h : Run step G s₀ as s) : Run step G' s₀ as s := by
  induction h with
  | refl => exact .refl
  | tail _ hg hs ih => exact .tail ih (hG _ _ hg) hs

/-- A guarded run can be continued by a guarded run. -/
theorem Run.append {as bs : List α} {s s' : σ} (h : Run step G s₀ as s)
    (h' : Run step G s bs s') : Run step G s₀ (as ++ bs) s' := by
  induction h' with
  | refl => simpa using h
  | tail _ hg hs ih =>
      rw [← List.append_assoc]
      exact .tail ih hg hs

/-- One guarded step is a guarded run. -/
theorem Run.single {a : α} {s : σ} (hg : G s₀ a) (h : step s₀ a = some s) :
    Run step G s₀ [a] s := by
  have hrun : Run step G s₀ ([] ++ [a]) s := .tail .refl hg h
  exact hrun

/-- **The image of a run.**  When `f` takes every guarded step to a guarded step of another system,
it takes runs to runs. -/
theorem Run.map {τ : Type*} {step' : τ → α → Option τ} {G' : τ → α → Prop} (f : σ → τ)
    (hstep : ∀ s a s', G s a → step s a = some s' → G' (f s) a ∧ step' (f s) a = some (f s'))
    {as : List α} {s : σ} (h : Run step G s₀ as s) : Run step' G' (f s₀) as (f s) := by
  induction h with
  | refl => exact .refl
  | tail _ hg hs ih =>
      obtain ⟨hg', hs'⟩ := hstep _ _ _ hg hs
      exact .tail ih hg' hs'

/-- A run has a history. -/
theorem Run.observed {η : Type*} (record : σ → α → η → η) (h₀ : η) {as : List α} {s : σ}
    (h : Run step G s₀ as s) :
    ∃ h', Run (observe step record) (fun x a => G x.1 a) (s₀, h₀) as (s, h') := by
  induction h with
  | refl => exact ⟨h₀, .refl⟩
  | tail _ hg hs ih =>
      obtain ⟨h', hrun⟩ := ih
      exact ⟨_, .tail hrun hg (observe_eq_some.mpr ⟨hs, rfl⟩)⟩

/-- **The invariant rule, with a history.**  What holds initially and is kept by every guarded step
and what it notes holds of every state and its history. -/
theorem Run.invariant_observe {η : Type*} {record : σ → α → η → η} {H : σ × η → α → Prop}
    {I : σ → η → Prop} {h₀ : η} {as : List α} {s : σ} {h : η}
    (hrun : Run (observe step record) H (s₀, h₀) as (s, h)) (hinit : I s₀ h₀)
    (hstep : ∀ s h a s', I s h → H (s, h) a → step s a = some s' → I s' (record s a h)) :
    I s h := by
  refine hrun.invariant (I := fun x => I x.1 x.2) hinit ?_
  intro x a x' hI hg hs
  obtain ⟨hs, hh⟩ := observe_eq_some.mp hs
  rw [hh]
  exact hstep x.1 x.2 a x'.1 hI hg hs

/-- An executed list of actions that all satisfy the guard, in whatever state, is a
guarded run. -/
theorem Run.of_exec_guard {as : List α} {s : σ} (h : exec step s₀ as = some s)
    (hG : ∀ s a, a ∈ as → G s a) : Run step G s₀ as s := by
  induction as generalizing s₀ with
  | nil =>
      rw [exec_nil, Option.some.injEq] at h
      exact h ▸ .refl
  | cons a as ih =>
      rw [exec_cons, Option.bind_eq_some_iff] at h
      obtain ⟨s₁, h₁, hrest⟩ := h
      have hfirst : Run step G s₀ [a] s₁ := .single (hG s₀ a List.mem_cons_self) h₁
      exact hfirst.append (ih hrest fun s b hb => hG s b (List.mem_cons_of_mem a hb))

/-- An executed list of actions is a run. -/
theorem Run.of_exec {as : List α} {s : σ} (h : exec step s₀ as = some s) :
    FreeRun step s₀ as s :=
  Run.of_exec_guard h fun _ _ _ => trivial

/-- A run with a state whose view `f` was computed. -/
theorem Run.exists_of_exec {β : Type*} {f : σ → β} {as : List α} {y : β}
    (h : (exec step s₀ as).map f = some y) : ∃ s, FreeRun step s₀ as s ∧ f s = y := by
  obtain ⟨s, hs, hy⟩ := Option.map_eq_some_iff.mp h
  exact ⟨s, .of_exec hs, hy⟩

/-- Execute a list of actions as long as the guard holds. -/
def execIf (step : σ → α → Option σ) (G : σ → α → Prop) [∀ s a, Decidable (G s a)] :
    σ → List α → Option σ
  | s, [] => some s
  | s, a :: as => if G s a then (step s a).bind fun s' => execIf step G s' as else none

/-- A list of actions executed under a guard is a guarded run. -/
theorem Run.of_execIf [∀ s a, Decidable (G s a)] {as : List α} {s : σ}
    (h : execIf step G s₀ as = some s) : Run step G s₀ as s := by
  induction as generalizing s₀ with
  | nil =>
      rw [execIf, Option.some.injEq] at h
      exact h ▸ .refl
  | cons a as ih =>
      rw [execIf] at h
      split at h
      · next hg =>
          obtain ⟨s₁, h₁, hrest⟩ := Option.bind_eq_some_iff.mp h
          have hfirst : Run step G s₀ [a] s₁ := .single hg h₁
          exact hfirst.append (ih hrest)
      · cases h

/-- A guarded run with a state whose view `f` was computed. -/
theorem Run.exists_of_execIf [∀ s a, Decidable (G s a)] {β : Type*} {f : σ → β} {as : List α}
    {y : β} (h : (execIf step G s₀ as).map f = some y) : ∃ s, Run step G s₀ as s ∧ f s = y := by
  obtain ⟨s, hs, hy⟩ := Option.map_eq_some_iff.mp h
  exact ⟨s, .of_execIf hs, hy⟩

end Transition
