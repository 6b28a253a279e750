/-
# Runs of steps that can fault

A component whose operations can fault is a function `step : σ → α → Except Fault σ`.

* `runAll step s as` takes the steps in order and stops at the first fault;
* `runAll_ensures` is the invariant rule: what holds at the start and is kept by every step
  holds behind every sequence, and no step of it faults;
* `Keeps step G s as` says that every step of the run is taken in a state where `G` holds of
  it; `Keeps.ensures` and `keeps_of_succeeds` turn a condition for one step into one for the
  whole run.
-/
import Dorodoro.Checked
import Mathlib.Data.List.Induction

namespace Checked

variable {σ α : Type*} {step : σ → α → Except Fault σ} {s : σ}

/-- Take the steps in order, as far as none of them faults. -/
def runAll (step : σ → α → Except Fault σ) : σ → List α → Except Fault σ
  | s, [] => .ok s
  | s, a :: as => (step s a).bind fun s' => runAll step s' as

@[simp] theorem runAll_nil (step : σ → α → Except Fault σ) (s : σ) : runAll step s [] = .ok s := rfl

@[simp] theorem runAll_cons (step : σ → α → Except Fault σ) (s : σ) (a : α) (as : List α) :
    runAll step s (a :: as) = (step s a).bind fun s' => runAll step s' as := rfl

theorem runAll_append (as bs : List α) :
    runAll step s (as ++ bs) = (runAll step s as).bind fun s' => runAll step s' bs := by
  induction as generalizing s with
  | nil => rfl
  | cons a as ih =>
      rw [List.cons_append, runAll_cons, runAll_cons]
      cases step s a with
      | error e => rfl
      | ok s' => exact ih

/-- One more step. -/
theorem runAll_concat (as : List α) (a : α) :
    runAll step s (as ++ [a]) = (runAll step s as).bind fun s' => step s' a := by
  rw [runAll_append]
  congr 1
  funext s'
  rw [runAll_cons]
  cases step s' a with
  | error e => rfl
  | ok t => rfl

/-- **The invariant rule.**  `I` relates the steps taken so far to the state, and `P` is what is
assumed of the sequence of steps. -/
theorem runAll_ensures {I : List α → σ → Prop} {P : List α → Prop} (hinit : I [] s)
    (hpast : ∀ past a, P (past ++ [a]) → P past)
    (hstep : ∀ past t a, I past t → P (past ++ [a]) → Ensures (I (past ++ [a])) (step t a))
    (as : List α) (has : P as) : Ensures (I as) (runAll step s as) := by
  induction as using List.reverseRecOn with
  | nil => exact ensures_ok.mpr hinit
  | append_singleton past a ih =>
      obtain ⟨t, hrun, ht⟩ := ih (hpast past a has)
      rw [runAll_concat, hrun]
      exact hstep past t a ht has

/-! ## Runs under a condition -/

/-- Every step of the run satisfies `G` in the state it is taken in. -/
def Keeps (step : σ → α → Except Fault σ) (G : σ → α → Prop) : σ → List α → Prop
  | _, [] => True
  | s, a :: as => G s a ∧ ∀ s', step s a = .ok s' → Keeps step G s' as

variable {G : σ → α → Prop} {I : σ → Prop}

theorem Keeps.of_append {as bs : List α} (h : Keeps step G s (as ++ bs)) : Keeps step G s as := by
  induction as generalizing s with
  | nil => trivial
  | cons a as ih => exact ⟨h.1, fun s' hs' => ih (h.2 s' hs')⟩

/-- If the condition is enough for each of the steps, and these keep `I`, it is enough for a run. -/
theorem Keeps.ensures {as : List α} (h : Keeps step G s as) (hs : I s)
    (hstep : ∀ a ∈ as, ∀ t, I t → G t a → Ensures I (step t a)) : Ensures I (runAll step s as) := by
  induction as generalizing s with
  | nil => exact ensures_ok.mpr hs
  | cons a as ih =>
      obtain ⟨s', hs', hI⟩ := hstep a List.mem_cons_self s hs h.1
      apply ensures_bind_of_eq_ok hs'
      exact ih (h.2 s' hs') hI fun b hb => hstep b (List.mem_cons_of_mem a hb)

/-- If the condition is needed for a step, it is needed for a run. -/
theorem keeps_of_succeeds (hstep : ∀ s a, Succeeds (step s a) → G s a) {as : List α}
    (h : Succeeds (runAll step s as)) : Keeps step G s as := by
  induction as generalizing s with
  | nil => trivial
  | cons a as ih =>
      obtain ⟨s', hs', hrest⟩ := succeeds_bind.mp h
      refine ⟨hstep s a ⟨s', hs'⟩, fun t ht => ih ?_⟩
      rwa [← Except.ok.inj (hs'.symm.trans ht)]

end Checked
