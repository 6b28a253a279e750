/-
# Systems that come back

Systems whose states are ordered so that a larger state can do whatever a smaller one does, perhaps
in more steps.  From a state with finitely many kinds of things in it, such a system comes to an end
in every run if and only if it does not come back: no run leads to a state, and from there to a
larger one.

* `Upward` is the condition on the order, and `Upward.follows` its consequence for runs;
* `ComesBack`, and `not_acc_of_le`: what comes back can do so for ever;
* `comesBack_of_not_acc`: an infinite run comes back, if among infinitely many states one is larger
  than an earlier one; `exists_lt_of_finite` gives this for states made of lists over finite
  alphabets (Higman's lemma).
-/
import Mathlib.Order.WellFoundedSet
import Dorodoro.Transition

namespace WellStructured

open Transition

variable {σ α : Type*} {step : σ → α → Option σ} {le : σ → σ → Prop} {s t u : σ} {as : List α}

/-- Some action leads from the second state to the first. -/
abbrev Next (step : σ → α → Option σ) (s' s : σ) : Prop := ∃ a, step s a = some s'

/-- Some action is enabled. -/
def GoesOn (step : σ → α → Option σ) (s : σ) : Prop := ∃ s', Next step s' s

/-- A run leads to a state, and from there to a larger one. -/
def ComesBack (step : σ → α → Option σ) (le : σ → σ → Prop) (s : σ) : Prop :=
  ∃ as t bs u, FreeRun step s as t ∧ FreeRun step t bs u ∧ bs ≠ [] ∧ le t u

/-- A larger state goes on, and does what a smaller one does, as long as that goes on. -/
structure Upward (step : σ → α → Option σ) (le : σ → σ → Prop) : Prop where
  goesOn : ∀ s t, le s t → GoesOn step t
  simulates : ∀ s t a s', le s t → step s a = some s' → GoesOn step s' →
    ∃ bs t', bs ≠ [] ∧ FreeRun step t bs t' ∧ le s' t'

/-- **Runs.**  A larger state follows every run of a smaller one. -/
theorem Upward.follows (hup : Upward step le) (hrun : FreeRun step s as t) (hle : le s u)
    (ht : GoesOn step t) :
    ∃ bs u', FreeRun step u bs u' ∧ le t u' ∧ (as ≠ [] → bs ≠ []) := by
  induction hrun with
  | refl => exact ⟨[], u, .refl, hle, id⟩
  | tail _ _ hstep ih =>
      obtain ⟨bs, u₀, hrun₀, hle₀, -⟩ := ih ⟨_, _, hstep⟩
      obtain ⟨cs, u', hne, hrun', hle'⟩ := hup.simulates _ _ _ _ hle₀ hstep ht
      exact ⟨bs ++ cs, u', hrun₀.append hrun', hle',
        fun _ => List.append_ne_nil_of_right_ne_nil _ hne⟩

/-- A run stays where it is, or has a step in it. -/
theorem transGen_of_run (hrun : FreeRun step s as t) :
    as = [] ∧ s = t ∨ Relation.TransGen (Next step) t s := by
  induction hrun with
  | refl => exact Or.inl ⟨rfl, rfl⟩
  | tail _ _ hstep ih =>
      right
      rcases ih with ⟨-, rfl⟩ | hrest
      · exact .single ⟨_, hstep⟩
      · exact .head ⟨_, hstep⟩ hrest

/-- **What comes back does not come to an end**: the larger state comes back to one that is larger
still. -/
theorem not_acc_of_le (hup : Upward step le) (hrun : FreeRun step s as t) (hne : as ≠ [])
    (hle : le s t) : ¬ Acc (Next step) s := by
  intro hnext
  have hacc := hnext.transGen
  clear hnext
  induction hacc generalizing t as with
  | intro s _ ih =>
      obtain ⟨bs, u, hrun', hle', hne'⟩ := hup.follows hrun hle (hup.goesOn s t hle)
      have hlater := (transGen_of_run hrun).resolve_left fun h => hne h.1
      exact ih t hlater hrun' (hne' hne) hle'

/-- The states of an infinite run, from one to a later one. -/
theorem run_of_chain {f : ℕ → σ} (hf : ∀ n, Next step (f (n + 1)) (f n)) (m k : ℕ) :
    ∃ as, FreeRun step (f m) as (f (m + k)) ∧ as.length = k := by
  induction k with
  | zero => exact ⟨[], .refl, rfl⟩
  | succ k ih =>
      obtain ⟨as, hrun, hlen⟩ := ih
      obtain ⟨a, hstep⟩ := hf (m + k)
      exact ⟨as ++ [a], .tail hrun trivial hstep, by simp [hlen]⟩

/-- **An infinite run comes back**, if among infinitely many of its states one is larger than an
earlier one. -/
theorem comesBack_of_not_acc (h : ¬ Acc (Next step) s)
    (hwqo : ∀ f : ℕ → σ, (∀ n, (∃ as, FreeRun step s as (f n)) ∧ GoesOn step (f n)) →
      ∃ m n, m < n ∧ le (f m) (f n)) : ComesBack step le s := by
  obtain ⟨f, rfl, hf⟩ := not_acc_iff_exists_descending_chain.mp h
  have hreach : ∀ n, ∃ as, FreeRun step (f 0) as (f n) := by
    intro n
    obtain ⟨as, hrun, -⟩ := run_of_chain hf 0 n
    exact ⟨as, by rwa [Nat.zero_add] at hrun⟩
  obtain ⟨m, n, hlt, hle⟩ := hwqo f fun n => ⟨hreach n, _, hf n⟩
  obtain ⟨as, hrun⟩ := hreach m
  obtain ⟨bs, hrun', hlen⟩ := run_of_chain hf m (n - m)
  rw [Nat.add_sub_cancel' hlt.le] at hrun'
  refine ⟨as, f m, bs, f n, hrun, hrun', ?_, hle⟩
  rintro rfl
  have hzero : 0 = n - m := hlen
  omega

/-- **A system comes to an end if and only if it does not come back.** -/
theorem acc_iff_not_comesBack (hup : Upward step le)
    (hwqo : ∀ f : ℕ → σ, (∀ n, (∃ as, FreeRun step s as (f n)) ∧ GoesOn step (f n)) →
      ∃ m n, m < n ∧ le (f m) (f n)) : Acc (Next step) s ↔ ¬ ComesBack step le s := by
  constructor
  · rintro hacc ⟨as, t, bs, u, hrun, hrun', hne, hle⟩
    have hacc' : Acc (Next step) t :=
      hrun.invariant hacc fun _ a _ hacc _ hstep => hacc.inv ⟨a, hstep⟩
    exact not_acc_of_le hup hrun' hne hle hacc'
  · intro hnot
    by_contra hacc
    exact hnot (comesBack_of_not_acc hacc hwqo)

/-! ## Lists over finite alphabets -/

variable {β γ κ : Type*}

theorem sublistForall₂_eq_iff {l l' : List β} : List.SublistForall₂ Eq l l' ↔ l.Sublist l' := by
  rw [List.sublistForall₂_iff, List.forall₂_eq_eq_eq]
  exact ⟨fun ⟨_, heq, hsub⟩ => heq ▸ hsub, fun hsub => ⟨l, rfl, hsub⟩⟩

/-- **Higman's lemma** over a finite alphabet: among infinitely many lists, infinitely many are
parts of the later ones. -/
theorem exists_sublist_subseq {B : Set β} (hB : B.Finite) {p : ℕ → List β}
    (hp : ∀ n, ∀ x ∈ p n, x ∈ B) :
    ∃ g : ℕ ↪o ℕ, ∀ m n, m ≤ n → (p (g m)).Sublist (p (g n)) := by
  have hwqo := Set.PartiallyWellOrderedOn.partiallyWellOrderedOn_sublistForall₂ (α := β) Eq
    hB.partiallyWellOrderedOn
  have hpre : IsPreorder (List β) (List.SublistForall₂ Eq) := ⟨⟩
  obtain ⟨g, hg⟩ := hwqo.exists_monotone_subseq hp
  exact ⟨g, fun m n hle => sublistForall₂_eq_iff.mp (hg m n hle)⟩

/-- **Two lists and a value from finite sets**: infinitely many of them come back. -/
theorem exists_lt_of_finite {B : Set β} {C : Set γ} {K : Set κ} (hB : B.Finite) (hC : C.Finite)
    (hK : K.Finite) {p : ℕ → List β} {q : ℕ → List γ} {k : ℕ → κ}
    (hp : ∀ n, ∀ x ∈ p n, x ∈ B) (hq : ∀ n, ∀ x ∈ q n, x ∈ C) (hk : ∀ n, k n ∈ K) :
    ∃ m n, m < n ∧ (p m).Sublist (p n) ∧ (q m).Sublist (q n) ∧ k m = k n := by
  obtain ⟨g, hg⟩ := exists_sublist_subseq hB hp
  obtain ⟨g', hg'⟩ := exists_sublist_subseq hC fun n => hq (g n)
  obtain ⟨m, n, hlt, heq⟩ := hK.exists_lt_map_eq_of_forall_mem fun n => hk (g (g' n))
  have hlt' : g' m < g' n := g'.strictMono hlt
  exact ⟨g (g' m), g (g' n), g.strictMono hlt', hg _ _ hlt'.le, hg' _ _ hlt.le, heq⟩

end WellStructured
