/-
# Operations done out of order

A list of operations is started in order, and each is done at some later time.  The
state is then the result of the operations done so far, in the order they were *done*.
When does it agree with the order they were *started* in?

`effects apply b ops` applies the operations marked as done, in the order of the list.
`effects_set` says that doing one more operation extends this by one application,
provided it commutes with the later ones that are already done; `Ordered` is the
invariant that gives the proviso when conflicting operations are done in turn.
-/
import Mathlib.Data.List.Basic

namespace Reordering

variable {α β : Type*} (apply : β → α → β)

/-- The effect of the operations that are done, in the order of the list. -/
def effects : β → List (α × Bool) → β
  | b, [] => b
  | b, (a, true) :: ops => effects (apply b a) ops
  | b, (_, false) :: ops => effects b ops

/-- Two operations may be done in either order. -/
def Commute (a c : α) : Prop := ∀ b, apply (apply b a) c = apply (apply b c) a

variable {apply}

theorem effects_append_singleton (b : β) (ops : List (α × Bool)) (a : α) :
    effects apply b (ops ++ [(a, false)]) = effects apply b ops := by
  induction ops generalizing b with
  | nil => rfl
  | cons op ops ih =>
      obtain ⟨c, done⟩ := op
      cases done with
      | true => exact ih _
      | false => exact ih _

/-- An operation that commutes with those that are done can be done first or last. -/
theorem effects_apply {ops : List (α × Bool)} {a : α}
    (h : ∀ c, (c, true) ∈ ops → Commute apply a c) (b : β) :
    effects apply (apply b a) ops = apply (effects apply b ops) a := by
  induction ops generalizing b with
  | nil => rfl
  | cons op ops ih =>
      obtain ⟨c, done⟩ := op
      have hops : ∀ c, (c, true) ∈ ops → Commute apply a c :=
        fun c hc => h c (List.mem_cons_of_mem _ hc)
      cases done with
      | true =>
          rw [effects, effects, h c List.mem_cons_self b]
          exact ih hops _
      | false => exact ih hops _

/-- **Doing one more operation.**  If it commutes with the later ones that are done, the
effect is one more application. -/
theorem effects_set {ops : List (α × Bool)} {k : ℕ} {a : α} (hk : ops[k]? = some (a, false))
    (h : ∀ j c, k < j → ops[j]? = some (c, true) → Commute apply a c) (b : β) :
    effects apply b (ops.set k (a, true)) = apply (effects apply b ops) a := by
  induction ops generalizing k b with
  | nil => simp at hk
  | cons op ops ih =>
      cases k with
      | zero =>
          rw [List.getElem?_cons_zero, Option.some.injEq] at hk
          subst hk
          rw [List.set_cons_zero, effects, effects]
          apply effects_apply
          intro c hc
          obtain ⟨j, hj⟩ := List.mem_iff_getElem?.mp hc
          exact h (j + 1) c (by omega) (by rw [List.getElem?_cons_succ]; exact hj)
      | succ k =>
          rw [List.getElem?_cons_succ] at hk
          have hops : ∀ j c, k < j → ops[j]? = some (c, true) → Commute apply a c := by
            intro j c hj hc
            exact h (j + 1) c (by omega) (by rw [List.getElem?_cons_succ]; exact hc)
          obtain ⟨c, done⟩ := op
          rw [List.set_cons_succ]
          cases done with
          | true => exact ih hk hops _
          | false => exact ih hk hops _

/-- When all operations are done, their effect is that of the whole list. -/
theorem effects_of_all {ops : List (α × Bool)} (h : ∀ op ∈ ops, op.2 = true) (b : β) :
    effects apply b ops = (ops.map Prod.fst).foldl apply b := by
  induction ops generalizing b with
  | nil => rfl
  | cons op ops ih =>
      obtain ⟨c, done⟩ := op
      have hdone : done = true := h (c, done) List.mem_cons_self
      subst hdone
      exact ih (fun op hop => h op (List.mem_cons_of_mem _ hop)) _

/-- No operation overtook an earlier one it conflicts with. -/
def Ordered (conflict : α → α → Prop) (ops : List (α × Bool)) : Prop :=
  ∀ (i j : ℕ) (a c : α), i < j → ops[i]? = some (a, false) → ops[j]? = some (c, true) → ¬ conflict a c

section Ordered

variable {conflict : α → α → Prop} {ops : List (α × Bool)}

/-- An operation that was just started has overtaken nothing. -/
theorem Ordered.append_singleton (h : Ordered conflict ops) (a : α) :
    Ordered conflict (ops ++ [(a, false)]) := by
  intro i j b c hij hi hj
  rcases Nat.lt_or_ge j ops.length with hlt | hge
  · rw [List.getElem?_append_left (by omega)] at hi hj
    exact h i j b c hij hi hj
  · rw [List.getElem?_append_right hge] at hj
    obtain ⟨_, heq⟩ := List.getElem?_eq_some_iff.mp hj
    simp at heq

/-- Doing an operation in its turn. -/
theorem Ordered.set (h : Ordered conflict ops) {k : ℕ} {a : α} (hk : ops[k]? = some (a, false))
    (hturn : ∀ i c, i < k → ops[i]? = some (c, false) → ¬ conflict c a) :
    Ordered conflict (ops.set k (a, true)) := by
  intro i j b c hij hi hj
  have hklt : k < ops.length := (List.getElem?_eq_some_iff.mp hk).1
  have hik : i ≠ k := by
    rintro rfl
    rw [List.getElem?_set_self hklt] at hi
    simp at hi
  rw [List.getElem?_set_ne (Ne.symm hik)] at hi
  by_cases hjk : j = k
  · subst hjk
    rw [List.getElem?_set_self hklt, Option.some.injEq, Prod.mk.injEq] at hj
    rw [← hj.1]
    exact hturn i b hij hi
  · rw [List.getElem?_set_ne (Ne.symm hjk)] at hj
    exact h i j b c hij hi hj

/-- In an ordered list, what has not been done yet commutes with the later operations
that are done. -/
theorem Ordered.effects_set (h : Ordered conflict ops)
    (hcomm : ∀ a c, ¬ conflict a c → Commute apply a c) {k : ℕ} {a : α}
    (hk : ops[k]? = some (a, false)) (b : β) :
    effects apply b (ops.set k (a, true)) = apply (effects apply b ops) a :=
  Reordering.effects_set hk (fun j c hj hc => hcomm a c (h k j a c hj hk hc)) b

end Ordered

end Reordering
