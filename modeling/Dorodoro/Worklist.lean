/-
# Worklists that come to an end

A worklist changes by working on one of its items, which goes away and is replaced by finitely
many others.  It comes to an end if the others are always smaller in a well-founded order
(`Relation.CutExpand`).

* `Order` is the measure of a worklist with a budget and a supply of further items;
* `acc_of_measure` is the rule by which a system with such a measure comes to an end.
-/
import Mathlib.Logic.Hydra
import Dorodoro.Counting

namespace Worklist

variable {α : Type*} {r : α → α → Prop}

/-- An item is worked on and replaced by smaller ones. -/
theorem cutExpand_of_eraseIdx {l new : List α} {i : ℕ} {a : α} (h : l[i]? = some a)
    (hnew : ∀ b ∈ new, r b a) (rest : Multiset α) :
    Relation.CutExpand r (rest + (↑new + ↑(l.eraseIdx i))) (rest + ↑l) := by
  rw [Relation.cutExpand_add_left]
  refine ⟨↑new, a, fun b hb => hnew b (Multiset.mem_coe.mp hb), ?_⟩
  have hperm : (↑(a :: l.eraseIdx i) : Multiset α) = ↑l :=
    Multiset.coe_eq_coe.mpr (Counting.cons_eraseIdx_perm h)
  rw [← hperm, ← Multiset.cons_coe, ← Multiset.singleton_add]
  rw [add_comm, ← add_assoc, add_right_comm, add_comm]

/-- The order of the measures: the budget that is left, the supply, the items, and the items that
nobody has begun with. -/
def Order (r : α → α → Prop) : ℕ × ℕ × Multiset α × ℕ → ℕ × ℕ × Multiset α × ℕ → Prop :=
  Prod.Lex (· < ·) (Prod.Lex (· < ·) (Prod.Lex (Relation.CutExpand r) (· < ·)))

theorem order_wellFounded (h : WellFounded r) : WellFounded (Order r) :=
  wellFounded_lt.prod_lex (wellFounded_lt.prod_lex (h.cutExpand.prod_lex wellFounded_lt))

/-- **The termination rule.**  A system in which every step either stops it or lowers a measure
comes to an end. -/
theorem acc_of_measure {σ β : Type*} {next : σ → σ → Prop} {lt : β → β → Prop}
    (hwf : WellFounded lt) (m : σ → β) (I Stop : σ → Prop) (hstop : ∀ s s', Stop s → ¬ next s' s)
    (hstep : ∀ s s', I s → next s' s → I s' ∧ (Stop s' ∨ lt (m s') (m s))) {s : σ} (h : I s) :
    Acc next s := by
  induction hm : m s using hwf.induction generalizing s with
  | _ n ih =>
      constructor
      intro s' hs'
      obtain ⟨hI, hstopped | hlt⟩ := hstep s s' h hs'
      · exact ⟨s', fun s'' hs'' => absurd hs'' (hstop s' s'' hstopped)⟩
      · exact ih (m s') (hm ▸ hlt) hI rfl

/-- What can go on as it is does not come to an end. -/
theorem not_acc_of_self {σ : Type*} {next : σ → σ → Prop} {s : σ} (h : next s s) :
    ¬ Acc next s := by
  intro hacc
  induction hacc with
  | intro s _ ih => exact ih s h h

end Worklist
