/-
# Counting in a list that changes

A list in which one element was replaced is, up to order, the new element and the others, and
counts over the list change accordingly.  A `filter` changes a count by what it takes out.  The
last two lemmas say when the least value over a list lies within or above a bound.
-/
import Mathlib.Data.List.Perm.Basic
import Mathlib.Order.MinMax

namespace Counting

variable {α : Type*} {l : List α} {i : ℕ} {x : α}

/-- An element and the others. -/
theorem cons_eraseIdx_perm (h : l[i]? = some x) : (x :: l.eraseIdx i).Perm l := by
  obtain ⟨hlt, rfl⟩ := List.getElem?_eq_some_iff.mp h
  exact List.getElem_cons_eraseIdx_perm hlt

/-- A changed element and the others. -/
theorem cons_eraseIdx_perm_modify (h : l[i]? = some x) (f : α → α) :
    (f x :: l.eraseIdx i).Perm (l.modify i f) := by
  have hat : (l.modify i f)[i]? = some (f x) := by
    rw [List.getElem?_modify_eq, h]
    rfl
  have hp := cons_eraseIdx_perm hat
  rwa [List.eraseIdx_modify_of_eq] at hp

theorem mem_or_eq_of_mem_modify {f : α → α} {y : α} (h : y ∈ l.modify i f) :
    y ∈ l ∨ ∃ x, l[i]? = some x ∧ y = f x := by
  obtain ⟨j, hj⟩ := List.mem_iff_getElem?.mp h
  rw [List.getElem?_modify] at hj
  obtain ⟨x, hx, rfl⟩ := Option.map_eq_some_iff.mp hj
  split
  · next hij => exact Or.inr ⟨x, hij ▸ hx, rfl⟩
  · exact Or.inl (List.mem_of_getElem? hx)

theorem countP_cons_toNat (p : α → Bool) (x : α) (l : List α) :
    (x :: l).countP p = l.countP p + (p x).toNat := by
  rw [List.countP_cons]
  cases p x <;> rfl

theorem count_cons_toNat [BEq α] [LawfulBEq α] (x y : α) (l : List α) :
    (x :: l).count y = l.count y + (x == y).toNat :=
  countP_cons_toNat (· == y) x l

theorem count_erase_toNat [BEq α] [LawfulBEq α] (h : x ∈ l) (y : α) :
    (l.erase x).count y + (x == y).toNat = l.count y := by
  rw [(List.perm_cons_erase h).count_eq y, count_cons_toNat]

/-- What is not counted is not taken out. -/
theorem filter_bne_of_countP_eq_zero {β : Type*} [BEq β] {f : α → β} {b : β}
    (h : l.countP (fun y => f y == b) = 0) : (l.filter fun y => f y != b) = l := by
  rw [List.filter_eq_self]
  intro y hy
  have hne : ¬ (f y == b) = true := List.countP_eq_zero.mp h y hy
  rw [bne, Bool.eq_false_iff.mpr hne]
  rfl

/-- **Counting after a change.** -/
theorem countP_modify (h : l[i]? = some x) (f : α → α) (p : α → Bool) :
    (l.modify i f).countP p + (p x).toNat = l.countP p + (p (f x)).toNat := by
  rw [← (cons_eraseIdx_perm h).countP_eq p, ← (cons_eraseIdx_perm_modify h f).countP_eq p,
    countP_cons_toNat, countP_cons_toNat]
  omega

/-- Taking out what is not counted leaves the count. -/
theorem countP_filter_of_imp {p q : α → Bool} (h : ∀ y ∈ l, q y = false → p y = false) :
    (l.filter q).countP p = l.countP p := by
  rw [List.countP_filter]
  apply List.countP_congr
  intro y hy
  cases hq : q y with
  | true => simp
  | false => simp [h y hy hq]

/-- Taking out the only element that is counted. -/
theorem countP_filter_of_le_one {p q : α → Bool} {y : α} (hy : y ∈ l) (hp : p y = true)
    (hq : q y = false) (hle : l.countP p ≤ 1) :
    (l.filter q).countP p = 0 ∧ l.countP p = 1 := by
  have hsplit := List.countP_eq_countP_filter_add l p q
  have hpos : 0 < (l.filter fun z => !q z).countP p := by
    apply List.countP_pos_iff.mpr
    exact ⟨y, List.mem_filter.mpr ⟨hy, by rw [hq]; rfl⟩, hp⟩
  omega

/-- The least value is within a bound if some value is. -/
theorem foldl_min_le_iff {β : Type*} [LinearOrder β] (f : α → β) (l : List α) {d m : β} :
    l.foldl (fun m a => min m (f a)) d ≤ m ↔ d ≤ m ∨ ∃ a ∈ l, f a ≤ m := by
  induction l generalizing d with
  | nil => simp
  | cons a l ih =>
      rw [List.foldl_cons, ih, min_le_iff, List.exists_mem_cons_iff, or_assoc]

/-- The least value is above a bound if all values are. -/
theorem le_foldl_min_iff {β : Type*} [LinearOrder β] (f : α → β) (l : List α) {d m : β} :
    m ≤ l.foldl (fun m a => min m (f a)) d ↔ m ≤ d ∧ ∀ a ∈ l, m ≤ f a := by
  induction l generalizing d with
  | nil => simp
  | cons a l ih =>
      rw [List.foldl_cons, ih, le_min_iff, List.forall_mem_cons, and_assoc]

end Counting
