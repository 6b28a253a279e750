/-
# The smallest elements by a bounded heap

To find the `count` smallest elements of a sequence one may push them all on a max-heap and pop
the heap whenever it holds more than `count`.

* `MaxHeap le` is what such an algorithm relies on: a container with `push`, with a `pop` that
  removes some greatest element, and with an ascending listing;
* `MaxHeap.ofList` is one such container;
* `MaxHeap.smallest_eq`: what is left at the end is the beginning of a full sort of the sequence.

The order is total and transitive; different elements may be equal in it.
-/
import Mathlib.Data.List.Induction
import Mathlib.Data.List.Sort
import Mathlib.Data.Multiset.Sort
import Mathlib.Order.Basic

namespace BoundedHeap

variable {α : Type}

/-- A list in ascending order. -/
def Ascending (le : α → α → Prop) (l : List α) : Prop := l.Pairwise le

/-- A max-heap: its operations, the elements it holds, and what the operations do to these. -/
structure MaxHeap (le : α → α → Prop) where
  Heap : Type
  items : Heap → Multiset α
  new : Heap
  push : Heap → α → Heap
  len : Heap → ℕ
  /-- What is left after a pop. -/
  pop : Heap → Heap
  intoSortedVec : Heap → List α
  items_new : items new = 0
  items_push : ∀ h a, items (push h a) = a ::ₘ items h
  len_eq : ∀ h, len h = (items h).card
  /-- A pop of a heap that is not empty removes an element that no other exceeds. -/
  items_pop : ∀ h, items h ≠ 0 →
    ∃ m, items h = m ::ₘ items (pop h) ∧ ∀ a ∈ items h, le a m
  intoSortedVec_items : ∀ h, (intoSortedVec h : Multiset α) = items h
  ascending_intoSortedVec : ∀ h, Ascending le (intoSortedVec h)

section Sorted

variable {le : α → α → Prop}

theorem Ascending.append {l₁ l₂ : List α} (h₁ : Ascending le l₁) (h₂ : Ascending le l₂)
    (h : ∀ a ∈ l₁, ∀ b ∈ l₂, le a b) : Ascending le (l₁ ++ l₂) :=
  List.pairwise_append.mpr ⟨h₁, h₂, h⟩

end Sorted

/-! ## The algorithm -/

section Bounded

variable {le : α → α → Prop} (H : MaxHeap le) {count : ℕ}

/-- One element: pushed, and the greatest element popped when there are more than `count`. -/
def MaxHeap.offer (count : ℕ) (h : H.Heap) (a : α) : H.Heap :=
  let h := H.push h a
  if count < H.len h then H.pop h else h

/-- `Holds count xs s`: the multiset `s` is the first `count` elements of a sort of `xs`. -/
def Holds (le : α → α → Prop) (count : ℕ) (xs : List α) (s : Multiset α) : Prop :=
  ∃ l : List α, l.Perm xs ∧ Ascending le l ∧ s = (l.take count : List α)

/-- The sort that `Holds` speaks of may begin with any ascending listing of what is held. -/
theorem Holds.exists_append {xs : List α} {s : Multiset α} (h : Holds le count xs s) {l : List α}
    (hl : (l : Multiset α) = s) (hasc : Ascending le l) :
    ∃ rest, (l ++ rest).Perm xs ∧ Ascending le (l ++ rest) ∧ l = (l ++ rest).take count := by
  obtain ⟨L, hperm, hsorted, rfl⟩ := h
  have hp : l.Perm (L.take count) := Multiset.coe_eq_coe.mp hl
  refine ⟨L.drop count, ?_, ?_, ?_⟩
  · exact ((hp.append_right _).trans (List.Perm.of_eq (List.take_append_drop count L))).trans hperm
  · refine hasc.append (hsorted.sublist (List.drop_sublist count L)) fun a ha b hb => ?_
    have hsplit := hsorted
    rw [← List.take_append_drop count L] at hsplit
    exact (List.pairwise_append.mp hsplit).2.2 a (hp.mem_iff.mp ha) b hb
  · have hlen := hp.length_eq
    rw [List.length_take] at hlen
    rcases Nat.le_total count L.length with hle | hle
    · rw [List.take_left' (by omega)]
    · rw [List.drop_of_length_le hle, List.append_nil, List.take_of_length_le (by omega)]

theorem Holds.card {xs : List α} {s : Multiset α} (h : Holds le count xs s) :
    s.card = min count xs.length := by
  obtain ⟨L, hperm, -, rfl⟩ := h
  rw [Multiset.coe_card, List.length_take, hperm.length_eq]

section Total

variable [DecidableRel le] [Std.Total le] [IsTrans α le]

/-- Below the limit a new element takes its place in the sort. -/
theorem Holds.cons {xs : List α} {s : Multiset α} (h : Holds le count xs s)
    (hshort : xs.length < count) (a : α) : Holds le count (xs ++ [a]) (a ::ₘ s) := by
  obtain ⟨L, hperm, hsorted, rfl⟩ := h
  have hlen := hperm.length_eq
  have hinsert := List.perm_orderedInsert le a L
  refine ⟨L.orderedInsert le a, ?_, ?_, ?_⟩
  · calc (L.orderedInsert le a).Perm (a :: L) := hinsert
      _ |>.Perm (a :: xs) := hperm.cons a
      _ |>.Perm (xs ++ [a]) := (List.perm_append_singleton a xs).symm
  · exact List.Pairwise.orderedInsert a L hsorted
  · have hlen' := hinsert.length_eq
    rw [List.length_cons] at hlen'
    rw [List.take_of_length_le (by omega : L.length ≤ count), List.take_of_length_le (by omega),
      Multiset.cons_coe]
    exact Multiset.coe_eq_coe.mpr hinsert.symm

/-- At the limit, of a new element and those that are held the greatest goes to the rest of the
sort. -/
theorem Holds.pop {xs : List α} {s s' : Multiset α} {a m : α} (h : Holds le count xs s)
    (hfull : count ≤ xs.length) (hm : a ::ₘ s = m ::ₘ s') (hmax : ∀ b ∈ a ::ₘ s, le b m) :
    Holds le count (xs ++ [a]) s' := by
  have hcard : s'.card = count := by
    have hboth := congrArg Multiset.card hm
    rw [Multiset.card_cons, Multiset.card_cons, h.card] at hboth
    omega
  obtain ⟨L, hperm, hsorted, rfl⟩ := h
  obtain ⟨stay, rfl⟩ : ∃ stay : List α, (stay : Multiset α) = s' := Quot.exists_rep s'
  have hsplit := hsorted
  rw [← List.take_append_drop count L, Ascending, List.pairwise_append] at hsplit
  -- what stays lies below the popped element and below the old rest
  have hbelow : ∀ b ∈ stay, ∀ c ∈ m :: L.drop count, le b c := by
    intro b hb c hc
    have hbmem : b ∈ a ::ₘ (L.take count : Multiset α) := hm ▸ Multiset.mem_cons_of_mem hb
    rcases List.mem_cons.mp hc with rfl | hc
    · exact hmax b hbmem
    · rcases Multiset.mem_cons.mp (hm ▸ Multiset.mem_cons_self m _) with rfl | hmL
      · have hsame : (stay : Multiset α) = (L.take count : Multiset α) :=
          ((Multiset.cons_inj_right m).mp hm).symm
        exact hsplit.2.2 b ((Multiset.coe_eq_coe.mp hsame).mem_iff.mp hb) c hc
      · exact trans_of le (hmax b hbmem) (hsplit.2.2 m hmL c hc)
  have hsame : (m :: stay).Perm (a :: L.take count) := Multiset.coe_eq_coe.mp hm.symm
  refine ⟨stay.insertionSort le ++ (m :: L.drop count).insertionSort le, ?_, ?_, ?_⟩
  · calc (stay.insertionSort le ++ (m :: L.drop count).insertionSort le).Perm
          (stay ++ m :: L.drop count) :=
          (List.perm_insertionSort le _).append (List.perm_insertionSort le _)
      _ |>.Perm (m :: stay ++ L.drop count) := List.perm_middle
      _ |>.Perm (a :: L.take count ++ L.drop count) := hsame.append_right _
      _ |>.Perm (a :: L) := List.Perm.of_eq (by rw [List.cons_append, List.take_append_drop])
      _ |>.Perm (a :: xs) := hperm.cons a
      _ |>.Perm (xs ++ [a]) := (List.perm_append_singleton a xs).symm
  · refine Ascending.append (List.pairwise_insertionSort le _) (List.pairwise_insertionSort le _) ?_
    intro b hb c hc
    exact hbelow b ((List.perm_insertionSort le _).mem_iff.mp hb) c
      ((List.perm_insertionSort le _).mem_iff.mp hc)
  · have hlen : (stay.insertionSort le).length = count := by
      rw [List.length_insertionSort]
      exact hcard
    rw [List.take_left' hlen]
    exact Multiset.coe_eq_coe.mpr (List.perm_insertionSort le _).symm

/-- **One element more.** -/
theorem MaxHeap.holds_offer {xs : List α} {h : H.Heap} (hh : Holds le count xs (H.items h))
    (a : α) : Holds le count (xs ++ [a]) (H.items (H.offer count h a)) := by
  have hlen : H.len (H.push h a) = min count xs.length + 1 := by
    rw [H.len_eq, H.items_push, Multiset.card_cons, hh.card]
  simp only [offer, hlen]
  split
  · next hlt =>
      obtain ⟨m, hm, hmax⟩ := H.items_pop (H.push h a) (by
        rw [H.items_push]
        exact Multiset.cons_ne_zero)
      rw [H.items_push] at hm hmax
      exact hh.pop (by omega) hm hmax
  · next hnlt =>
      rw [H.items_push]
      exact hh.cons (by omega) a

/-- **A whole sequence.** -/
theorem MaxHeap.holds_foldl (count : ℕ) (xs : List α) :
    Holds le count xs (H.items (xs.foldl (H.offer count) H.new)) := by
  induction xs using List.reverseRecOn with
  | nil => exact ⟨[], List.Perm.refl _, List.Pairwise.nil, by rw [List.foldl_nil, H.items_new]; simp⟩
  | append_singleton xs a ih =>
      rw [List.foldl_append, List.foldl_cons, List.foldl_nil]
      exact H.holds_offer ih a

/-- **The smallest elements.**  The ascending listing of the bounded heap is the beginning of a
sort of the whole sequence. -/
theorem MaxHeap.smallest_eq (count : ℕ) (xs : List α) :
    ∃ l : List α, l.Perm xs ∧ Ascending le l ∧
      H.intoSortedVec (xs.foldl (H.offer count) H.new) = l.take count := by
  obtain ⟨rest, hperm, hasc, htake⟩ := (H.holds_foldl count xs).exists_append
    (H.intoSortedVec_items _) (H.ascending_intoSortedVec _)
  exact ⟨_, hperm, hasc, htake⟩

end Total

end Bounded

/-! ## A max-heap -/

/-- The elements in ascending order; a pop removes the last one. -/
def MaxHeap.ofList (le : α → α → Prop) [DecidableRel le] [Std.Total le] [IsTrans α le] :
    MaxHeap le where
  Heap := {l : List α // Ascending le l}
  items h := (h.1 : Multiset α)
  new := ⟨[], List.Pairwise.nil⟩
  push h a := ⟨h.1.orderedInsert le a, List.Pairwise.orderedInsert a h.1 h.2⟩
  len h := h.1.length
  pop h := ⟨h.1.dropLast, h.2.sublist (List.dropLast_sublist h.1)⟩
  intoSortedVec h := h.1
  items_new := rfl
  items_push h a := by
    rw [Multiset.cons_coe]
    exact Multiset.coe_eq_coe.mpr (List.perm_orderedInsert _ a h.1)
  len_eq _ := rfl
  items_pop := by
    rintro ⟨l, hl⟩ hne
    have hne : l ≠ [] := fun h => hne (by simp [h])
    have hlast := List.dropLast_append_getLast hne
    refine ⟨l.getLast hne, ?_, fun a ha => ?_⟩
    · show (l : Multiset α) = l.getLast hne ::ₘ (l.dropLast : Multiset α)
      rw [Multiset.cons_coe, Multiset.coe_eq_coe]
      calc l.Perm (l.dropLast ++ [l.getLast hne]) := List.Perm.of_eq hlast.symm
        _ |>.Perm (l.getLast hne :: l.dropLast) := List.perm_append_singleton _ _
    · have ha : a ∈ l.dropLast ++ [l.getLast hne] := by rwa [hlast]
      have hl := hl
      rw [Ascending, ← hlast, List.pairwise_append] at hl
      rcases List.mem_append.mp ha with ha | ha
      · exact hl.2.2 a ha _ (List.mem_singleton_self _)
      · rw [List.mem_singleton.mp ha]
        exact (total_of le _ _).elim id id
  intoSortedVec_items _ := rfl
  ascending_intoSortedVec h := h.2

end BoundedHeap
