/-
# Places in a concatenation of segments

A list of named segments with their lengths is read as one long sequence: place `g` of the
sequence lies in one of the segments (`locate`).  A range of places is cut into parts of
segments; the parts are right if their places, one after the other, are those of the range.

* `range_append` splits a range, `range_append_left` and `range_append_right` drop segments
  that it does not reach;
* `range_cons` is the step of an algorithm that goes through the segments from the front.
-/
import Mathlib.Data.List.Basic
import Mathlib.Data.List.Range
import Mathlib.Algebra.BigOperators.Group.List.Basic
import Mathlib.Algebra.GroupWithZero.Nat

namespace Segments

variable {α : Type*}

/-- The length of the concatenation. -/
def total (segs : List (α × ℕ)) : ℕ := (segs.map Prod.snd).sum

/-- The segment that place `g` lies in, and where in the segment. -/
def locate : List (α × ℕ) → ℕ → Option (α × ℕ)
  | [], _ => none
  | (a, n) :: segs, g => if g < n then some (a, g) else locate segs (g - n)

/-- The places of a range. -/
def range (segs : List (α × ℕ)) (first len : ℕ) : List (Option (α × ℕ)) :=
  (List.range' first len).map (locate segs)

/-- A part of a segment. -/
structure Part (α : Type*) where
  name : α
  start : ℕ
  len : ℕ

/-- The places of a part. -/
def Part.places (p : Part α) : List (Option (α × ℕ)) :=
  (List.range' p.start p.len).map fun n => some (p.name, n)

/-- The places of parts, one after the other. -/
def places (ps : List (Part α)) : List (Option (α × ℕ)) := ps.flatMap Part.places

@[simp] theorem places_nil : places ([] : List (Part α)) = [] := rfl

@[simp] theorem places_cons (p : Part α) (ps : List (Part α)) :
    places (p :: ps) = p.places ++ places ps := by
  simp [places]

@[simp] theorem length_range (segs : List (α × ℕ)) (first len : ℕ) :
    (range segs first len).length = len := by
  simp [range]

/-- The parts have as many places as their lengths say. -/
theorem length_places (ps : List (Part α)) : (places ps).length = (ps.map Part.len).sum := by
  induction ps with
  | nil => rfl
  | cons p ps ih => simp [Part.places, ih]

theorem total_cons (a : α) (n : ℕ) (segs : List (α × ℕ)) :
    total ((a, n) :: segs) = n + total segs := by
  simp [total]

/-- Every place of the concatenation lies in a segment, and no other one does. -/
theorem locate_isSome_iff {segs : List (α × ℕ)} : ∀ {g : ℕ},
    (locate segs g).isSome ↔ g < total segs := by
  induction segs with
  | nil => intro g; simp [locate, total]
  | cons s segs ih =>
      intro g
      obtain ⟨a, n⟩ := s
      rw [locate, total_cons]
      split
      · next hlt => exact iff_of_true rfl (by omega)
      · next hge =>
          rw [ih]
          omega

theorem locate_append_left {xs ys : List (α × ℕ)} : ∀ {g : ℕ}, g < total xs →
    locate (xs ++ ys) g = locate xs g := by
  induction xs with
  | nil => intro g hg; exact absurd hg (Nat.not_lt_zero g)
  | cons s xs ih =>
      intro g hg
      obtain ⟨a, n⟩ := s
      rw [total_cons] at hg
      rw [List.cons_append, locate, locate]
      split
      · rfl
      · exact ih (by omega)

theorem locate_append_right {xs ys : List (α × ℕ)} : ∀ {g : ℕ},
    locate (xs ++ ys) (total xs + g) = locate ys g := by
  induction xs with
  | nil => intro g; simp [total]
  | cons s xs ih =>
      intro g
      obtain ⟨a, n⟩ := s
      rw [total_cons, List.cons_append, locate, if_neg (by omega), Nat.add_assoc,
        Nat.add_sub_cancel_left]
      exact ih

/-- **A range in two pieces.** -/
theorem range_append (segs : List (α × ℕ)) (first m n : ℕ) :
    range segs first (m + n) = range segs first m ++ range segs (first + m) n := by
  rw [range, range, range, ← List.map_append, List.range'_append_1]

/-- A range inside a range. -/
theorem range_slice (segs : List (α × ℕ)) {first len k m : ℕ} (h : k + m ≤ len) :
    ((range segs first len).drop k).take m = range segs (first + k) m := by
  obtain ⟨r, rfl⟩ := Nat.exists_eq_add_of_le h
  rw [range_append, range_append, List.append_assoc, List.drop_left' (length_range ..),
    List.take_left' (length_range ..)]

theorem range_append_left {xs ys : List (α × ℕ)} {first len : ℕ} (h : first + len ≤ total xs) :
    range (xs ++ ys) first len = range xs first len := by
  refine List.map_congr_left fun g hg => locate_append_left ?_
  have := (List.mem_range'_1.mp hg).2
  omega

theorem range_append_right {xs ys : List (α × ℕ)} {first len : ℕ} :
    range (xs ++ ys) (total xs + first) len = range ys first len := by
  rw [range, range, ← List.map_add_range', List.map_map]
  exact List.map_congr_left fun g _ => locate_append_right

@[simp] theorem range_zero (segs : List (α × ℕ)) (first : ℕ) : range segs first 0 = [] := rfl

/-- **The first segment and the rest.**  Of a range, `m` places are in the first segment and `k`
behind it. -/
theorem range_cons {a : α} {n : ℕ} {segs : List (α × ℕ)} {first m k : ℕ}
    (hm : m = 0 ∨ first + m ≤ n) (hk : k = 0 ∨ n ≤ first + m) :
    range ((a, n) :: segs) first (m + k) =
      Part.places ⟨a, first, m⟩ ++ range segs (first + m - n) k := by
  have hleft : range ((a, n) :: segs) first m = Part.places ⟨a, first, m⟩ := by
    refine List.map_congr_left fun g hg => ?_
    have := List.mem_range'_1.mp hg
    rw [locate, if_pos (by omega)]
  have hright : range ((a, n) :: segs) (first + m) k = range segs (first + m - n) k := by
    rcases hk with rfl | hle
    · rfl
    · have h : range ([(a, n)] ++ segs) (total [(a, n)] + (first + m - n)) k = _ :=
        range_append_right
      rwa [total_cons, show n + total ([] : List (α × ℕ)) + (first + m - n) = first + m by
        simp only [total, List.map_nil, List.sum_nil]; omega] at h
  rw [range_append, hleft, hright]

end Segments
