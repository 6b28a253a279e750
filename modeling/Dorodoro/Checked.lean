/-
# Operations that can fault

Integer operations and list accesses of a language that stops at a wrong operand, as
functions into `Except Fault`.

* `add`, `sub`, `mul`, `div`, `rem` and `sum` stop where the result does not exist or has no
  place in the type; `narrow` stops where a conversion would drop bits;
* `index` and `slice` stop at an index out of range, and `unwrap` where there is nothing;
* each comes with the condition under which it gives a result, and `succeeds_bind` takes a
  computation apart;
* `Ensures post x` says that `x` gives a result with the property `post`.
-/
import Mathlib.Data.List.Basic
import Mathlib.Algebra.BigOperators.Group.List.Basic
import Mathlib.Algebra.GroupWithZero.Nat

namespace Checked

/-- Why a computation stops. -/
inductive Fault where
  | divisionByZero
  | overflow
  | underflow
  | truncated
  | outOfRange
  | absent
  deriving DecidableEq

/-- `a + b` in `bits` bits. -/
def add (bits a b : ℕ) : Except Fault ℕ :=
  if a + b < 2 ^ bits then .ok (a + b) else .error .overflow

/-- `a - b`, without a sign. -/
def sub (a b : ℕ) : Except Fault ℕ := if b ≤ a then .ok (a - b) else .error .underflow

/-- `a * b` in `bits` bits. -/
def mul (bits a b : ℕ) : Except Fault ℕ :=
  if a * b < 2 ^ bits then .ok (a * b) else .error .overflow

/-- `a / b`, rounded down. -/
def div (a b : ℕ) : Except Fault ℕ := if b = 0 then .error .divisionByZero else .ok (a / b)

/-- `a % b`. -/
def rem (a b : ℕ) : Except Fault ℕ := if b = 0 then .error .divisionByZero else .ok (a % b)

/-- `a` in `bits` bits, without loss. -/
def narrow (bits a : ℕ) : Except Fault ℕ := if a < 2 ^ bits then .ok a else .error .truncated

/-- The sum of a list, added up from the front. -/
def sumFrom (bits : ℕ) : ℕ → List ℕ → Except Fault ℕ
  | acc, [] => .ok acc
  | acc, x :: xs => (add bits acc x).bind fun acc' => sumFrom bits acc' xs

/-- The sum of a list. -/
def sum (bits : ℕ) (xs : List ℕ) : Except Fault ℕ := sumFrom bits 0 xs

section Lists

variable {α : Type*}

/-- `xs[i]`. -/
def index (xs : List α) (i : ℕ) : Except Fault α :=
  match xs[i]? with
  | some x => .ok x
  | none => .error .outOfRange

/-- `xs[first..last]`. -/
def slice (xs : List α) (first last : ℕ) : Except Fault (List α) :=
  if first ≤ last ∧ last ≤ xs.length then .ok ((xs.take last).drop first) else .error .outOfRange

/-- The value that must be there. -/
def unwrap : Option α → Except Fault α
  | some a => .ok a
  | none => .error .absent

end Lists

/-! ## When an operation gives a result -/

section Results

variable {α β : Type*} {bits a b c : ℕ}

/-- The computation gives a result. -/
def Succeeds (x : Except Fault α) : Prop := ∃ r, x = .ok r

@[simp] theorem succeeds_ok (r : α) : Succeeds (.ok r) := ⟨r, rfl⟩

@[simp] theorem not_succeeds_error (e : Fault) : ¬ Succeeds (.error e : Except Fault α) := by
  rintro ⟨r, hr⟩
  cases hr

/-- Two computations in sequence give a result if the first does and the second does for it. -/
theorem bind_eq_ok {ε : Type*} {x : Except ε α} {f : α → Except ε β} {r : β} :
    x.bind f = .ok r ↔ ∃ y, x = .ok y ∧ f y = .ok r := by
  cases x with
  | error e => simp [Except.bind]
  | ok y => simp [Except.bind]

/-- The result of a computation followed by a function. -/
theorem map_eq_ok {ε : Type*} {x : Except ε α} {f : α → β} {r : β} :
    x.map f = .ok r ↔ ∃ y, x = .ok y ∧ f y = r := by
  cases x with
  | error e => simp [Except.map]
  | ok y => simp [Except.map]

/-- A computation in two parts gives a result if both parts do. -/
theorem succeeds_bind {x : Except Fault α} {f : α → Except Fault β} :
    Succeeds (x.bind f) ↔ ∃ y, x = .ok y ∧ Succeeds (f y) := by
  cases x with
  | error e => simp [Except.bind]
  | ok y => simp [Except.bind]

@[simp] theorem succeeds_map {x : Except Fault α} {f : α → β} :
    Succeeds (x.map f) ↔ Succeeds x := by
  cases x with
  | error e => simp [Except.map]
  | ok y => simp [Except.map]

/-- A result behind a check. -/
theorem ite_eq_ok {p : Prop} [Decidable p] {e : Fault} {x y : α} :
    (if p then .ok x else .error e) = (.ok y : Except Fault α) ↔ p ∧ x = y := by
  split
  · next hp => simp [hp]
  · next hp => simp [hp]

/-- A sum is the sum, and it fits. -/
@[simp] theorem add_eq_ok : add bits a b = .ok c ↔ a + b < 2 ^ bits ∧ a + b = c := ite_eq_ok

/-- A difference is the difference, and it is not negative. -/
@[simp] theorem sub_eq_ok : sub a b = .ok c ↔ b ≤ a ∧ a - b = c := ite_eq_ok

/-- A product is the product, and it fits. -/
@[simp] theorem mul_eq_ok : mul bits a b = .ok c ↔ a * b < 2 ^ bits ∧ a * b = c := ite_eq_ok

/-- A remainder is the remainder, and the divisor is not zero. -/
@[simp] theorem rem_eq_ok : rem a b = .ok c ↔ b ≠ 0 ∧ a % b = c := by
  rw [rem, ← ite_not]
  exact ite_eq_ok

/-- A narrowed number is the same number. -/
@[simp] theorem narrow_eq_ok : narrow bits a = .ok c ↔ a < 2 ^ bits ∧ a = c := ite_eq_ok

/-- The partial sums fit if the whole sum does, since they only grow. -/
theorem sumFrom_eq_ok {xs : List ℕ} : ∀ {acc : ℕ}, acc < 2 ^ bits →
    (sumFrom bits acc xs = .ok c ↔ acc + xs.sum < 2 ^ bits ∧ acc + xs.sum = c) := by
  induction xs with
  | nil =>
      intro acc hacc
      simp [sumFrom, hacc]
  | cons x xs ih =>
      intro acc hacc
      rw [sumFrom, bind_eq_ok, List.sum_cons, ← Nat.add_assoc]
      constructor
      · rintro ⟨acc', hadd, hrest⟩
        obtain ⟨hlt, rfl⟩ := add_eq_ok.mp hadd
        exact (ih hlt).mp hrest
      · rintro ⟨hlt, hc⟩
        have hfirst : acc + x < 2 ^ bits := by omega
        exact ⟨acc + x, add_eq_ok.mpr ⟨hfirst, rfl⟩, (ih hfirst).mpr ⟨hlt, hc⟩⟩

/-- A sum gives a result if the whole of it fits. -/
theorem sum_eq_ok {xs : List ℕ} : sum bits xs = .ok c ↔ xs.sum < 2 ^ bits ∧ xs.sum = c := by
  rw [sum, sumFrom_eq_ok (Nat.two_pow_pos bits), Nat.zero_add]

/-- An element is read if the index is in range. -/
theorem index_eq_ok {xs : List α} {i : ℕ} {x : α} : index xs i = .ok x ↔ xs[i]? = some x := by
  unfold index
  cases xs[i]? with
  | none => simp
  | some y => simp

/-- A slice is read if its ends are in order and in range. -/
@[simp] theorem slice_eq_ok {xs ys : List α} {first last : ℕ} :
    slice xs first last = .ok ys ↔
      (first ≤ last ∧ last ≤ xs.length) ∧ (xs.take last).drop first = ys := ite_eq_ok

/-! ## Results with a property -/

/-- The computation gives a result, and the result has the property. -/
def Ensures (post : α → Prop) (x : Except Fault α) : Prop := ∃ r, x = .ok r ∧ post r

@[simp] theorem ensures_ok {post : α → Prop} {r : α} : Ensures post (.ok r) ↔ post r := by
  simp [Ensures]

@[simp] theorem not_ensures_error {post : α → Prop} {e : Fault} : ¬ Ensures post (.error e) := by
  rintro ⟨r, hr, -⟩
  cases hr

/-- A sequence ends with the property if its second part does for the result of the first. -/
@[simp] theorem ensures_bind {post : β → Prop} {x : Except Fault α} {f : α → Except Fault β} :
    Ensures post (x.bind f) ↔ Ensures (fun y => Ensures post (f y)) x := by
  cases x with
  | error e => exact iff_of_false not_ensures_error not_ensures_error
  | ok y =>
      rw [ensures_ok]
      rfl

/-- The first part is known. -/
theorem ensures_bind_of_eq_ok {post : β → Prop} {x : Except Fault α} {y : α}
    {f : α → Except Fault β} (hx : x = .ok y) (h : Ensures post (f y)) : Ensures post (x.bind f) :=
  ensures_bind.mpr ⟨y, hx, h⟩

/-- A function after a computation moves into the property. -/
@[simp] theorem ensures_map {post : β → Prop} {x : Except Fault α} {f : α → β} :
    Ensures post (x.map f) ↔ Ensures (fun y => post (f y)) x := by
  cases x with
  | error e => exact iff_of_false not_ensures_error not_ensures_error
  | ok y =>
      rw [ensures_ok]
      exact ensures_ok

/-- A sum with a property. -/
@[simp] theorem ensures_add {post : ℕ → Prop} {bits a b : ℕ} :
    Ensures post (add bits a b) ↔ a + b < 2 ^ bits ∧ post (a + b) := by
  unfold add
  split
  · next h => simp [h]
  · next h => simp [h]

/-- A difference with a property. -/
@[simp] theorem ensures_sub {post : ℕ → Prop} {a b : ℕ} :
    Ensures post (sub a b) ↔ b ≤ a ∧ post (a - b) := by
  unfold sub
  split
  · next h => simp [h]
  · next h => simp [h]

/-- A product with a property. -/
@[simp] theorem ensures_mul {post : ℕ → Prop} {bits a b : ℕ} :
    Ensures post (mul bits a b) ↔ a * b < 2 ^ bits ∧ post (a * b) := by
  unfold mul
  split
  · next h => simp [h]
  · next h => simp [h]

/-- A value that is there, with a property. -/
@[simp] theorem ensures_unwrap {post : α → Prop} {o : Option α} :
    Ensures post (unwrap o) ↔ ∃ a, o = some a ∧ post a := by
  cases o with
  | none => simp [unwrap]
  | some a => simp [unwrap]

/-- An element with a property. -/
@[simp] theorem ensures_index {post : α → Prop} {xs : List α} {i : ℕ} :
    Ensures post (index xs i) ↔ ∃ a, xs[i]? = some a ∧ post a := by
  unfold index
  split
  · next x hx => simp [hx]
  · next hx => simp [hx]

/-- A slice with a property. -/
@[simp] theorem ensures_slice {post : List α → Prop} {xs : List α} {first last : ℕ} :
    Ensures post (slice xs first last) ↔
      (first ≤ last ∧ last ≤ xs.length) ∧ post ((xs.take last).drop first) := by
  unfold slice
  split
  · next h => simp [h]
  · next h => simp [h]

end Results

end Checked
