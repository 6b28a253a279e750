/-
# The bandwidth window of a peer

`doro-util/src/collection.rs` and `TimeFixeQueue` of
`doro/src/bt/base_peer/rate_control/probe.rs`: the last `limit` measurements of a peer's
bandwidth, each with the time it was taken at, and a running sum of them.

A measurement leaves the window by expiring, in a loop over the front, or by being pushed out
when a new one comes in, and each way takes it off the sum.  What is proved: the sum is the sum
of what is in the window, whatever the clock reads (`Window.step`, `window_sum`).
-/
import Dorodoro.CheckedRun
import Mathlib.Data.Nat.Basic

open Checked

namespace BandwidthWindow

/-! ## A queue of bounded length -/

/-- `FixedQueue`. -/
structure FixedQueue (α : Type*) where
  queue : List α
  limit : ℕ
  deriving DecidableEq

namespace FixedQueue

variable {α : Type*}

/-- `FixedQueue::new`. -/
def new (limit : ℕ) : FixedQueue α := ⟨[], limit⟩

/-- `FixedQueue::push`: a full queue gives up its front. -/
def push (q : FixedQueue α) (item : α) : FixedQueue α × Option α :=
  if q.queue.length = q.limit then (⟨q.queue.tail ++ [item], q.limit⟩, q.queue.head?)
  else (⟨q.queue ++ [item], q.limit⟩, none)

/-- A push loses nothing: the front it returns and the new queue are the old queue and the item. -/
theorem push_eq (q : FixedQueue α) (item : α) :
    (q.push item).2.toList ++ (q.push item).1.queue = q.queue ++ [item] := by
  unfold push
  split
  · cases q.queue with
    | nil => rfl
    | cons x xs => rfl
  · rfl

@[simp] theorem push_limit (q : FixedQueue α) (item : α) : (q.push item).1.limit = q.limit := by
  unfold push
  split <;> rfl

/-- A queue that is not over its limit stays so. -/
theorem length_push_le {q : FixedQueue α} (hpos : 0 < q.limit) (h : q.queue.length ≤ q.limit)
    (item : α) : (q.push item).1.queue.length ≤ q.limit := by
  unfold push
  split
  · next hfull =>
      rw [List.length_append, List.length_tail, List.length_singleton]
      omega
  · next hroom =>
      rw [List.length_append, List.length_singleton]
      omega

end FixedQueue

/-! ## The window -/

/-- A measurement: the bandwidth and the time it was taken at, in milliseconds. -/
abbrev Item := ℕ × ℕ

/-- `UPDATE_INTERVAL`. -/
def updateInterval : ℕ := 1000

/-- `TimeFixeQueue`. -/
structure TimeFixeQueue where
  queue : FixedQueue Item
  sum : ℕ
  deriving DecidableEq

/-- The loop of `TimeFixeQueue::expires` over the items and the sum: one item after the other
leaves at the front as long as it is too old. -/
def expireFront (limit now : ℕ) : List Item → ℕ → Except Fault (List Item × ℕ)
  | [], sum => .ok ([], sum)
  | x :: xs, sum =>
      (mul 64 updateInterval limit).bind fun kept =>
        (add 64 x.2 kept).bind fun until' =>
          if until' < now then (sub sum x.1).bind fun sum' => expireFront limit now xs sum'
          else .ok (x :: xs, sum)

namespace TimeFixeQueue

/-- `TimeFixeQueue::new`. -/
def new (size : ℕ) : TimeFixeQueue := ⟨.new size, 0⟩

/-- `TimeFixeQueue::expires`, the clock reading `now`. -/
def expires (w : TimeFixeQueue) (now : ℕ) : Except Fault TimeFixeQueue :=
  (expireFront w.queue.limit now w.queue.queue w.sum).map fun r => ⟨⟨r.1, w.queue.limit⟩, r.2⟩

/-- `TimeFixeQueue::push`. -/
def push (w : TimeFixeQueue) (item : Item) (now : ℕ) : Except Fault TimeFixeQueue :=
  (w.expires now).bind fun w =>
    (add 64 w.sum item.1).bind fun sum =>
      match w.queue.push item with
      | (queue, some x) => (sub sum x.1).map fun sum' => ⟨queue, sum'⟩
      | (queue, none) => .ok ⟨queue, sum⟩

/-- `TimeFixeQueue::sum`. -/
def getSum (w : TimeFixeQueue) (now : ℕ) : Except Fault (TimeFixeQueue × ℕ) :=
  (w.expires now).map fun w => (w, w.sum)

/-- `TimeFixeQueue::avg`. -/
def avg (w : TimeFixeQueue) (now : ℕ) : Except Fault (TimeFixeQueue × ℕ) :=
  (w.expires now).bind fun w => (div w.sum w.queue.limit).map fun a => (w, a)

end TimeFixeQueue

/-- A call of the window, with what the clock reads during it. -/
inductive Call where
  | push (item : Item) (now : ℕ)
  | sum (now : ℕ)
  | avg (now : ℕ)
  deriving DecidableEq

/-- What a call leaves behind. -/
def step (w : TimeFixeQueue) : Call → Except Fault TimeFixeQueue
  | .push item now => w.push item now
  | .sum now => (w.getSum now).map Prod.fst
  | .avg now => (w.avg now).map Prod.fst

/-! ## The sum of the items -/

/-- The bandwidths of the items, added up. -/
def total (xs : List Item) : ℕ := (xs.map Prod.fst).sum

@[simp] theorem total_nil : total [] = 0 := rfl

@[simp] theorem total_cons (x : Item) (xs : List Item) : total (x :: xs) = x.1 + total xs := by
  rw [total, List.map_cons, List.sum_cons]
  rfl

@[simp] theorem total_append (xs ys : List Item) : total (xs ++ ys) = total xs + total ys := by
  rw [total, List.map_append, List.sum_append]
  rfl

/-- An item in the ranges of its types, taken before the clock runs over. -/
def InRange (x : Item) : Prop := x.1 < 2 ^ 32 ∧ x.2 < 2 ^ 63

theorem total_le {xs : List Item} (h : ∀ x ∈ xs, InRange x) : total xs ≤ xs.length * (2 ^ 32 - 1) := by
  induction xs with
  | nil => exact Nat.zero_le _
  | cons x xs ih =>
      have hx : x.1 < 2 ^ 32 := (h x List.mem_cons_self).1
      have hxs := ih fun y hy => h y (List.mem_cons_of_mem x hy)
      rw [total_cons, List.length_cons]
      omega

/-- An item that is out of the window when the clock reads `now`. -/
def expired (limit now : ℕ) (x : Item) : Bool := x.2 + updateInterval * limit < now

/-- The limits for which the sum of a full window and one more item has a place in 64 bits. -/
def Fits (limit : ℕ) : Prop := 1 ≤ limit ∧ (limit + 1) * 2 ^ 32 < 2 ^ 64

/-- **Expiry.**  The loop takes the expired items at the front, and the sum stays the sum of what
is left. -/
theorem expireFront_eq {limit : ℕ} (hlimit : Fits limit) (now : ℕ) {xs : List Item}
    (h : ∀ x ∈ xs, InRange x) :
    expireFront limit now xs (total xs) =
      .ok (xs.dropWhile (expired limit now), total (xs.dropWhile (expired limit now))) := by
  induction xs with
  | nil => rfl
  | cons x xs ih =>
      have hx : x.2 < 2 ^ 63 := (h x List.mem_cons_self).2
      have hlt : limit < 2 ^ 32 := by
        unfold Fits at hlimit
        omega
      have hkept : mul 64 updateInterval limit = .ok (updateInterval * limit) :=
        mul_eq_ok.mpr ⟨by unfold updateInterval; omega, rfl⟩
      have huntil : add 64 x.2 (updateInterval * limit) = .ok (x.2 + updateInterval * limit) :=
        add_eq_ok.mpr ⟨by unfold updateInterval; omega, rfl⟩
      have hsub : sub (total (x :: xs)) x.1 = .ok (total xs) := by
        rw [sub_eq_ok, total_cons]
        exact ⟨Nat.le_add_right _ _, Nat.add_sub_cancel_left _ _⟩
      rw [expireFront, hkept]
      show (add 64 x.2 (updateInterval * limit)).bind _ = _
      rw [huntil]
      show (if x.2 + updateInterval * limit < now then _ else _) = _
      by_cases hold : x.2 + updateInterval * limit < now
      · have hexp : expired limit now x = true := decide_eq_true hold
        rw [if_pos hold, hsub, List.dropWhile_cons_of_pos hexp]
        exact ih fun y hy => h y (List.mem_cons_of_mem x hy)
      · have hexp : ¬ expired limit now x = true := by
          rw [expired, decide_eq_true_eq]
          exact hold
        rw [if_neg hold, List.dropWhile_cons_of_neg hexp]

/-! ## What a window keeps -/

/-- The sum is the sum of the items, which are in range and no more than `limit`. -/
structure Sound (limit : ℕ) (w : TimeFixeQueue) : Prop where
  limit_eq : w.queue.limit = limit
  length_le : w.queue.queue.length ≤ limit
  sum_eq : w.sum = total w.queue.queue
  inRange : ∀ x ∈ w.queue.queue, InRange x

theorem sound_new (limit : ℕ) : Sound limit (.new limit) :=
  ⟨rfl, Nat.zero_le limit, rfl, fun _ hx => absurd hx List.not_mem_nil⟩

variable {limit : ℕ} {w : TimeFixeQueue}

/-- The window without its expired items. -/
def fresh (w : TimeFixeQueue) (now : ℕ) : List Item :=
  w.queue.queue.dropWhile (expired w.queue.limit now)

theorem Sound.expires (hlimit : Fits limit) (h : Sound limit w) (now : ℕ) :
    Ensures (fun w' => Sound limit w' ∧ w'.queue.queue = fresh w now) (w.expires now) := by
  obtain ⟨rfl, hlen, hsum, hrange⟩ := h
  have hsub : (fresh w now).Sublist w.queue.queue := List.dropWhile_sublist _
  rw [TimeFixeQueue.expires, hsum, expireFront_eq hlimit now hrange]
  exact ⟨_, rfl, ⟨rfl, hsub.length_le.trans hlen, rfl, fun x hx => hrange x (hsub.subset hx)⟩, rfl⟩

/-- **Push.**  The item comes in before the front goes out, and the sum in between still fits. -/
theorem Sound.push (hlimit : Fits limit) (h : Sound limit w) {item : Item} (hitem : InRange item)
    (now : ℕ) : Ensures (Sound limit) (w.push item now) := by
  obtain ⟨w', hw', h', -⟩ := h.expires hlimit now
  apply ensures_bind_of_eq_ok hw'
  have hle : total w'.queue.queue ≤ limit * (2 ^ 32 - 1) :=
    (total_le h'.inRange).trans (Nat.mul_le_mul_right _ h'.length_le)
  have hadd : w'.sum + item.1 < 2 ^ 64 := by
    have hfit := hlimit.2
    have hbw := hitem.1
    rw [h'.sum_eq]
    omega
  have hall := w'.queue.push_eq item
  have hlen := FixedQueue.length_push_le (h'.limit_eq ▸ hlimit.1) (h'.limit_eq ▸ h'.length_le) item
  have hkeep := w'.queue.push_limit item
  rw [ensures_bind, ensures_add]
  refine ⟨hadd, ?_⟩
  generalize w'.queue.push item = pushed at hall hlen hkeep ⊢
  obtain ⟨queue, out⟩ := pushed
  replace hall : out.toList ++ queue.queue = w'.queue.queue ++ [item] := hall
  have hrange : ∀ x ∈ out.toList ++ queue.queue, InRange x := by
    intro x hx
    rcases List.mem_append.mp (hall ▸ hx) with hold | hnew
    · exact h'.inRange x hold
    · rwa [List.mem_singleton.mp hnew]
  have hsum : w'.sum + item.1 = total (out.toList ++ queue.queue) := by
    rw [hall, total_append, h'.sum_eq, total_cons, total_nil, Nat.add_zero]
  rw [h'.limit_eq] at hlen hkeep
  cases out with
  | none => exact ensures_ok.mpr ⟨hkeep, hlen, hsum, hrange⟩
  | some x =>
      have hcons : w'.sum + item.1 = x.1 + total queue.queue := hsum
      show Ensures (Sound limit) ((sub (w'.sum + item.1) x.1).map _)
      rw [ensures_map, ensures_sub, hcons, Nat.add_sub_cancel_left]
      exact ⟨Nat.le_add_right _ _, hkeep, hlen, rfl, fun y hy => hrange y (List.mem_cons_of_mem x hy)⟩

/-- **What `sum` and `avg` return**: the sum of the items that have not expired, and that sum
divided by the limit. -/
theorem Sound.getSum (hlimit : Fits limit) (h : Sound limit w) (now : ℕ) :
    ∃ w', w.getSum now = .ok (w', w'.sum) ∧ Sound limit w' ∧ w'.queue.queue = fresh w now := by
  obtain ⟨w', hw', h', hfresh⟩ := h.expires hlimit now
  exact ⟨w', map_eq_ok.mpr ⟨w', hw', rfl⟩, h', hfresh⟩

theorem Sound.avg (hlimit : Fits limit) (h : Sound limit w) (now : ℕ) :
    ∃ w', w.avg now = .ok (w', w'.sum / limit) ∧ Sound limit w' ∧
      w'.queue.queue = fresh w now := by
  obtain ⟨w', hw', h', hfresh⟩ := h.expires hlimit now
  have hne : w'.queue.limit ≠ 0 := by
    rw [h'.limit_eq]
    exact Nat.one_le_iff_ne_zero.mp hlimit.1
  have hdiv : div w'.sum w'.queue.limit = .ok (w'.sum / limit) := by
    rw [div, if_neg hne, h'.limit_eq]
  exact ⟨w', bind_eq_ok.mpr ⟨w', hw', map_eq_ok.mpr ⟨_, hdiv, rfl⟩⟩, h', hfresh⟩

/-! ## Every sequence of calls -/

/-- The item of a call is in range, and so is the clock. -/
def Call.InRange : Call → Prop
  | .push item now => BandwidthWindow.InRange item ∧ now < 2 ^ 63
  | .sum now => now < 2 ^ 63
  | .avg now => now < 2 ^ 63

/-- One call keeps the window sound. -/
theorem Sound.step (hlimit : Fits limit) (h : Sound limit w) {c : Call} (hc : c.InRange) :
    Ensures (Sound limit) (step w c) := by
  cases c with
  | push item now => exact h.push hlimit hc.1 now
  | sum now =>
      obtain ⟨w', hw', hsound, -⟩ := h.getSum hlimit now
      exact ensures_map.mpr ⟨_, hw', hsound⟩
  | avg now =>
      obtain ⟨w', hw', hsound, -⟩ := h.avg hlimit now
      exact ensures_map.mpr ⟨_, hw', hsound⟩

/-- The calls of a window, from `TimeFixeQueue::new(limit)`. -/
def run (limit : ℕ) (calls : List Call) : Except Fault TimeFixeQueue :=
  runAll step (.new limit) calls

theorem run_sound (hlimit : Fits limit) {calls : List Call} (h : ∀ c ∈ calls, c.InRange) :
    Ensures (Sound limit) (run limit calls) := by
  refine runAll_ensures (I := fun _ => Sound limit) (P := fun calls => ∀ c ∈ calls, c.InRange)
    (sound_new limit) ?_ ?_ calls h
  · intro past c hok x hx
    exact hok x (List.mem_append_left [c] hx)
  · intro past w c hw hok
    exact hw.step hlimit (hok c (List.mem_append_right past List.mem_cons_self))

/-- **The sum of the window.**  Behind every sequence of calls, and however the clock jumps, the
sum is the sum of the bandwidths in the window, the window holds at most `limit` items, and the
next `sum` and `avg` return that sum and that sum divided by the limit, of the items that have not
expired by then.  No subtraction underflowed on the way. -/
theorem window_sum (limit : ℕ) (hpos : 1 ≤ limit) (hfit : (limit + 1) * 2 ^ 32 < 2 ^ 64)
    (calls : List Call) (hcalls : ∀ c ∈ calls, c.InRange) :
    ∃ w, run limit calls = .ok w ∧ w.sum = (w.queue.queue.map Prod.fst).sum ∧
      w.queue.queue.length ≤ limit ∧
      ∀ now < 2 ^ 63,
        (∃ w', w.getSum now = .ok (w', w'.sum) ∧ w'.sum = (w'.queue.queue.map Prod.fst).sum ∧
          w'.queue.queue = fresh w now) ∧
        (∃ w', w.avg now = .ok (w', w'.sum / limit) ∧
          w'.sum = (w'.queue.queue.map Prod.fst).sum ∧ w'.queue.queue = fresh w now) := by
  have hlimit : Fits limit := ⟨hpos, hfit⟩
  obtain ⟨w, hw, h⟩ := run_sound hlimit hcalls
  refine ⟨w, hw, h.sum_eq, h.length_le, fun now _ => ⟨?_, ?_⟩⟩
  · obtain ⟨w', hw', h', hfresh⟩ := h.getSum hlimit now
    exact ⟨w', hw', h'.sum_eq, hfresh⟩
  · obtain ⟨w', hw', h', hfresh⟩ := h.avg hlimit now
    exact ⟨w', hw', h'.sum_eq, hfresh⟩

/-- A window of two items: the third one pushes the first out, and the clock that jumps ahead takes
the others. -/
theorem window_sum_two :
    ∃ w, run 2 [.push (5, 1000) 1000, .push (7, 1500) 900, .push (9, 1600) 1700, .avg 9000] = .ok w ∧
      w.sum = (w.queue.queue.map Prod.fst).sum ∧ w.queue.queue.length ≤ 2 ∧
      ∀ now < 2 ^ 63,
        (∃ w', w.getSum now = .ok (w', w'.sum) ∧ w'.sum = (w'.queue.queue.map Prod.fst).sum ∧
          w'.queue.queue = fresh w now) ∧
        (∃ w', w.avg now = .ok (w', w'.sum / 2) ∧
          w'.sum = (w'.queue.queue.map Prod.fst).sum ∧ w'.queue.queue = fresh w now) :=
  window_sum 2 (by decide) (by decide) _ (by simp [Call.InRange, InRange])

end BandwidthWindow
