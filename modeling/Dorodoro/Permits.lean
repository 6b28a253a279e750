/-
# The permits of asynchronous tasks (`core/context.rs`)

An `AsyncSemaphore` gives back, when it is dropped, to the counter it was built with.  The two
functions that give permits out compare and increment a counter and build the permit:

* `takeAsyncTaskSemaphore` increments `async_task_count`, and so does
  `takeAsyncPeerStartSemaphore`, whose permits give back to `async_peer_start_count`;
* `Accounted` is the balance of both counters, `Inv` what holds of them in every run;
* `permits_accounted_iff` says that the counters are in balance until the first peer start, and
  `given_le` that a process gives out no more permits for peer starts than the pool has places.

A counter is a `usize` of `w` bits and wraps.  The limits are those of the configuration, which
does not change in a run.
-/
import Dorodoro.Counting
import Dorodoro.Transition

namespace Permits

/-! ## The counters -/

/-- The counters of `Context`. -/
inductive Counter where
  | asyncTaskCount
  | asyncPeerStartCount
  deriving DecidableEq

/-- A permit, with the counter it gives back to. -/
structure AsyncSemaphore where
  taskCount : Counter
  deriving DecidableEq

/-- The configuration. -/
structure Config (w : ℕ) where
  asyncTaskPoolSize : BitVec w
  asyncPeerStartPoolSize : BitVec w

/-- `ConfigInner::default`. -/
def Config.default : Config 64 := ⟨2500, 300⟩

/-- The counters and the permits that are alive. -/
structure State (w : ℕ) where
  asyncTaskCount : BitVec w
  asyncPeerStartCount : BitVec w
  permits : List AsyncSemaphore
  deriving DecidableEq

/-- `Context::init`. -/
def State.init (w : ℕ) : State w := ⟨0, 0, []⟩

variable {w : ℕ}

/-- The value of a counter. -/
def State.counter (s : State w) : Counter → BitVec w
  | .asyncTaskCount => s.asyncTaskCount
  | .asyncPeerStartCount => s.asyncPeerStartCount

/-- Write a counter. -/
def State.setCounter (s : State w) (k : Counter) (n : BitVec w) : State w :=
  match k with
  | .asyncTaskCount => { s with asyncTaskCount := n }
  | .asyncPeerStartCount => { s with asyncPeerStartCount := n }

/-- `fetch_update`: one more, below the size of the pool. -/
def State.fetchUpdate (s : State w) (k : Counter) (size : BitVec w) : Option (State w) :=
  if s.counter k < size then some (s.setCounter k (s.counter k + 1)) else none

/-- `fetch_sub`. -/
def State.fetchSub (s : State w) (k : Counter) : State w := s.setCounter k (s.counter k - 1)

/-- Give a permit out. -/
def State.new (s : State w) (k : Counter) : State w := { s with permits := ⟨k⟩ :: s.permits }

/-- `take_async_task_semaphore`. -/
def State.takeAsyncTaskSemaphore (C : Config w) (s : State w) : Option (State w) :=
  (s.fetchUpdate .asyncTaskCount C.asyncTaskPoolSize).map fun s' => s'.new .asyncTaskCount

/-- `take_async_peer_start_semaphore`. -/
def State.takeAsyncPeerStartSemaphore (C : Config w) (s : State w) : Option (State w) :=
  -- it counts where the tasks are counted, and gives back elsewhere
  (s.fetchUpdate .asyncTaskCount C.asyncPeerStartPoolSize).map fun s' =>
    s'.new .asyncPeerStartCount

/-- `AsyncSemaphore::drop`. -/
def State.drop (s : State w) (p : AsyncSemaphore) : State w :=
  { s with permits := s.permits.erase p }.fetchSub p.taskCount

/-- What the environment does. -/
inductive Act where
  | takeAsyncTask
  | takeAsyncPeerStart
  | drop (p : AsyncSemaphore)
  deriving DecidableEq

/-- The transition function. -/
def step (C : Config w) (s : State w) : Act → Option (State w)
  | .takeAsyncTask => some ((s.takeAsyncTaskSemaphore C).getD s)
  | .takeAsyncPeerStart => some ((s.takeAsyncPeerStartSemaphore C).getD s)
  | .drop p => if p ∈ s.permits then some (s.drop p) else none

/-- The history: how many permits for peer starts were given out. -/
def record (C : Config w) (s : State w) (a : Act) (given : ℕ) : ℕ :=
  match a with
  | .takeAsyncPeerStart => given + (s.takeAsyncPeerStartSemaphore C).isSome.toNat
  | _ => given

/-- The permits that are alive, of one kind. -/
def State.live (s : State w) (k : Counter) : ℕ := s.permits.count ⟨k⟩

/-- **The balance.**  A counter can wrap only where a permit is given back: `fetch_update` stays
below a limit. -/
structure Accounted (C : Config w) (s : State w) : Prop where
  tasks : s.asyncTaskCount.toNat = s.live .asyncTaskCount
  tasks_le : s.asyncTaskCount ≤ C.asyncTaskPoolSize
  starts : s.asyncPeerStartCount.toNat = s.live .asyncPeerStartCount
  starts_le : s.asyncPeerStartCount ≤ C.asyncPeerStartPoolSize
  /-- No permit that is dropped wraps its counter. -/
  noWrap : ∀ p ∈ s.permits, s.counter p.taskCount ≠ 0
  drained : s.permits = [] → s.asyncTaskCount = 0 ∧ s.asyncPeerStartCount = 0

/-! ## What a step does -/

variable {C : Config w} {s s' : State w} {a : Act} {given : ℕ} {size : BitVec w}

theorem toNat_one_of_lt {n m : BitVec w} (h : n.toNat < m.toNat) : (1 : BitVec w).toNat = 1 := by
  have hm : m.toNat < 2 ^ w := m.isLt
  show (BitVec.ofNat w 1).toNat = 1
  rw [BitVec.toNat_ofNat]
  exact Nat.mod_eq_of_lt (by omega)

/-- One more below a limit does not wrap. -/
theorem toNat_add_one_of_lt {n : BitVec w} (h : n < size) : (n + 1).toNat = n.toNat + 1 := by
  have hlt : n.toNat < size.toNat := BitVec.lt_def.mp h
  have hsize : size.toNat < 2 ^ w := size.isLt
  have hone := toNat_one_of_lt hlt
  rw [BitVec.toNat_add_of_lt (by omega), hone]

/-- One less does not wrap, unless there is nothing to take. -/
theorem toNat_sub_one {n : BitVec w} (h : 0 < n.toNat) : (n - 1).toNat = n.toNat - 1 := by
  have hzero : (0 : BitVec w).toNat = 0 := BitVec.toNat_zero
  have hone := toNat_one_of_lt (n := 0) (m := n) (by omega)
  rw [BitVec.toNat_sub_of_le (BitVec.le_def.mpr (by omega)), hone]

/-- **A permit is given out.**  Whatever it gives back to, the tasks have one more. -/
theorem new_of_take {k : Counter}
    (h : (s.fetchUpdate .asyncTaskCount size).map (fun s' => s'.new k) = some s') :
    s.asyncTaskCount.toNat < size.toNat ∧
      s'.asyncTaskCount.toNat = s.asyncTaskCount.toNat + 1 ∧
      s'.asyncPeerStartCount = s.asyncPeerStartCount ∧ s'.permits = ⟨k⟩ :: s.permits := by
  obtain ⟨s₁, h₁, rfl⟩ := Option.map_eq_some_iff.mp h
  obtain ⟨hlt, rfl⟩ := Transition.of_ite_eq_some h₁
  exact ⟨BitVec.lt_def.mp hlt, toNat_add_one_of_lt hlt, rfl, rfl⟩

/-- A permit more. -/
theorem live_of_permits {k : Counter} (h : s'.permits = ⟨k⟩ :: s.permits) :
    s'.live k = s.live k + 1 ∧ ∀ k', k' ≠ k → s'.live k' = s.live k' := by
  unfold State.live
  rw [h]
  refine ⟨List.count_cons_self, fun k' hne => List.count_cons_of_ne ?_⟩
  exact fun heq => hne (AsyncSemaphore.mk.inj heq).symm

/-- A permit less. -/
theorem live_drop {k : Counter} (h : ⟨k⟩ ∈ s.permits) :
    (s.drop ⟨k⟩).live k + 1 = s.live k ∧ ∀ k', k' ≠ k → (s.drop ⟨k⟩).live k' = s.live k' := by
  have hpermits : (s.drop ⟨k⟩).permits = s.permits.erase ⟨k⟩ := by
    cases k <;> rfl
  have hpos : 0 < s.permits.count ⟨k⟩ := List.count_pos_iff.mpr h
  unfold State.live
  rw [hpermits]
  refine ⟨?_, fun k' hne => List.count_erase_of_ne fun heq => hne (AsyncSemaphore.mk.inj heq)⟩
  rw [List.count_erase_self]
  omega

/-- No permit is given out at the limit. -/
theorem take_eq_none {k : Counter} (h : size.toNat ≤ s.asyncTaskCount.toNat) :
    (s.fetchUpdate .asyncTaskCount size).map (fun s' => s'.new k) = none := by
  have hnot : ¬ s.counter .asyncTaskCount < size := fun hlt => by
    have hlt : s.asyncTaskCount.toNat < size.toNat := BitVec.lt_def.mp hlt
    omega
  rw [State.fetchUpdate, if_neg hnot, Option.map_none]

/-! ## The invariant -/

/-- The invariant. -/
structure Inv (C : Config w) (s : State w) (given : ℕ) : Prop where
  /-- The places of the peer starts are never given back. -/
  tasks : s.asyncTaskCount.toNat = s.live .asyncTaskCount + given
  given_le : given ≤ C.asyncPeerStartPoolSize.toNat
  starts_le : s.live .asyncPeerStartCount ≤ given
  tasks_le : given = 0 → s.asyncTaskCount.toNat ≤ C.asyncTaskPoolSize.toNat
  starts : given = 0 → s.asyncPeerStartCount = 0

theorem Inv.init : Inv C (.init w) 0 :=
  ⟨rfl, Nat.zero_le _, Nat.zero_le _, fun _ => Nat.zero_le _, fun _ => rfl⟩

/-- A permit is dropped. -/
theorem Inv.drop (h : Inv C s given) {k : Counter} (hin : ⟨k⟩ ∈ s.permits) :
    Inv C (s.drop ⟨k⟩) given := by
  have htasks := h.tasks
  have hstarts := h.starts_le
  obtain ⟨hlive, hother⟩ := live_drop hin
  cases k with
  | asyncTaskCount =>
      have hcount : (s.asyncTaskCount - 1).toNat = s.asyncTaskCount.toNat - 1 :=
        toNat_sub_one (by omega)
      have hsame := hother .asyncPeerStartCount (by decide)
      constructor
      · show (s.asyncTaskCount - 1).toNat = _
        omega
      · exact h.given_le
      · omega
      · intro hzero
        have hle := h.tasks_le hzero
        show (s.asyncTaskCount - 1).toNat ≤ C.asyncTaskPoolSize.toNat
        omega
      · exact h.starts
  | asyncPeerStartCount =>
      have hsame := hother .asyncTaskCount (by decide)
      constructor
      · show s.asyncTaskCount.toNat = _
        omega
      · exact h.given_le
      · omega
      · exact h.tasks_le
      · -- there is no such permit as long as none was given out
        intro hzero
        omega

/-- **A step keeps the invariant.** -/
theorem Inv.step (h : Inv C s given) (hstep : step C s a = some s') :
    Inv C s' (record C s a given) := by
  have htasks := h.tasks
  have hstarts := h.starts_le
  cases a with
  | takeAsyncTask =>
      cases hstep
      cases htake : s.takeAsyncTaskSemaphore C with
      | none => exact h
      | some s₁ =>
          obtain ⟨hlt, hcount, hstart, hpermits⟩ := new_of_take htake
          obtain ⟨hlive, hother⟩ := live_of_permits hpermits
          have hsame := hother .asyncPeerStartCount (by decide)
          show Inv C s₁ given
          refine ⟨by omega, h.given_le, by omega, fun _ => by omega, fun hzero => ?_⟩
          rw [hstart]
          exact h.starts hzero
  | takeAsyncPeerStart =>
      cases hstep
      show Inv C _ (given + _)
      cases htake : s.takeAsyncPeerStartSemaphore C with
      | none => exact h
      | some s₁ =>
          obtain ⟨hlt, hcount, -, hpermits⟩ := new_of_take htake
          obtain ⟨hlive, hother⟩ := live_of_permits hpermits
          have hsame := hother .asyncTaskCount (by decide)
          show Inv C s₁ (given + 1)
          -- the place was free, so fewer were given out than the pool has
          refine ⟨by omega, by omega, by omega, fun hzero => ?_, fun hzero => ?_⟩
          · exact absurd hzero (Nat.succ_ne_zero given)
          · exact absurd hzero (Nat.succ_ne_zero given)
  | drop p =>
      obtain ⟨hin, rfl⟩ := Transition.of_ite_eq_some hstep
      exact h.drop hin

theorem inv_of_run {as : List Act}
    (hrun : Transition.FreeRun (Transition.observe (step C) (record C)) (.init w, 0) as
      (s, given)) : Inv C s given :=
  hrun.invariant_observe (I := Inv C) Inv.init fun _ _ _ _ h _ hs => h.step hs

/-! ## The balance -/

/-- The counters are in balance as long as no permit for a peer start was given out. -/
theorem Inv.accounted (h : Inv C s 0) : Accounted C s := by
  have htasks : s.asyncTaskCount.toNat = s.live .asyncTaskCount := h.tasks
  have hnone : s.live .asyncPeerStartCount = 0 := Nat.le_zero.mp h.starts_le
  have hzero : s.asyncPeerStartCount = 0 := h.starts rfl
  refine ⟨htasks, BitVec.le_def.mpr (h.tasks_le rfl), ?_, ?_, ?_, ?_⟩
  · rw [hzero, hnone]
    exact BitVec.toNat_zero
  · rw [hzero]
    exact BitVec.le_def.mpr (Nat.zero_le _)
  · rintro ⟨k⟩ hp hwrap
    have hpos : 0 < s.live k := List.count_pos_iff.mpr hp
    cases k with
    | asyncTaskCount =>
        have hwrap : s.asyncTaskCount = 0 := hwrap
        rw [hwrap] at htasks
        have hzero : (0 : BitVec w).toNat = 0 := BitVec.toNat_zero
        omega
    | asyncPeerStartCount => omega
  · intro hempty
    refine ⟨BitVec.eq_of_toNat_eq ?_, hzero⟩
    rw [htasks, State.live, hempty]
    exact BitVec.toNat_zero.symm

/-- **When the permits are accounted for.**  In every run, the counters are in balance exactly as
long as no permit for a peer start was given out. -/
theorem permits_accounted_iff {as : List Act}
    (hrun : Transition.FreeRun (Transition.observe (step C) (record C)) (.init w, 0) as
      (s, given)) : Accounted C s ↔ given = 0 := by
  have hinv := inv_of_run hrun
  constructor
  · intro h
    have heq := h.tasks.symm.trans hinv.tasks
    omega
  · rintro rfl
    exact hinv.accounted

/-- A task takes a permit, and another one; the first is done. -/
def taskRun : List Act := [.takeAsyncTask, .takeAsyncTask, .drop ⟨.asyncTaskCount⟩]

/-- One permit is alive, and accounted for. -/
theorem permits_accounted_tasks :
    ∃ s : State 64,
      Transition.FreeRun (Transition.observe (step .default) (record .default)) (.init 64, 0)
        taskRun (s, 0) ∧
      s.permits = [⟨.asyncTaskCount⟩] ∧ Accounted .default s := by
  have hexec : Transition.exec (Transition.observe (step .default) (record .default))
      (.init 64, 0) taskRun = some (⟨1, 0, [⟨.asyncTaskCount⟩]⟩, 0) := by decide
  exact ⟨_, .of_exec hexec, rfl, (permits_accounted_iff (.of_exec hexec)).mpr rfl⟩

/-- A peer start takes a permit and is done. -/
def startRun : List Act := [.takeAsyncPeerStart, .drop ⟨.asyncPeerStartCount⟩]

/-- No permit is alive, one task is counted, and the other counter has wrapped. -/
theorem start_unaccounted :
    ∃ s : State 64, ∃ given,
      Transition.FreeRun (Transition.observe (step .default) (record .default)) (.init 64, 0)
        startRun (s, given) ∧
      s.permits = [] ∧ s.asyncTaskCount = 1 ∧ s.asyncPeerStartCount = -1 ∧
      ¬ Accounted .default s := by
  have hexec : Transition.exec (Transition.observe (step .default) (record .default))
      (.init 64, 0) startRun = some (⟨1, -1, []⟩, 1) := by decide
  refine ⟨_, _, .of_exec hexec, rfl, rfl, rfl, ?_⟩
  intro h
  exact absurd (h.drained rfl).1 (by decide)

/-- **The peer starts run out.**  A process gives out no more permits for peer starts than the
pool has places: none comes back. -/
theorem given_le {as : List Act}
    (hrun : Transition.FreeRun (Transition.observe (step C) (record C)) (.init w, 0) as
      (s, given)) : given ≤ C.asyncPeerStartPoolSize.toNat :=
  (inv_of_run hrun).given_le

/-- After that many, no peer start gets a permit any more. -/
theorem no_start_left {as : List Act}
    (hrun : Transition.FreeRun (Transition.observe (step C) (record C)) (.init w, 0) as
      (s, given)) (hall : given = C.asyncPeerStartPoolSize.toNat) :
    s.takeAsyncPeerStartSemaphore C = none := by
  have hinv := inv_of_run hrun
  have htasks := hinv.tasks
  exact take_eq_none (by omega)

end Permits
