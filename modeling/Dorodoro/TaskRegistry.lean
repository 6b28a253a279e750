/-
# The registry of the tasks (`core/task_manager.rs`)

`TaskManager.tasks` owns the tasks that run.  `handle_task` gives a task its callback, starts it
and then inserts it; the task itself calls `finish` or `error` when it is over, anybody may call
`shutdown_task`.  These three take the task out of the registry and then run its `shutdown`.

* a task that was handed over is in one place: its start, the registry, the shutdown that is to
  run, the shutdowns that have run, or those that were aborted (`Placed`);
* `Calls` is the history: who called `finish` or `error`, which calls came after the insertion, and
  which shutdowns were aborted where they wait for a connection;
* `finished_leaves_iff` says when a finished task has left the registry.

`TaskManager::shutdown`, which ends the process, is left out.
-/
import Dorodoro.Counting
import Dorodoro.Transition
import Mathlib.Data.List.Basic

namespace TaskRegistry

/-! ## The registry -/

/-- The shared state. -/
structure State where
  nextId : ℕ
  /-- Calls of `handle_task` before the start of the task. -/
  starting : List ℕ
  /-- Calls of `handle_task` before the insertion. -/
  inserting : List ℕ
  /-- The tasks that were started. -/
  started : List ℕ
  /-- The keys of `TaskManager.tasks`. -/
  tasks : List ℕ
  /-- Tasks that were taken out and whose `shutdown` is still to run. -/
  closing : List ℕ
  /-- Tasks whose `shutdown` has run. -/
  closed : List ℕ
  deriving DecidableEq

/-- `TaskManager::init`. -/
def State.init : State := ⟨1, [], [], [], [], [], []⟩

/-- Take a task out; its `shutdown` runs when the caller goes on. -/
def State.takeTask (s : State) (id : ℕ) : State :=
  if id ∈ s.tasks then { s with tasks := s.tasks.erase id, closing := id :: s.closing } else s

/-- `TaskCallback::finish`. -/
def State.finish (s : State) (id : ℕ) : State := s.takeTask id

/-- `TaskCallback::error`. -/
def State.error (s : State) (id : ℕ) : State := s.takeTask id

/-- `shutdown_task`. -/
def State.shutdownTask (s : State) (id : ℕ) : State := s.takeTask id

/-- What the environment does. -/
inductive Act where
  /-- A call of `handle_task`: `set_callback`. -/
  | handleTask
  /-- `start`. -/
  | start (id : ℕ)
  /-- `insert`; the call returns. -/
  | insert (id : ℕ)
  /-- The task calls `finish`. -/
  | finish (id : ℕ)
  /-- The task calls `error`. -/
  | error (id : ℕ)
  | shutdownTask (id : ℕ)
  /-- The `shutdown` of a task that was taken out. -/
  | close (id : ℕ)
  /-- The caller is aborted before the `shutdown` is through. -/
  | abort (id : ℕ)
  deriving DecidableEq

/-- The transition function. -/
def step (s : State) : Act → Option State
  | .handleTask => some { s with nextId := s.nextId + 1, starting := s.nextId :: s.starting }
  | .start id =>
      if id ∈ s.starting then
        some { s with
          starting := s.starting.erase id
          inserting := id :: s.inserting
          started := id :: s.started }
      else none
  | .insert id =>
      if id ∈ s.inserting then
        some { s with
          inserting := s.inserting.erase id
          tasks := id :: s.tasks.erase id }
      else none
  -- only what was started can call back
  | .finish id => if id ∈ s.started then some (s.finish id) else none
  | .error id => if id ∈ s.started then some (s.error id) else none
  | .shutdownTask id => some (s.shutdownTask id)
  | .close id =>
      if id ∈ s.closing then
        some { s with closing := s.closing.erase id, closed := id :: s.closed }
      else none
  | .abort id => if id ∈ s.closing then some { s with closing := s.closing.erase id } else none

/-- The call of `handle_task` for the id has returned. -/
def State.Returned (s : State) (id : ℕ) : Prop :=
  0 < id ∧ id < s.nextId ∧ id ∉ s.starting ∧ id ∉ s.inserting

instance (s : State) (id : ℕ) : Decidable (s.Returned id) :=
  inferInstanceAs (Decidable (_ ∧ _ ∧ _ ∧ _))

/-! ## The history -/

/-- What was called. -/
structure Calls where
  /-- `finish` or `error`. -/
  ended : List ℕ
  /-- `finish`, `error` or `shutdown_task`, after `handle_task` returned. -/
  late : List ℕ
  /-- Shutdowns that were aborted. -/
  aborted : List ℕ
  deriving DecidableEq

/-- No calls. -/
def Calls.none : Calls := ⟨[], [], []⟩

/-- A call that takes the task out, if it is there. -/
def Calls.take (c : Calls) (s : State) (id : ℕ) : Calls :=
  if s.Returned id then { c with late := id :: c.late } else c

/-- The history of an action. -/
def record (s : State) (a : Act) (c : Calls) : Calls :=
  match a with
  | .finish id | .error id => { c.take s id with ended := id :: c.ended }
  | .shutdownTask id => c.take s id
  | .abort id => { c with aborted := id :: c.aborted }
  | _ => c

/-! ## One place for every task -/

variable {s s' : State} {a : Act} {c : Calls} {id : ℕ}

/-- A task that was handed over is in one place. -/
def Placed (s : State) (c : Calls) : Prop :=
  ∀ id, s.starting.count id + s.inserting.count id + s.tasks.count id + s.closing.count id +
    s.closed.count id + c.aborted.count id = (decide (0 < id ∧ id < s.nextId)).toNat

/-- The next id is given away. -/
theorem decide_lt_succ_toNat {n : ℕ} (h : 0 < n) (x : ℕ) :
    (decide (0 < x ∧ x < n + 1)).toNat = (decide (0 < x ∧ x < n)).toNat + (n == x).toNat := by
  by_cases heq : n = x
  · subst heq
    have hnot : ¬ (0 < n ∧ n < n) := fun hlt => Nat.lt_irrefl n hlt.2
    rw [decide_eq_true ⟨h, Nat.lt_succ_self n⟩, decide_eq_false hnot, beq_self_eq_true]
    rfl
  · have hiff : (0 < x ∧ x < n + 1) ↔ (0 < x ∧ x < n) := by omega
    have hne : (n == x) = false := beq_eq_false_iff_ne.mpr heq
    rw [decide_eq_decide.mpr hiff, hne]
    rfl

theorem placed_init : Placed .init .none := by
  intro id
  have hno : ¬ (0 < id ∧ id < State.init.nextId) := fun h => by
    have hlt : id < 1 := h.2
    omega
  rw [decide_eq_false hno]
  rfl

/-- What was called for does not matter to the places. -/
theorem Placed.take (h : Placed s c) (id : ℕ) (c' : Calls) (hc : c'.aborted = c.aborted) :
    Placed (s.takeTask id) c' := by
  unfold State.takeTask
  split
  · next hin =>
      intro x
      have hx := h x
      have herase := Counting.count_erase_toNat hin x
      have hcons := Counting.count_cons_toNat id x s.closing
      dsimp only
      rw [hc]
      omega
  · intro x
    rw [hc]
    exact h x

theorem aborted_take (c : Calls) (s : State) (id : ℕ) : (c.take s id).aborted = c.aborted := by
  unfold Calls.take
  split <;> rfl

/-- **An action moves a task from one place to the next.** -/
theorem Placed.step (h : Placed s c) (hpos : 0 < s.nextId) (hstep : step s a = some s') :
    Placed s' (record s a c) := by
  cases a with
  | handleTask =>
      cases hstep
      intro x
      have hx := h x
      have hcons := Counting.count_cons_toNat s.nextId x s.starting
      have hnext := decide_lt_succ_toNat hpos x
      dsimp only [record]
      omega
  | start id =>
      obtain ⟨hin, rfl⟩ := Transition.of_ite_eq_some hstep
      intro x
      have hx := h x
      have herase := Counting.count_erase_toNat hin x
      have hcons := Counting.count_cons_toNat id x s.inserting
      dsimp only [record]
      omega
  | insert id =>
      obtain ⟨hin, rfl⟩ := Transition.of_ite_eq_some hstep
      intro x
      have hx := h x
      have hid := h id
      have herase := Counting.count_erase_toNat hin x
      have hpos : 0 < s.inserting.count id := List.count_pos_iff.mpr hin
      have hle := Bool.toNat_le (decide (0 < id ∧ id < s.nextId))
      -- the registry does not have the id yet
      have hnot : id ∉ s.tasks := by
        rw [← List.count_eq_zero]
        omega
      have hcons := Counting.count_cons_toNat id x s.tasks
      dsimp only [record]
      rw [List.erase_of_not_mem hnot]
      omega
  | finish id =>
      obtain ⟨-, rfl⟩ := Transition.of_ite_eq_some hstep
      exact h.take id _ (aborted_take c s id)
  | error id =>
      obtain ⟨-, rfl⟩ := Transition.of_ite_eq_some hstep
      exact h.take id _ (aborted_take c s id)
  | shutdownTask id =>
      cases hstep
      exact h.take id _ (aborted_take c s id)
  | close id =>
      obtain ⟨hin, rfl⟩ := Transition.of_ite_eq_some hstep
      intro x
      have hx := h x
      have herase := Counting.count_erase_toNat hin x
      have hcons := Counting.count_cons_toNat id x s.closed
      dsimp only [record]
      omega
  | abort id =>
      obtain ⟨hin, rfl⟩ := Transition.of_ite_eq_some hstep
      intro x
      have hx := h x
      have herase := Counting.count_erase_toNat hin x
      have hcons := Counting.count_cons_toNat id x c.aborted
      dsimp only [record]
      omega

/-! ## The calls that come late enough -/

/-- The invariant. -/
structure Inv (s : State) (c : Calls) : Prop where
  next : 0 < s.nextId
  placed : Placed s c
  /-- Only a task that was inserted is called for late. -/
  late : ∀ id ∈ c.late, s.Returned id
  /-- A task that was inserted is in the registry until it is called for. -/
  left : ∀ id, s.Returned id → (id ∈ c.late ↔ id ∉ s.tasks)

theorem Inv.init : Inv .init .none := by
  refine ⟨Nat.one_pos, placed_init, fun id hid => absurd hid List.not_mem_nil, ?_⟩
  rintro id ⟨hpos, hlt, -, -⟩
  have hlt : id < 1 := hlt
  omega

/-- A task is in one place only. -/
theorem Placed.le_one (h : Placed s c) (id : ℕ) :
    s.starting.count id + s.inserting.count id + s.tasks.count id ≤ 1 := by
  have hid := h id
  have hle := Bool.toNat_le (decide (0 < id ∧ id < s.nextId))
  omega

/-- What is in the registry was handed over by a call that has returned. -/
theorem Placed.returned (h : Placed s c) (hin : id ∈ s.tasks) : s.Returned id := by
  have hid := h id
  have hle := h.le_one id
  have hcount : 0 < s.tasks.count id := List.count_pos_iff.mpr hin
  have hstarting : id ∉ s.starting := List.count_eq_zero.mp (by omega)
  have hinserting : id ∉ s.inserting := List.count_eq_zero.mp (by omega)
  by_cases hrange : 0 < id ∧ id < s.nextId
  · exact ⟨hrange.1, hrange.2, hstarting, hinserting⟩
  · rw [decide_eq_false hrange] at hid
    have hzero : (false : Bool).toNat = 0 := rfl
    omega

/-- A task that is taken out is gone. -/
theorem Placed.mem_takeTask (h : Placed s c) (id x : ℕ) :
    x ∈ (s.takeTask id).tasks ↔ x ∈ s.tasks ∧ x ≠ id := by
  unfold State.takeTask
  split
  · next hin =>
      have hle := h.le_one id
      have herase := Counting.count_erase_toNat hin id
      show x ∈ s.tasks.erase id ↔ _
      constructor
      · intro hx
        refine ⟨List.mem_of_mem_erase hx, ?_⟩
        rintro rfl
        have hpos : 0 < (s.tasks.erase x).count x := List.count_pos_iff.mpr hx
        rw [beq_self_eq_true] at herase
        have hone : (true : Bool).toNat = 1 := rfl
        omega
      · exact fun hx => (List.mem_erase_of_ne hx.2).mpr hx.1
  · next hnot =>
      constructor
      · exact fun hx => ⟨hx, fun heq => hnot (heq ▸ hx)⟩
      · exact And.left

/-- To take a task out returns no call. -/
theorem returned_takeTask (s : State) (id x : ℕ) : (s.takeTask id).Returned x ↔ s.Returned x := by
  unfold State.takeTask
  split <;> rfl

theorem mem_late_take (c : Calls) (s : State) (id x : ℕ) :
    x ∈ (c.take s id).late ↔ x ∈ c.late ∨ x = id ∧ s.Returned id := by
  unfold Calls.take
  split
  · next h => simp [h, or_comm]
  · next h => simp [h]

/-- `finish`, `error` and `shutdown_task` keep the invariant. -/
theorem Inv.take (h : Inv s c) (id : ℕ) (c' : Calls) (haborted : c'.aborted = c.aborted)
    (hlate : c'.late = (c.take s id).late) : Inv (s.takeTask id) c' := by
  have hnext : (s.takeTask id).nextId = s.nextId := by
    unfold State.takeTask
    split <;> rfl
  refine ⟨hnext ▸ h.next, h.placed.take id c' haborted, ?_, ?_⟩
  · intro x hx
    rw [hlate, mem_late_take] at hx
    rw [returned_takeTask]
    rcases hx with hx | ⟨rfl, hret⟩
    · exact h.late x hx
    · exact hret
  · intro x hret
    rw [returned_takeTask] at hret
    rw [hlate, mem_late_take, h.placed.mem_takeTask, h.left x hret]
    by_cases heq : x = id
    · subst heq
      simp [hret]
    · simp [heq]

/-- **An action keeps the invariant.** -/
theorem Inv.step (h : Inv s c) (hstep : step s a = some s') : Inv s' (record s a c) := by
  have hplaced := h.placed.step h.next hstep
  cases a with
  | handleTask =>
      cases hstep
      -- the new call has not returned
      have hback : ∀ x, State.Returned { s with
          nextId := s.nextId + 1, starting := s.nextId :: s.starting } x → s.Returned x := by
        rintro x ⟨hpos, hlt, hstarting, hinserting⟩
        obtain ⟨hne, hnot⟩ := not_or.mp (mt List.mem_cons.mpr hstarting)
        have hlt : x < s.nextId + 1 := hlt
        exact ⟨hpos, by omega, hnot, hinserting⟩
      refine ⟨Nat.succ_pos _, hplaced, ?_, fun x hx => h.left x (hback x hx)⟩
      intro x hx
      obtain ⟨hpos, hlt, hstarting, hinserting⟩ := h.late x hx
      refine ⟨hpos, Nat.lt_succ_of_lt hlt, ?_, hinserting⟩
      rw [List.mem_cons, not_or]
      exact ⟨Nat.ne_of_lt hlt, hstarting⟩
  | start id =>
      obtain ⟨hin, rfl⟩ := Transition.of_ite_eq_some hstep
      refine ⟨h.next, hplaced, ?_, ?_⟩
      · intro x hx
        obtain ⟨hpos, hlt, hstarting, hinserting⟩ := h.late x hx
        refine ⟨hpos, hlt, fun hmem => hstarting (List.mem_of_mem_erase hmem), ?_⟩
        rw [List.mem_cons, not_or]
        exact ⟨fun heq => hstarting (heq ▸ hin), hinserting⟩
      · rintro x ⟨hpos, hlt, hstarting, hinserting⟩
        obtain ⟨hne, hnot⟩ := not_or.mp (mt List.mem_cons.mpr hinserting)
        have hbefore : x ∉ s.starting :=
          fun hmem => hstarting ((List.mem_erase_of_ne hne).mpr hmem)
        exact h.left x ⟨hpos, hlt, hbefore, hnot⟩
  | insert id =>
      obtain ⟨hin, rfl⟩ := Transition.of_ite_eq_some hstep
      have hnot : id ∉ s.tasks := fun hmem => (h.placed.returned hmem).2.2.2 hin
      rw [List.erase_of_not_mem hnot] at hplaced ⊢
      refine ⟨h.next, hplaced, ?_, ?_⟩
      · intro x hx
        obtain ⟨hpos, hlt, hstarting, hinserting⟩ := h.late x hx
        exact ⟨hpos, hlt, hstarting, fun hmem => hinserting (List.mem_of_mem_erase hmem)⟩
      · rintro x ⟨hpos, hlt, hstarting, hinserting⟩
        show x ∈ c.late ↔ x ∉ id :: s.tasks
        by_cases heq : x = id
        · -- nobody has called for the task since its insertion
          subst heq
          have hlate : x ∉ c.late := fun hmem => (h.late x hmem).2.2.2 hin
          simp [hlate]
        · have hret : s.Returned x :=
            ⟨hpos, hlt, hstarting, fun hmem => hinserting ((List.mem_erase_of_ne heq).mpr hmem)⟩
          rw [h.left x hret, List.mem_cons, not_or]
          simp [heq]
  | finish id =>
      obtain ⟨-, rfl⟩ := Transition.of_ite_eq_some hstep
      exact h.take id _ (aborted_take c s id) rfl
  | error id =>
      obtain ⟨-, rfl⟩ := Transition.of_ite_eq_some hstep
      exact h.take id _ (aborted_take c s id) rfl
  | shutdownTask id =>
      cases hstep
      exact h.take id _ (aborted_take c s id) rfl
  | close id =>
      obtain ⟨-, rfl⟩ := Transition.of_ite_eq_some hstep
      exact ⟨h.next, hplaced, h.late, h.left⟩
  | abort id =>
      obtain ⟨-, rfl⟩ := Transition.of_ite_eq_some hstep
      exact ⟨h.next, hplaced, h.late, h.left⟩

/-! ## Runs -/

/-- **When a task leaves.**  In every run, for a task whose `handle_task` has returned and whose
`shutdown` is not under way: it is out of the registry and was shut down once, exactly if
`finish`, `error` or `shutdown_task` was called for it after the insertion and the caller was not
aborted. -/
theorem finished_leaves_iff {as : List Act}
    (hrun : Transition.FreeRun (Transition.observe step record) (.init, .none) as (s, c))
    (hreturned : s.Returned id) (hquiet : id ∉ s.closing) :
    (id ∉ s.tasks ∧ s.closed.count id = 1) ↔ (id ∈ c.late ∧ id ∉ c.aborted) := by
  have hinv : Inv s c :=
    hrun.invariant_observe (I := Inv) Inv.init fun _ _ _ _ h _ hs => h.step hs
  have hid := hinv.placed id
  obtain ⟨hpos, hlt, hstarting, hinserting⟩ := hreturned
  rw [decide_eq_true ⟨hpos, hlt⟩, Bool.toNat_true, List.count_eq_zero.mpr hstarting,
    List.count_eq_zero.mpr hinserting, List.count_eq_zero.mpr hquiet] at hid
  rw [hinv.left id ⟨hpos, hlt, hstarting, hinserting⟩]
  rw [← List.count_eq_zero (l := s.tasks), ← List.count_eq_zero (l := c.aborted)]
  omega

/-- A task is started, inserted, and finishes. -/
def finishedRun : List Act := [.handleTask, .start 1, .insert 1, .finish 1, .close 1]

/-- The task has left. -/
theorem finished_leaves_inserted :
    ∃ s c,
      Transition.FreeRun (Transition.observe step record) (.init, .none) finishedRun (s, c) ∧
        s.Returned 1 ∧ 1 ∉ s.closing ∧ 1 ∉ s.tasks ∧ s.closed.count 1 = 1 := by
  have hexec : Transition.exec (Transition.observe step record) (.init, .none) finishedRun =
      some (⟨2, [], [], [1], [], [], [1]⟩, ⟨[1], [1], []⟩) := by decide
  refine ⟨_, _, .of_exec hexec, by decide, List.not_mem_nil, ?_⟩
  exact (finished_leaves_iff (.of_exec hexec) (by decide) List.not_mem_nil).mpr (by decide)

/-- A task finishes between its start and its insertion. -/
def resurrectedRun : List Act := [.handleTask, .start 1, .finish 1, .insert 1]

/-- The task is in the registry, and was never shut down. -/
theorem finished_stays :
    ∃ s c,
      Transition.FreeRun (Transition.observe step record) (.init, .none) resurrectedRun (s, c) ∧
        1 ∈ c.ended ∧ s.Returned 1 ∧ 1 ∉ s.closing ∧
          ¬ (1 ∉ s.tasks ∧ s.closed.count 1 = 1) := by
  have hexec : Transition.exec (Transition.observe step record) (.init, .none) resurrectedRun =
      some (⟨2, [], [], [1], [1], [], []⟩, ⟨[1], [], []⟩) := by decide
  exact ⟨_, _, .of_exec hexec, by decide, by decide, by decide, by decide⟩

end TaskRegistry
