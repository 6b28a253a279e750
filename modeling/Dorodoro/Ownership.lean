/-
# Who has a piece

A piece in status `Ing` is either in `response_pieces` of a peer, or in the hands of a task
that has taken it from one structure and not yet put it into the next, or its hash is being
checked.  `State.owners` counts these, and the code balances: one action changes the number
of owners and the status together, except that it can drop a piece (`Owned.run`).

The balance needs that a task moves only what is there (`AssignOk`): the code reads an entry,
waits, and acts on it without looking again.  Pieces are dropped by an abort, and when an
assigned piece does not reach its peer (`dropped`).  Under both conditions no piece is
orphaned (`no_orphan`); an abort during the check of a hash orphans one
(`orphaned_by_abort`).
-/
import Dorodoro.Completion
import Mathlib.Data.Finset.Card

open LexicalPath Bitmap

namespace Swarm

/-! ## Owners -/

/-- The pieces `peer_exit` has still to give back. -/
def Pc.todo : Pc → List ℕ
  | exiting todo => todo
  | _ => []

/-- The pieces of a peer that a task of its `peer_exit` has still to give back. -/
def Task.todoAt (p : ℕ) (t : Task) : List ℕ := if t.peer = p then t.pc.todo else []

/-- The piece whose hash a task is checking. -/
def Pc.checking : Pc → List ℕ
  | verify i | reject i | accept i | clear i => [i]
  | _ => []

/-- The pieces a task is in charge of. -/
def Pc.charge (pc : Pc) : List ℕ := pc.held.map Prod.fst ++ pc.checking

/-- How often piece `i` of peer `p` is looked after: `p` is registered, or its `peer_exit`
has not come to `i` yet. -/
def State.attendance (s : State) (p i : ℕ) : ℕ :=
  s.registered.count p + (s.tasks.flatMap (Task.todoAt p)).count i

/-- The peers that are looked after and have a reception of `i` as described. -/
def State.peersWith (s : State) (f : Piece → Bool) (i : ℕ) : Finset ℕ :=
  (Finset.range s.nextId).filter fun p => 0 < s.attendance p i ∧ (s.response p i).any f = true

/-- The peers that are looked after and have piece `i`. -/
def State.listers (s : State) (i : ℕ) : Finset ℕ := s.peersWith (fun _ => true) i

/-- The pieces the tasks are in charge of. -/
def State.charges (s : State) : List ℕ := s.tasks.flatMap fun t => t.pc.charge

/-- The number of peers and tasks that have piece `i`. -/
def State.owners (s : State) (i : ℕ) : ℕ := (s.listers i).card + s.charges.count i

/-- Whether the status of piece `i` is `Ing`, as a number. -/
def State.ing (s : State) (i : ℕ) : ℕ := if (s.underway i).any PieceStatus.isIng then 1 else 0

/-! ## The conditions -/

/-- `reset_request_piece_origin` takes up only what the peer has, or what is not looked after
any more. -/
def Restarts (s : State) (p i offset : ℕ) : Prop :=
  s.keepsOrigin p i offset = true ∨ (s.response p i).isSome = true ∨ s.attendance p i = 0

/-- The step of a task moves only what is there. -/
def AssignOk (s : State) (t : Task) (c : Choice) : Prop :=
  match t.pc, c with
  | .relist _ ((i, offset) :: _), _ => Restarts s t.peer i offset
  | .failed m, _ => Restarts s t.peer m.pieceIdx m.blockOffset
  | .retain _ v _ _ _, .entry i =>
      (s.response v i).isSome = true → s.peerHas t.peer i = true → 0 < s.attendance v i
  | .remove i, _ => 0 < s.attendance t.peer i ∧ (s.response t.peer i).isSome = true
  | _, _ => True

/-- An assigned piece does not reach the peer: the peer is gone, or
`reset_request_piece_origin` returns early. -/
def misses (s : State) (p i offset : ℕ) : List ℕ :=
  if 0 < s.attendance p i ∧ s.keepsOrigin p i offset = false then [] else [i]

/-- The pieces the step of a task drops. -/
def dropped (s : State) (t : Task) : List ℕ :=
  match t.pc with
  | .applied _ i offset => misses s t.peer i offset
  | .give _ ((i, offset) :: _) => misses s t.peer i offset
  | _ => []

instance (s : State) (p i offset : ℕ) : Decidable (Restarts s p i offset) := by
  unfold Restarts
  infer_instance

instance (s : State) (t : Task) (c : Choice) : Decidable (AssignOk s t c) := by
  obtain ⟨p, pc⟩ := t
  rcases pc with ⟨⟩
  case relist k pieces =>
    rcases pieces with _ | ⟨⟨i, offset⟩, pieces⟩ <;> dsimp only [AssignOk] <;> infer_instance
  case retain k v todo peers freePiece =>
    rcases c with ⟨⟩ <;> dsimp only [AssignOk] <;> infer_instance
  all_goals
    dsimp only [AssignOk]
    infer_instance

/-- The condition on an action under which pieces are assigned once. -/
def AssignGuard (s : State) : Act → Prop
  | .run k c => ∀ t ∈ s.tasks[k]?, AssignOk s t c
  | _ => True

/-- The condition on an action under which no piece is dropped. -/
def KeepGuard (s : State) : Act → Prop
  | .run k _ => ∀ t ∈ s.tasks[k]?, dropped s t = []
  | .abort k => ∀ t ∈ s.tasks[k]?, t.pc.charge = []
  | _ => True

instance (s : State) (a : Act) : Decidable (AssignGuard s a) := by
  unfold AssignGuard
  split <;> infer_instance

instance (s : State) (a : Act) : Decidable (KeepGuard s a) := by
  unfold KeepGuard
  split <;> infer_instance

/-! ## Attendance -/

/-- The state after the `k`-th task has made an access and goes on with `ts`. -/
def State.afterRun (C : Config) (s : State) (k : ℕ) (e : Effect) (ts : List Task) : State :=
  { e.exec C s with tasks := replaceTask s.tasks k ts }.tick

/-- `s'` looks after the same pieces of the same peers. -/
structure Attends (C : Config) (s s' : State) : Prop where
  nextId : s'.nextId = s.nextId
  le : ∀ q j, s'.attendance q j ≤ s.attendance q j
  eq : ∀ q j, j < C.pieceNum → s'.attendance q j = s.attendance q j

section Attendance

variable {C : Config} {s s' : State} {k : ℕ} {t : Task} {e : Effect} {ts : List Task} {f : Piece → Bool}
  {i p : ℕ}

@[simp] theorem State.afterRun_tasks :
    (s.afterRun C k e ts).tasks = replaceTask s.tasks k ts := rfl

@[simp] theorem State.afterRun_nextId : (s.afterRun C k e ts).nextId = s.nextId :=
  Effect.exec_nextId C s e

@[simp] theorem State.afterRun_underway :
    (s.afterRun C k e ts).underway = (e.exec C s).underway := rfl

@[simp] theorem State.afterRun_response (q j : ℕ) :
    (s.afterRun C k e ts).response q j = (e.exec C s).response q j := rfl

theorem mem_peersWith : p ∈ s.peersWith f i ↔
    p < s.nextId ∧ 0 < s.attendance p i ∧ (s.response p i).any f = true := by
  rw [State.peersWith, Finset.mem_filter, Finset.mem_range]

/-- Attendance counts the registered peers and what the exits have still to do. -/
theorem attendance_afterRun (C : Config) (e : Effect) (ts : List Task) (ht : s.tasks[k]? = some t)
    (q j : ℕ) :
    (s.afterRun C k e ts).attendance q j + (t.todoAt q).count j =
      (e.exec C s).registered.count q + (s.tasks.flatMap (Task.todoAt q)).count j +
        (ts.flatMap (Task.todoAt q)).count j := by
  have hcount := count_flatMap_replaceTask (Task.todoAt q) j ts ht
  show (e.exec C s).registered.count q +
    ((replaceTask s.tasks k ts).flatMap (Task.todoAt q)).count j + _ = _
  omega

theorem Attends.of_eq (hn : s'.nextId = s.nextId)
    (h : ∀ q j, s'.attendance q j = s.attendance q j) : Attends C s s' :=
  ⟨hn, fun q j => (h q j).le, fun q j _ => h q j⟩

/-- Tasks that give nothing back. -/
theorem flatMap_todoAt (h : ∀ t' ∈ ts, t'.pc.todo = []) (q : ℕ) :
    ts.flatMap (Task.todoAt q) = [] := by
  rw [List.flatMap_eq_nil_iff]
  intro t' ht'
  rw [Task.todoAt, h t' ht', ite_self]

/-- A step of a task that gives nothing back. -/
theorem Attends.run (ht : s.tasks[k]? = some t) (hreg : (e.exec C s).registered = s.registered)
    (htodo : t.pc.todo = []) (hts : ∀ t' ∈ ts, t'.pc.todo = []) :
    Attends C s (s.afterRun C k e ts) := by
  refine .of_eq State.afterRun_nextId ?_
  intro q j
  have h := attendance_afterRun C e ts ht q j
  rw [flatMap_todoAt hts, Task.todoAt, htodo, ite_self, hreg] at h
  exact h

/-- `peer_exit` takes a peer out and starts to give its pieces back. -/
theorem attendance_exit {v : ℕ} (hv : v ∈ s.registered) (q j : ℕ) :
    (s.registered.erase v).count q +
        (Task.todoAt q ⟨v, .exiting (List.range C.pieceNum)⟩).count j ≤ s.registered.count q ∧
      (j < C.pieceNum → (s.registered.erase v).count q +
        (Task.todoAt q ⟨v, .exiting (List.range C.pieceNum)⟩).count j = s.registered.count q) := by
  rw [List.count_erase, Task.todoAt]
  by_cases hq : v = q
  · subst hq
    have hpos : 0 < s.registered.count v := List.count_pos_iff.mpr hv
    have hrange : (List.range C.pieceNum).count j ≤ 1 :=
      List.nodup_iff_count_le_one.mp List.nodup_range j
    simp only [beq_self_eq_true, if_true, Pc.todo]
    refine ⟨by omega, ?_⟩
    intro hj
    have hone : 0 < (List.range C.pieceNum).count j := List.count_pos_iff.mpr (List.mem_range.mpr hj)
    omega
  · simp [hq]

/-- A step of a task that closes a connection. -/
theorem Attends.runExit (ht : s.tasks[k]? = some t) {v : ℕ} (hv : v ∈ s.registered)
    (htodo : t.pc.todo = []) (hts : ∀ t' ∈ ts, t'.pc.todo = []) :
    Attends C s (s.afterRun C k (.deregister v) (⟨v, .exiting (List.range C.pieceNum)⟩ :: ts)) := by
  have key : ∀ q j, (s.afterRun C k (.deregister v)
      (⟨v, .exiting (List.range C.pieceNum)⟩ :: ts)).attendance q j =
        (s.registered.erase v).count q + (s.tasks.flatMap (Task.todoAt q)).count j +
          (Task.todoAt q ⟨v, .exiting (List.range C.pieceNum)⟩).count j := by
    intro q j
    have h := attendance_afterRun C (.deregister v)
      (⟨v, .exiting (List.range C.pieceNum)⟩ :: ts) ht q j
    rw [List.flatMap_cons, flatMap_todoAt hts, List.append_nil, Effect.exec_registered] at h
    rw [show t.todoAt q = [] by rw [Task.todoAt, htodo, ite_self]] at h
    exact h
  refine ⟨State.afterRun_nextId, ?_, ?_⟩
  · intro q j
    have h := (attendance_exit (C := C) hv q j).1
    rw [key, State.attendance]
    omega
  · intro q j hj
    have h := (attendance_exit (C := C) hv q j).2 hj
    rw [key, State.attendance]
    omega

theorem returns_todo (p : ℕ) (k : Option Msg) : ∀ t ∈ onPeer p (returns k), t.pc.todo = [] :=
  forall_mem_returns fun _ _ => rfl

theorem pcs_todo (p : ℕ) (r : Ret) : ∀ t ∈ onPeer p r.pcs, t.pc.todo = [] :=
  forall_mem_pcs (fun _ _ => rfl) rfl

/-- Apart from the loop of `peer_exit`, a step looks after the same pieces. -/
theorem Attends.of_next (ht : s.tasks[k]? = some t) (hnext : Next C s t.peer t.pc e ts)
    (htodo : t.pc.todo = []) : Attends C s (s.afterRun C k e ts) := by
  obtain ⟨p, pc⟩ := t
  cases hnext with
  | requestChoked _ => exact .run ht rfl rfl (returns_todo _ _)
  | findFull => exact .run ht rfl rfl (returns_todo _ _)
  | lootNone => exact .run ht rfl rfl (returns_todo _ _)
  | leaveLost _ => exact .run ht rfl rfl (returns_todo _ _)
  | finishEnded _ => exact .run ht rfl rfl (pcs_todo _ _)
  | saveRow => exact .run ht (by simp) rfl (pcs_todo _ _)
  | leave hp => exact .runExit ht hp rfl (returns_todo _ _)
  | quit hp => exact .runExit ht hp rfl (by simp)
  | lootExitDropNext hv => exact .runExit ht hv rfl (by simp [Pc.todo])
  | lootExitDropGive hv => exact .runExit ht hv rfl (by simp [Pc.todo])
  | exitPause hi _ => exact absurd hi (List.eq_nil_iff_forall_not_mem.mp htodo _)
  | exitSkip hi _ => exact absurd hi (List.eq_nil_iff_forall_not_mem.mp htodo _)
  | _ =>
      -- the task ends, or goes on with nothing left to look after
      first
      | exact .run ht (Effect.exec_registered ..) rfl (List.forall_mem_singleton.mpr rfl)
      | exact .run ht (Effect.exec_registered ..) rfl (List.forall_mem_nil _)

/-- A step of `peer_exit` is done with one piece of its peer. -/
theorem attendance_exiting {todo : List ℕ} (ht : s.tasks[k]? = some ⟨p, .exiting todo⟩)
    (hreg : (e.exec C s).registered = s.registered) (q j : ℕ) :
    (s.afterRun C k e [⟨p, .exiting (todo.filter (· != i))⟩]).attendance q j +
        (if q = p ∧ j = i then todo.count i else 0) = s.attendance q j := by
  have h := attendance_afterRun C e [⟨p, .exiting (todo.filter (· != i))⟩] ht q j
  rw [List.flatMap_singleton, hreg] at h
  rw [State.attendance.eq_1 s]
  by_cases hq : p = q
  · subst hq
    simp only [Task.todoAt, if_true, Pc.todo, true_and] at h ⊢
    by_cases hj : j = i
    · subst hj
      have hzero : (todo.filter (· != j)).count j = 0 := List.count_eq_zero.mpr (by simp)
      rw [if_pos rfl]
      omega
    · have hsame : (todo.filter (· != i)).count j = todo.count j :=
        List.count_filter (by simp [hj])
      rw [if_neg hj]
      omega
  · simp only [Task.todoAt, hq, if_false, List.count_nil] at h
    rw [if_neg fun hh => hq hh.1.symm]
    omega

/-- What does not change a reception does not change who has it. -/
theorem Attends.mem_iff (ha : Attends C s s') (hr : s.ResponsesInRange C)
    (h : (s'.response p i).any f = (s.response p i).any f) :
    p ∈ s'.peersWith f i ↔ p ∈ s.peersWith f i := by
  rw [mem_peersWith, mem_peersWith, h, ha.nextId]
  by_cases hi : i < C.pieceNum
  · rw [ha.eq p i hi]
  · have hnone : s.response p i = none := by
      rw [← Option.not_isSome_iff_eq_none]
      exact fun hsome => hi (hr p i hsome)
    simp [hnone]

end Attendance

/-! ## The balance -/

/-- The access leaves the peers, their pieces and the statuses as they are. -/
def Effect.calm : Effect → Bool
  | apply _ | resetOrigin _ _ _ | take _ _ | deregister _ | pause _ | removeResponse _ _
  | resetUnderway _ | removeUnderway _ => false
  | _ => true

/-- A step changes the owners of a piece and its status together, but for the pieces it
drops. -/
def Balanced (s s' : State) (lost : List ℕ) : Prop :=
  ∀ i, s'.owners i + s.ing i + lost.count i = s.owners i + s'.ing i

/-- The invariant: only a piece in status `Ing` has an owner, and it has one at most. -/
structure Owned (C : Config) (s : State) : Prop where
  attendance : ∀ p i, s.attendance p i ≤ 1
  known : ∀ p i, 0 < s.attendance p i → p < s.nextId
  owners : ∀ i, s.owners i ≤ s.ing i
  responses : s.ResponsesInRange C
  tasks : ∀ t ∈ s.tasks, t.InRange C

section Balance

variable {C : Config} {s s' : State} {k : ℕ} {t : Task} {e : Effect} {ts : List Task} {c : Choice}
  {i p : ℕ}

theorem Pc.mem_pieces_of_charge {pc : Pc} (h : i ∈ pc.charge) : i ∈ pc.pieces := by
  cases pc <;> simp_all [charge, held, checking, pieces]

theorem any_true {α : Type} (x : Option α) : x.any (fun _ => true) = x.isSome := by
  cases x <;> rfl

theorem mem_listers : p ∈ s.listers i ↔
    p < s.nextId ∧ 0 < s.attendance p i ∧ (s.response p i).isSome = true := by
  rw [State.listers, mem_peersWith, any_true]

theorem Effect.isSome_calm (he : e.calm = true) (q j : ℕ) :
    ((e.exec C s).response q j).isSome = (s.response q j).isSome := by
  rw [Effect.exec_response]
  cases e with
  | updateResponse p i offset =>
      dsimp only
      split
      · next heq => rw [heq.1, heq.2, Option.isSome_map]
      · rfl
  | resetOrigin p i offset => cases he
  | take v i => cases he
  | removeResponse p i => cases he
  | _ => rfl

theorem ing_setUnderway (s : State) (j : ℕ) (v : Option PieceStatus) (i : ℕ) :
    (s.setUnderway j v).ing i =
      if i = j then (if v.any PieceStatus.isIng then 1 else 0) else s.ing i := by
  unfold State.ing
  by_cases hij : i = j
  · subst hij
    simp
  · simp [hij]

theorem Effect.ing_calm (he : e.calm = true) (j : ℕ) : (e.exec C s).ing j = s.ing j := by
  cases e with
  | updateOffset i offset =>
      rw [Effect.exec, ing_setUnderway]
      split
      · next hij =>
          subst hij
          unfold State.ing
          cases s.underway j with
          | none => rfl
          | some st => cases st <;> rfl
      · rfl
  | apply i => cases he
  | pause i => cases he
  | resetUnderway i => cases he
  | removeUnderway i => cases he
  | _ =>
      unfold State.ing
      rw [Effect.exec_underway]

/-- The balance of a step of a task, without the tasks that do not take part. -/
theorem Balanced.of_run (ht : s.tasks[k]? = some t) {lost : List ℕ}
    (h : ∀ i, ((s.afterRun C k e ts).listers i).card + (ts.flatMap fun t => t.pc.charge).count i +
      s.ing i + lost.count i = (s.listers i).card + t.pc.charge.count i + (e.exec C s).ing i) :
    Balanced s (s.afterRun C k e ts) lost := by
  intro i
  have hcount := count_flatMap_replaceTask (fun t => t.pc.charge) i ts ht
  have hcharges : (s.afterRun C k e ts).charges.count i + t.pc.charge.count i =
      s.charges.count i + (ts.flatMap fun t => t.pc.charge).count i := hcount
  have hing : (s.afterRun C k e ts).ing i = (e.exec C s).ing i := rfl
  have hi := h i
  unfold State.owners
  omega

/-- The peers that have a piece do not change. -/
theorem Attends.listers_eq (ha : Attends C s s') (hr : s.ResponsesInRange C)
    (h : ∀ q, (s'.response q i).isSome = (s.response q i).isSome) : s'.listers i = s.listers i := by
  ext q
  apply ha.mem_iff hr
  rw [any_true, any_true, h q]

/-- A step under which the peers keep what they have: the pieces only change hands between the task
and the status. -/
theorem Balanced.of_run_kept (ht : s.tasks[k]? = some t)
    (ha : Attends C s (s.afterRun C k e ts)) (hr : s.ResponsesInRange C)
    (hresp : ∀ q j, ((e.exec C s).response q j).isSome = (s.response q j).isSome) {lost : List ℕ}
    (h : ∀ i, (ts.flatMap fun t => t.pc.charge).count i + s.ing i + lost.count i =
      t.pc.charge.count i + (e.exec C s).ing i) :
    Balanced s (s.afterRun C k e ts) lost := by
  apply Balanced.of_run ht
  intro i
  have hi := h i
  rw [ha.listers_eq hr fun q => hresp q i]
  omega

/-- A step that moves nothing. -/
theorem Balanced.frame (ht : s.tasks[k]? = some t) (ha : Attends C s (s.afterRun C k e ts))
    (hr : s.ResponsesInRange C)
    (hresp : ∀ q j, ((e.exec C s).response q j).isSome = (s.response q j).isSome)
    (hing : ∀ j, (e.exec C s).ing j = s.ing j)
    (hcharge : (ts.flatMap fun t => t.pc.charge) = t.pc.charge) :
    Balanced s (s.afterRun C k e ts) [] := by
  apply Balanced.of_run_kept ht ha hr hresp
  intro j
  rw [hing, hcharge, List.count_nil, Nat.add_zero]

/-- A task in charge of a piece is its owner, and the piece is in status `Ing`. -/
theorem Owned.of_charge (hO : Owned C s) (ht : s.tasks[k]? = some t) (hi : i ∈ t.pc.charge) :
    s.listers i = ∅ ∧ s.ing i = 1 := by
  have hmem : i ∈ s.charges :=
    List.mem_flatMap.mpr ⟨t, List.mem_of_getElem? ht, hi⟩
  have hpos : 0 < s.charges.count i := List.count_pos_iff.mpr hmem
  have hle := hO.owners i
  have hing : s.ing i ≤ 1 := by
    unfold State.ing
    split <;> omega
  unfold State.owners at hle
  exact ⟨Finset.card_eq_zero.mp (by omega), by omega⟩

/-- A peer that has a piece is its owner, and the piece is in status `Ing`. -/
theorem Owned.of_lists (hO : Owned C s) (hatt : 0 < s.attendance p i)
    (hsome : (s.response p i).isSome = true) : p ∈ s.listers i ∧ s.ing i = 1 := by
  have hmem : p ∈ s.listers i := mem_listers.mpr ⟨hO.known p i hatt, hatt, hsome⟩
  have hpos : 0 < (s.listers i).card := Finset.card_pos.mpr ⟨p, hmem⟩
  have hle := hO.owners i
  unfold State.owners at hle
  have hing : s.ing i ≤ 1 := by
    unfold State.ing
    split <;> omega
  exact ⟨hmem, by omega⟩

/-- A task takes a piece away from a peer that is looked after. -/
theorem Balanced.taken (hO : Owned C s) (ht : s.tasks[k]? = some t)
    (ha : Attends C s (s.afterRun C k e ts)) (hatt : 0 < s.attendance p i)
    (hsome : (s.response p i).isSome = true)
    (hresp : ∀ q j, (e.exec C s).response q j = if q = p ∧ j = i then none else s.response q j)
    (hing : ∀ j, (e.exec C s).ing j = s.ing j)
    (hcharge : ∀ j, (ts.flatMap fun t => t.pc.charge).count j =
      t.pc.charge.count j + [i].count j) :
    Balanced s (s.afterRun C k e ts) [] := by
  apply Balanced.of_run ht
  intro j
  rw [hing, hcharge, List.count_nil]
  by_cases hj : j = i
  · subst hj
    have hmem := (hO.of_lists hatt hsome).1
    have herase : (s.afterRun C k e ts).listers j = (s.listers j).erase p := by
      ext q
      rw [Finset.mem_erase]
      by_cases hq : q = p
      · subst hq
        rw [mem_listers, State.afterRun_response, hresp]
        simp
      · have hsame : q ∈ (s.afterRun C k e ts).listers j ↔ q ∈ s.listers j := by
          apply ha.mem_iff hO.responses
          rw [State.afterRun_response, hresp, if_neg fun h => hq h.1]
        rw [hsame]
        exact ⟨fun h => ⟨hq, h⟩, fun h => h.2⟩
    have hcard := Finset.card_erase_of_mem hmem
    have hpos : 0 < (s.listers j).card := Finset.card_pos.mpr ⟨p, hmem⟩
    rw [herase, List.count_singleton_self]
    omega
  · have hsame : (s.afterRun C k e ts).listers j = s.listers j := by
      apply ha.listers_eq hO.responses
      intro q
      rw [State.afterRun_response, hresp, if_neg fun h => hj h.2]
    rw [hsame, List.count_singleton, if_neg (by simpa using Ne.symm hj), Nat.add_zero, Nat.add_zero]

theorem Effect.ing_resetOrigin (s : State) (p i offset j : ℕ) :
    ((Effect.resetOrigin p i offset).exec C s).ing j = s.ing j := by
  unfold State.ing
  rw [Effect.exec_underway]

/-- `reset_request_piece_origin` on what the peer has already. -/
theorem Attends.listers_restarts {offset : ℕ} (hr : s.ResponsesInRange C)
    (ha : Attends C s (s.afterRun C k (.resetOrigin p i offset) ts)) (h : Restarts s p i offset)
    (j : ℕ) : (s.afterRun C k (.resetOrigin p i offset) ts).listers j = s.listers j := by
  ext q
  by_cases hqj : q = p ∧ j = i
  · obtain ⟨rfl, rfl⟩ := hqj
    rcases h with hk | hsome | hzero
    · apply ha.mem_iff hr
      rw [State.afterRun_response, Effect.exec_response]
      simp [hk]
    · apply ha.mem_iff hr
      rw [State.afterRun_response, Effect.exec_response, any_true, any_true, hsome]
      dsimp only
      split
      · rfl
      · exact hsome
    · have hle := ha.le q j
      rw [mem_listers, mem_listers, hzero, show (s.afterRun C k _ ts).attendance q j = 0 by omega]
      simp
  · apply ha.mem_iff hr
    rw [State.afterRun_response, Effect.exec_response]
    simp [hqj]

/-- `reset_request_piece_origin` gives a piece to a peer that is looked after. -/
theorem Attends.listers_reached (hO : Owned C s) {offset : ℕ} (hi : i < C.pieceNum)
    (ha : Attends C s (s.afterRun C k (.resetOrigin p i offset) ts)) (hatt : 0 < s.attendance p i)
    (hk : s.keepsOrigin p i offset = false) :
    (s.afterRun C k (.resetOrigin p i offset) ts).listers i = insert p (s.listers i) := by
  ext q
  rw [Finset.mem_insert]
  by_cases hq : q = p
  · subst hq
    rw [mem_listers, State.afterRun_response, Effect.exec_response, ha.nextId, ha.eq q i hi]
    simp [hatt, hk, hO.known q i hatt]
  · have hsame : q ∈ (s.afterRun C k (.resetOrigin p i offset) ts).listers i ↔
        q ∈ s.listers i := by
      apply ha.mem_iff hO.responses
      rw [State.afterRun_response, Effect.exec_response]
      simp [hq]
    rw [hsame]
    simp [hq]

/-- A task hands a piece it is in charge of to its peer. -/
theorem Balanced.given (hO : Owned C s) {offset : ℕ} (ht : s.tasks[k]? = some t)
    (ha : Attends C s (s.afterRun C k (.resetOrigin p i offset) ts))
    (hcharge : t.pc.charge = i :: ts.flatMap fun t => t.pc.charge) :
    Balanced s (s.afterRun C k (.resetOrigin p i offset) ts) (misses s p i offset) := by
  have hmem : i ∈ t.pc.charge := by
    rw [hcharge]
    exact List.mem_cons_self
  have hi : i < C.pieceNum :=
    hO.tasks t (List.mem_of_getElem? ht) i (Pc.mem_pieces_of_charge hmem)
  have hempty : s.listers i = ∅ := (hO.of_charge ht hmem).1
  apply Balanced.of_run ht
  intro j
  rw [Effect.ing_resetOrigin, hcharge, misses]
  split
  · next hreach =>
      -- the piece reaches the peer
      by_cases hj : j = i
      · subst hj
        rw [ha.listers_reached hO hi hreach.1 hreach.2, hempty, List.count_cons_self,
          List.count_nil, Finset.card_insert_of_notMem (Finset.notMem_empty p)]
        omega
      · have hsame : (s.afterRun C k (.resetOrigin p i offset) ts).listers j = s.listers j := by
          apply ha.listers_eq hO.responses
          intro q
          rw [State.afterRun_response, Effect.exec_response]
          simp [hj]
        rw [hsame, List.count_cons_of_ne (Ne.symm hj), List.count_nil, Nat.add_zero]
  · next hmiss =>
      have hr : Restarts s p i offset := by
        rcases Nat.eq_zero_or_pos (s.attendance p i) with hzero | hpos
        · exact Or.inr (Or.inr hzero)
        · left
          by_contra hk
          exact hmiss ⟨hpos, by simpa using hk⟩
      rw [ha.listers_restarts hO.responses hr j, List.count_singleton, List.count_cons]
      omega

/-- A task starts a reception again. -/
theorem Balanced.restarted (hO : Owned C s) {offset : ℕ} (ht : s.tasks[k]? = some t)
    (ha : Attends C s (s.afterRun C k (.resetOrigin p i offset) ts)) (h : Restarts s p i offset)
    (hcharge : (ts.flatMap fun t => t.pc.charge) = t.pc.charge) :
    Balanced s (s.afterRun C k (.resetOrigin p i offset) ts) [] := by
  apply Balanced.of_run ht
  intro j
  rw [ha.listers_restarts hO.responses h j, Effect.ing_resetOrigin, hcharge, List.count_nil,
    Nat.add_zero]

/-- The check of a piece is over, or `peer_exit` gives a piece back: it is not in status `Ing`
any more. -/
theorem Balanced.released (hO : Owned C s) (ht : s.tasks[k]? = some t)
    (ha : Attends C s (s.afterRun C k e ts))
    (hresp : ∀ q j, (e.exec C s).response q j = s.response q j)
    (hing : ∀ j, (e.exec C s).ing j = if j = i then 0 else s.ing j)
    (hcharge : t.pc.charge = i :: ts.flatMap fun t => t.pc.charge) :
    Balanced s (s.afterRun C k e ts) [] := by
  have hone : s.ing i = 1 := by
    apply (hO.of_charge ht _).2
    rw [hcharge]
    exact List.mem_cons_self
  apply Balanced.of_run_kept ht ha hO.responses
  · intro q j
    rw [hresp]
  intro j
  rw [hing, hcharge, List.count_nil]
  by_cases hj : j = i
  · subst hj
    rw [List.count_cons_self, if_pos rfl]
    omega
  · rw [List.count_cons_of_ne (Ne.symm hj), if_neg hj, Nat.add_zero]

/-- `apply_download_piece` takes a piece that nobody has. -/
theorem Balanced.applied (hO : Owned C s) {offset : ℕ} (ht : s.tasks[k]? = some t)
    (ha : Attends C s (s.afterRun C k (.apply i) ts)) (happ : s.applyOffset i = some offset)
    (hcharge : (ts.flatMap fun t => t.pc.charge) = i :: t.pc.charge) :
    Balanced s (s.afterRun C k (.apply i) ts) [] := by
  have hzero : s.ing i = 0 := by
    unfold State.applyOffset at happ
    unfold State.ing
    split at happ
    · split at happ <;> simp_all [PieceStatus.isIng]
    · cases happ
  have hing : ∀ j, ((Effect.apply i).exec C s).ing j = if j = i then 1 else s.ing j := by
    intro j
    rw [Effect.exec, ing_setUnderway, happ]
    rfl
  apply Balanced.of_run_kept ht ha hO.responses
  · intro q j
    rw [Effect.exec_response]
  intro j
  rw [hing, hcharge, List.count_nil]
  by_cases hj : j = i
  · subst hj
    rw [List.count_cons_self, if_pos rfl]
    omega
  · rw [List.count_cons_of_ne (Ne.symm hj), if_neg hj, Nat.add_zero]

/-- `peer_exit` is done with a piece: its peer does not count any more. -/
theorem peersWith_exiting {f : Piece → Bool} {todo : List ℕ} (hO : Owned C s)
    (ht : s.tasks[k]? = some ⟨p, .exiting todo⟩) (hi : i ∈ todo)
    (hreg : (e.exec C s).registered = s.registered)
    (hresp : ∀ q j, (e.exec C s).response q j = s.response q j) (j : ℕ) :
    (s.afterRun C k e [⟨p, .exiting (todo.filter (· != i))⟩]).peersWith f j =
      if j = i then (s.peersWith f i).erase p else s.peersWith f j := by
  have hatt := fun q j => attendance_exiting (C := C) (e := e) (i := i) ht hreg q j
  have hpos : 0 < todo.count i := List.count_pos_iff.mpr hi
  have hle := hO.attendance p i
  ext q
  rw [mem_peersWith, State.afterRun_response, State.afterRun_nextId, hresp]
  have hq := hatt q j
  by_cases hj : j = i
  · subst hj
    rw [if_pos rfl, Finset.mem_erase, mem_peersWith]
    by_cases hqp : q = p
    · subst hqp
      rw [if_pos ⟨rfl, rfl⟩] at hq
      have hzero : ¬ 0 < (s.afterRun C k e
          [⟨q, .exiting (todo.filter (· != j))⟩]).attendance q j := by omega
      simp [hzero]
    · rw [if_neg fun h => hqp h.1, Nat.add_zero] at hq
      rw [hq]
      simp [hqp]
  · rw [if_neg fun h => hj h.2, Nat.add_zero] at hq
    rw [if_neg hj, mem_peersWith, hq]

/-- `peer_exit` gives a piece back. -/
theorem Balanced.exitPause {todo : List ℕ} (hO : Owned C s)
    (ht : s.tasks[k]? = some ⟨p, .exiting todo⟩) (hi : i ∈ todo)
    (hsome : (s.response p i).isSome = true) :
    Balanced s (s.afterRun C k (.pause i) [⟨p, .exiting (todo.filter (· != i))⟩]) [] := by
  have hatt : 0 < s.attendance p i := by
    have h := attendance_exiting (C := C) (e := .nop) (i := i) ht rfl p i
    have hpos : 0 < todo.count i := List.count_pos_iff.mpr hi
    rw [if_pos ⟨rfl, rfl⟩] at h
    omega
  obtain ⟨hmem, hone⟩ := hO.of_lists hatt hsome
  have hing : ∀ j, ((Effect.pause i).exec C s).ing j = if j = i then 0 else s.ing j := by
    intro j
    rw [Effect.exec, ing_setUnderway]
    cases s.underway i <;> rfl
  apply Balanced.of_run ht
  intro j
  have hlist := peersWith_exiting (f := fun _ => true) (C := C) (e := .pause i) hO ht hi
    (by rw [Effect.exec_registered]) (fun q j => by rw [Effect.exec_response]) j
  rw [State.listers, hlist, hing, List.count_nil]
  by_cases hj : j = i
  · subst hj
    have hcard := Finset.card_erase_of_mem hmem
    have hpos : 0 < (s.listers j).card := Finset.card_pos.mpr ⟨p, hmem⟩
    rw [if_pos rfl, if_pos rfl]
    simp only [State.listers] at hcard hpos ⊢
    simp only [List.flatMap_singleton, Pc.charge, Pc.held, Pc.checking]
    omega
  · rw [if_neg hj, if_neg hj]
    simp only [State.listers, List.flatMap_singleton, Pc.charge, Pc.held, Pc.checking]
    omega

/-- `peer_exit` passes a piece its peer does not have. -/
theorem Balanced.exitSkip {todo : List ℕ} (hO : Owned C s)
    (ht : s.tasks[k]? = some ⟨p, .exiting todo⟩) (hi : i ∈ todo) (hnone : s.response p i = none) :
    Balanced s (s.afterRun C k .nop [⟨p, .exiting (todo.filter (· != i))⟩]) [] := by
  apply Balanced.of_run ht
  intro j
  have hlist := peersWith_exiting (f := fun _ => true) (C := C) (e := .nop) hO ht hi rfl
    (fun _ _ => rfl) j
  have hnot : p ∉ s.peersWith (fun _ => true) i := by
    rw [mem_peersWith, hnone]
    simp
  rw [Finset.erase_eq_of_notMem hnot] at hlist
  have hsame : (s.afterRun C k .nop [⟨p, .exiting (todo.filter (· != i))⟩]).listers j =
      s.listers j := by
    rw [State.listers, hlist]
    split
    · next hj => rw [hj, State.listers]
    · rfl
  rw [hsame]
  rfl

/-- A step of a task looks after no more than before, and keeps the balance. -/
structure Moved (s s' : State) (lost : List ℕ) : Prop where
  nextId : s'.nextId = s.nextId
  attendance : ∀ q j, s'.attendance q j ≤ s.attendance q j
  balanced : Balanced s s' lost

theorem Attends.moved (ha : Attends C s s') {lost : List ℕ} (hb : Balanced s s' lost) :
    Moved s s' lost :=
  ⟨ha.nextId, ha.le, hb⟩

/-- A step that moves nothing. -/
theorem Moved.calm (hO : Owned C s) (ht : s.tasks[k]? = some t)
    (ha : Attends C s (s.afterRun C k e ts)) (he : e.calm = true)
    (hcharge : (ts.flatMap fun t => t.pc.charge) = t.pc.charge) :
    Moved s (s.afterRun C k e ts) [] :=
  ha.moved (.frame ht ha hO.responses (Effect.isSome_calm he) (Effect.ing_calm he) hcharge)

/-- A step that closes a connection. -/
theorem Moved.exit (hO : Owned C s) (ht : s.tasks[k]? = some t) {v : ℕ}
    (ha : Attends C s (s.afterRun C k (.deregister v) ts))
    (hcharge : (ts.flatMap fun t => t.pc.charge) = t.pc.charge) :
    Moved s (s.afterRun C k (.deregister v) ts) [] := by
  refine ha.moved (.frame ht ha hO.responses (fun q j => by rw [Effect.exec_response]) ?_ hcharge)
  intro j
  unfold State.ing
  rw [Effect.exec_underway]

theorem returns_charge (p : ℕ) (k : Option Msg) :
    ((onPeer p (returns k)).flatMap fun t => t.pc.charge) = [] := by
  cases k <;> rfl

theorem pcs_charge (p : ℕ) (r : Ret) :
    ((onPeer p r.pcs).flatMap fun t => t.pc.charge) = [] := by
  cases r with
  | back k => exact returns_charge p k
  | _ => rfl

/-- A step of the looting task is at an entry, or at the end of the map. -/
theorem retain_cases {k' : Option Msg} {v : ℕ} {todo peers : List ℕ} {freePiece : List (ℕ × ℕ)}
    (h : taskStep C s p (.retain k' v todo peers freePiece) c = some (e, ts)) :
    (∃ i, c = .entry i ∧ (s.response v i).isSome = true ∧ s.peerHas p i = true ∧
      ((e = .take v i ∧ (s.underway i).isSome = true) ∨ (e = .nop ∧ s.underway i = none))) ∨
      (e = .nop ∧ ∃ pc, ts = [⟨p, pc⟩] ∧ pc ≠ .quit) := by
  cases c with
  | entry i =>
      unfold taskStep at h
      dsimp only at h
      split at h
      · split at h
        · next hhas =>
            obtain ⟨hsome, hpeer⟩ := Bool.and_eq_true_iff.mp hhas
            left
            refine ⟨i, rfl, hsome, hpeer, ?_⟩
            split at h
            · next st hst =>
                cases h
                exact Or.inl ⟨rfl, by rw [hst]; rfl⟩
            · next hst =>
                cases h
                exact Or.inr ⟨rfl, hst⟩
        · cases h
          exact Or.inr ⟨rfl, _, rfl, by simp⟩
      · cases h
  | go =>
      cases todo with
      | nil =>
          cases h
          exact Or.inr ⟨rfl, _, rfl, by simp⟩
      | cons i todo => cases h
  | _ => cases h

/-- **The step of a task keeps the balance**, as long as it moves only what is there. -/
theorem Owned.run (hO : Owned C s) (ht : s.tasks[k]? = some t)
    (hc : taskStep C s t.peer t.pc c = some (e, ts)) (hok : AssignOk s t c) :
    Moved s (s.afterRun C k e ts) (dropped s t) := by
  have hnext := next_of_taskStep hc
  have ha : t.pc.todo = [] → Attends C s (s.afterRun C k e ts) := .of_next ht hnext
  obtain ⟨p, pc⟩ := t
  cases hnext with
  | requestChoked _ => exact .calm hO ht (ha rfl) rfl (returns_charge _ _)
  | findFull => exact .calm hO ht (ha rfl) rfl (returns_charge _ _)
  | lootNone => exact .calm hO ht (ha rfl) rfl (returns_charge _ _)
  | leaveLost _ => exact .calm hO ht (ha rfl) rfl (returns_charge _ _)
  | finishEnded _ => exact .calm hO ht (ha rfl) rfl (pcs_charge _ _)
  | saveRow => exact .calm hO ht (ha rfl) rfl (pcs_charge _ _)
  | leave _ => exact .exit hO ht (ha rfl) (returns_charge _ _)
  | quit _ => exact .exit hO ht (ha rfl) rfl
  | lootExitDropNext _ => exact .exit hO ht (ha rfl) rfl
  | lootExitDropGive _ => exact .exit hO ht (ha rfl) (List.append_nil _)
  | scanApply _ happ => exact (ha rfl).moved (.applied hO ht (ha rfl) happ rfl)
  | applied => exact (ha rfl).moved (.given hO ht (ha rfl) rfl)
  | give =>
      refine (ha rfl).moved (.given hO ht (ha rfl) ?_)
      simp [Pc.charge, Pc.held, Pc.checking]
  | relist => exact (ha rfl).moved (.restarted hO ht (ha rfl) hok rfl)
  | failed => exact (ha rfl).moved (.restarted hO ht (ha rfl) hok rfl)
  | retainTake _ _ _ =>
      rcases retain_cases hc with ⟨i, rfl, hsome, hpeer, ⟨he, -⟩ | ⟨he, -⟩⟩ | ⟨he, -⟩
      · cases he
        refine (ha rfl).moved (.taken hO ht (ha rfl) (hok hsome hpeer) hsome (by simp)
          (fun j => by simp [State.ing]) ?_)
        intro j
        simp [Pc.charge, Pc.held, Pc.checking]
      · cases he
      · cases he
  | retainPanic _ _ _ =>
      rcases retain_cases hc with ⟨i, rfl, hsome, hpeer, ⟨he, -⟩ | ⟨-, hst⟩⟩ | ⟨-, pc, hts, hpc⟩
      · cases he
      · -- a piece that a peer has is in status `Ing`, so the `unwrap` succeeds
        have hone := (hO.of_lists (hok hsome hpeer) hsome).2
        simp [State.ing, hst] at hone
      · cases hts
        exact absurd rfl hpc
  | remove =>
      refine (ha rfl).moved (.taken hO ht (ha rfl) hok.1 hok.2 (by simp)
        (fun j => by simp [State.ing]) ?_)
      intro j
      simp [Pc.charge, Pc.held, Pc.checking]
  | verifyPanic hle =>
      have hlt := hO.tasks _ (List.mem_of_getElem? ht) _ (List.mem_singleton.mpr rfl)
      omega
  | reject =>
      refine (ha rfl).moved (.released hO ht (ha rfl) (by simp) ?_ rfl)
      intro j
      rw [Effect.exec, ing_setUnderway]
      rfl
  | clear =>
      refine (ha rfl).moved (.released hO ht (ha rfl) (by simp) ?_ rfl)
      intro j
      rw [Effect.exec, ing_setUnderway]
      rfl
  | exitPause hi hsome =>
      refine ⟨State.afterRun_nextId, ?_, .exitPause hO ht hi hsome⟩
      intro q j
      exact (Nat.le_add_right _ _).trans_eq (attendance_exiting ht (by simp) q j)
  | exitSkip hi hnone =>
      refine ⟨State.afterRun_nextId, ?_, .exitSkip hO ht hi hnone⟩
      intro q j
      exact (Nat.le_add_right _ _).trans_eq (attendance_exiting ht rfl q j)
  | retainKeep _ => exact .calm hO ht (ha rfl) rfl (List.append_nil _)
  | retainEnd => exact .calm hO ht (ha rfl) rfl (List.append_nil _)
  | lootExitGive => exact .calm hO ht (ha rfl) rfl (List.append_nil _)
  | _ => exact .calm hO ht (ha rfl) rfl rfl

end Balance

/-! ## Actions -/

/-- An action that moves no piece: a message, or the end of a connection. -/
structure Quiet (s s' : State) : Prop where
  attendance : ∀ q j, s'.attendance q j ≤ 1
  known : ∀ q j, 0 < s'.attendance q j → q < s'.nextId
  peersWith : ∀ f i, s'.peersWith f i = s.peersWith f i
  underway : s'.underway = s.underway
  charges : s'.charges = s.charges

/-- What an action other than a restart does: the peers are counted once, and the pieces it
drops are out of balance. -/
structure Balances (s s' : State) (a : Act) : Prop where
  attendance : ∀ q j, s'.attendance q j ≤ 1
  known : ∀ q j, 0 < s'.attendance q j → q < s'.nextId
  balanced : ∃ lost, Balanced s s' lost ∧ (KeepGuard s a → lost = [])

section Action

variable {C : Config} {s s' : State} {a : Act} {k : ℕ} {t : Task}

theorem Quiet.balances (hq : Quiet s s') : Balances s s' a := by
  refine ⟨hq.attendance, hq.known, [], ?_, fun _ => rfl⟩
  intro i
  rw [State.owners, State.owners, State.ing, State.ing, State.listers, State.listers,
    hq.peersWith, hq.underway, hq.charges, List.count_nil, Nat.add_zero]

/-- Who is looked after stays bounded when nobody is looked after more. -/
theorem Owned.known_of_le (hO : Owned C s) (hnext : s'.nextId = s.nextId)
    (hle : ∀ q j, s'.attendance q j ≤ s.attendance q j) (q j : ℕ)
    (hpos : 0 < s'.attendance q j) : q < s'.nextId := by
  rw [hnext]
  exact hO.known q j (lt_of_lt_of_le hpos (hle q j))

theorem Quiet.of_attends (hO : Owned C s) (ha : Attends C s s')
    (hresp : ∀ q j, s'.response q j = s.response q j) (hund : s'.underway = s.underway)
    (hcharges : s'.charges = s.charges) : Quiet s s' := by
  refine ⟨fun q j => (ha.le q j).trans (hO.attendance q j), hO.known_of_le ha.nextId ha.le, ?_,
    hund, hcharges⟩
  intro f i
  ext q
  apply ha.mem_iff hO.responses
  rw [hresp]

theorem Moved.balances (hO : Owned C s) {lost : List ℕ} (hm : Moved s s' lost)
    (hlost : KeepGuard s a → lost = []) : Balances s s' a :=
  ⟨fun q j => (hm.attendance q j).trans (hO.attendance q j),
    hO.known_of_le hm.nextId hm.attendance, lost, hm.balanced, hlost⟩

/-- An action that only starts tasks, none of which has a piece. -/
theorem Quiet.spawned (hO : Owned C s) (hnext : s'.nextId = s.nextId)
    (hreg : s'.registered = s.registered) (hresp : ∀ q j, s'.response q j = s.response q j)
    (hund : s'.underway = s.underway) {ts : List Task} (htasks : s'.tasks = s.tasks ++ ts)
    (htodo : ∀ t ∈ ts, t.pc.todo = []) (hcharge : (ts.flatMap fun t => t.pc.charge) = []) :
    Quiet s s' := by
  have ha : Attends C s s' := by
    refine .of_eq hnext ?_
    intro q j
    rw [State.attendance, State.attendance, hreg, htasks, List.flatMap_append, flatMap_todoAt htodo,
      List.append_nil]
  refine .of_attends hO ha hresp hund ?_
  rw [State.charges, htasks, List.flatMap_append, hcharge, List.append_nil]
  rfl

/-- A new connection has no piece. -/
theorem Quiet.connect (hO : Owned C s) : Quiet s
    { s with
      peers := Function.update s.peers s.nextId .new
      registered := s.nextId :: s.registered
      nextId := s.nextId + 1
      clock := s.clock + 1 } := by
  generalize hs' : ({ s with
      peers := Function.update s.peers s.nextId .new
      registered := s.nextId :: s.registered
      nextId := s.nextId + 1
      clock := s.clock + 1 } : State) = s'
  have hatt : ∀ q j, s'.attendance q j = s.attendance q j + if s.nextId = q then 1 else 0 := by
    intro q j
    subst hs'
    simp only [State.attendance, List.count_cons, beq_iff_eq]
    omega
  have hzero : ∀ j, s.attendance s.nextId j = 0 := by
    intro j
    rcases Nat.eq_zero_or_pos (s.attendance s.nextId j) with h | h
    · exact h
    · exact absurd (hO.known _ _ h) (lt_irrefl _)
  have hnext : s'.nextId = s.nextId + 1 := by
    subst hs'
    rfl
  refine ⟨?_, ?_, ?_, by subst hs'; rfl, by subst hs'; rfl⟩
  · intro q j
    rw [hatt]
    by_cases hq : s.nextId = q
    · subst hq
      rw [hzero, if_pos rfl]
    · rw [if_neg hq]
      exact hO.attendance q j
  · intro q j hpos
    rw [hatt] at hpos
    rw [hnext]
    by_cases hq : s.nextId = q
    · omega
    · rw [if_neg hq, Nat.add_zero] at hpos
      have := hO.known q j hpos
      omega
  · intro f i
    ext q
    rw [mem_peersWith, mem_peersWith, hatt, hnext]
    by_cases hq : s.nextId = q
    · subst hq
      have hnone : s'.response s.nextId i = none := by
        subst hs'
        simp [State.response, Peer.new]
      simp [hnone]
    · have hsame : s'.response q i = s.response q i := by
        subst hs'
        simp [State.response, Ne.symm hq]
      have hlt : q < s.nextId + 1 ↔ q < s.nextId := by omega
      rw [hsame, if_neg hq, hlt]
      rfl

/-- `peer_exit` from outside the handlers. -/
theorem Quiet.peerExit (hO : Owned C s) {p : ℕ} (hp : p ∈ s.registered) : Quiet s
    (((Effect.deregister p).exec C s).spawn [⟨p, .exiting (List.range C.pieceNum)⟩]).tick := by
  have key : ∀ q j, (((Effect.deregister p).exec C s).spawn
      [⟨p, .exiting (List.range C.pieceNum)⟩]).tick.attendance q j =
        (s.registered.erase p).count q + (s.tasks.flatMap (Task.todoAt q)).count j +
          (Task.todoAt q ⟨p, .exiting (List.range C.pieceNum)⟩).count j := by
    intro q j
    show (s.registered.erase p).count q + ((s.tasks ++ [_]).flatMap (Task.todoAt q)).count j = _
    rw [List.flatMap_append, List.flatMap_singleton, List.count_append]
    omega
  have ha : Attends C s (((Effect.deregister p).exec C s).spawn
      [⟨p, .exiting (List.range C.pieceNum)⟩]).tick := by
    refine ⟨rfl, ?_, ?_⟩
    · intro q j
      have h := (attendance_exit (C := C) hp q j).1
      rw [key, State.attendance]
      omega
    · intro q j hj
      have h := (attendance_exit (C := C) hp q j).2 hj
      rw [key, State.attendance]
      omega
  refine .of_attends hO ha (fun _ _ => rfl) rfl ?_
  show ((s.tasks ++ [_]).flatMap fun t : Task => t.pc.charge) = _
  rw [List.flatMap_append, List.flatMap_singleton]
  exact List.append_nil _

/-- A message or the end of a connection moves no piece. -/
theorem Owned.quiet (hO : Owned C s) (ha : a.external = true) (hstep : Step C s a s') :
    Quiet s s' := by
  cases hstep with
  | connect => exact .connect hO
  | ignored _ =>
      exact .spawned hO rfl rfl (fun _ _ => rfl) rfl (List.append_nil _).symm (by simp) rfl
  | choke _ =>
      refine .spawned hO rfl rfl ?_ rfl (List.append_nil _).symm (by simp) rfl
      intro q j
      rw [State.response_tick]
      apply State.response_modifyPeer
      intro P
      rfl
  | message _ _ hf _ hpc =>
      refine .spawned hO rfl rfl (fun q j => s.response_modifyPeer hf _ q j) rfl rfl ?_ ?_
      · rcases hpc with rfl | rfl <;> simp [Pc.todo]
      · rcases hpc with rfl | rfl <;> rfl
  | block _ _ => exact .spawned hO rfl rfl (fun _ _ => rfl) rfl rfl (by simp [Pc.todo]) rfl
  | saveProgress => exact .spawned hO rfl rfl (fun _ _ => rfl) rfl rfl (by simp [Pc.todo]) rfl
  | peerExit hp => exact .peerExit hO hp
  | run _ _ => cases ha
  | abort _ _ _ => cases ha
  | restart _ => cases ha

/-- A task that can be aborted is not in the loop of `peer_exit`. -/
theorem Attends.abort (ht : s.tasks[k]? = some t) (hawait : t.pc.awaits = true) :
    Attends C s ({ s with tasks := replaceTask s.tasks k [] } : State).tick := by
  have htodo : t.pc.todo = [] := by
    cases hpc : t.pc with
    | exiting todo =>
        rw [hpc] at hawait
        cases hawait
    | _ => rfl
  exact Attends.run (e := .nop) ht rfl htodo (by simp)

/-- An aborted task drops the pieces it is in charge of. -/
theorem Balances.abort (hO : Owned C s) (ht : s.tasks[k]? = some t) (hawait : t.pc.awaits = true) :
    Balances s ({ s with tasks := replaceTask s.tasks k [] } : State).tick (.abort k) := by
  have ha := Attends.abort (C := C) ht hawait
  have hb : Balanced s ({ s with tasks := replaceTask s.tasks k [] } : State).tick t.pc.charge := by
    intro i
    have hcount := count_flatMap_replaceTask (fun t => t.pc.charge) i [] ht
    have hlist : ({ s with tasks := replaceTask s.tasks k [] } : State).tick.listers i =
        s.listers i := ha.listers_eq hO.responses fun _ => rfl
    have hing : ({ s with tasks := replaceTask s.tasks k [] } : State).tick.ing i = s.ing i := rfl
    rw [State.owners, State.owners, hlist, hing]
    simp only [State.charges, State.tick_tasks]
    rw [List.flatMap_nil, List.count_nil] at hcount
    omega
  exact (ha.moved hb).balances hO fun hg => hg t ht

/-- **One action keeps the balance**, as long as it moves only what is there. -/
theorem Owned.balances (hO : Owned C s) (hg : AssignGuard s a) (hstep : step C s a = some s')
    (ha : a ≠ .restart) : Balances s s' a := by
  by_cases hext : a.external = true
  · exact (hO.quiet hext (step_cases hstep)).balances
  · cases step_cases hstep with
    | run ht hc => exact (hO.run ht hc (hg _ ht)).balances hO fun hk => hk _ ht
    | abort ht _ hawait => exact .abort hO ht hawait
    | restart _ => exact absurd rfl ha
    | ignored h => exact absurd h hext
    | message h => exact absurd h hext
    | _ => exact absurd rfl hext

end Action

/-! ## Saved statuses -/

/-- The statuses a task is about to save. -/
def Pc.saving : Pc → List (ℕ × PieceStatus)
  | saveBytefield _ _ ub | saveDownload _ _ ub _ | saveStatus _ _ ub _ _ => ub
  | saveRow _ _ row => row.underway
  | _ => []

/-- No status is `Ing`. -/
def AllPaused (ub : List (ℕ × PieceStatus)) : Prop := ∀ q ∈ ub, q.2.isIng = false

section Saved

variable {C : Config} {s s' : State} {a : Act}

theorem savedUnderway_paused (C : Config) (s : State) : AllPaused (s.savedUnderway C) := by
  intro q hq
  obtain ⟨i, -, hval⟩ := List.mem_filterMap.mp hq
  obtain ⟨st, -, rfl⟩ := Option.map_eq_some_iff.mp hval
  rfl

/-- `save_progress` turns `Ing` into `Pause`. -/
theorem paused_next {p : ℕ} {pc : Pc} {e : Effect} {ts : List Task} (hrow : AllPaused s.row.underway)
    (hpc : AllPaused pc.saving) (hnext : Next C s p pc e ts) :
    AllPaused (e.exec C s).row.underway ∧ ∀ t ∈ ts, AllPaused t.pc.saving := by
  have hnil : AllPaused [] := by
    intro q hq
    cases hq
  rw [Effect.exec_row]
  cases hnext with
  | saveRow => exact ⟨hpc, forall_mem_pcs (fun _ _ => hnil) hnil⟩
  | saveUnderway => exact ⟨hrow, List.forall_mem_singleton.mpr (savedUnderway_paused C s)⟩
  | saveBytefield => exact ⟨hrow, List.forall_mem_singleton.mpr hpc⟩
  | saveDownload => exact ⟨hrow, List.forall_mem_singleton.mpr hpc⟩
  | saveStatus => exact ⟨hrow, List.forall_mem_singleton.mpr hpc⟩
  | requestChoked _ => exact ⟨hrow, forall_mem_returns fun _ _ => hnil⟩
  | findFull => exact ⟨hrow, forall_mem_returns fun _ _ => hnil⟩
  | lootNone => exact ⟨hrow, forall_mem_returns fun _ _ => hnil⟩
  | leaveLost _ => exact ⟨hrow, forall_mem_returns fun _ _ => hnil⟩
  | finishEnded _ => exact ⟨hrow, forall_mem_pcs (fun _ _ => hnil) hnil⟩
  | leave _ =>
      exact ⟨hrow, List.forall_mem_cons.mpr ⟨hnil, forall_mem_returns fun _ _ => hnil⟩⟩
  | lootExitDropNext _ =>
      exact ⟨hrow, List.forall_mem_cons.mpr ⟨hnil, List.forall_mem_singleton.mpr hnil⟩⟩
  | lootExitDropGive _ =>
      exact ⟨hrow, List.forall_mem_cons.mpr ⟨hnil, List.forall_mem_singleton.mpr hnil⟩⟩
  | _ =>
      -- the task ends, or goes on without a copy
      first
      | exact ⟨hrow, List.forall_mem_singleton.mpr hnil⟩
      | exact ⟨hrow, List.forall_mem_nil _⟩

/-- No saved status is `Ing`. -/
theorem paused_step (hstep : step C s a = some s') (hrow : AllPaused s.row.underway)
    (ht : ∀ t ∈ s.tasks, AllPaused t.pc.saving) :
    AllPaused s'.row.underway ∧ ∀ t ∈ s'.tasks, AllPaused t.pc.saving := by
  refine Recorder.step_invariant (S := fun s _ => AllPaused s.row.underway)
    (T := fun _ _ t => AllPaused t.pc.saving) (Recorder.silent_step hstep) hrow ht ?_
    (fun _ _ ht => ht) ?_ ?_ (fun _ _ => hrow)
  · intro s s' _ hd hrow
    rw [hd.row]
    exact hrow
  · intro t hstart q hq
    cases hstart <;> cases hq
  · intro k c t e ts _ _ hmem hnext
    obtain ⟨hrow', hts⟩ := paused_next hrow (ht t hmem) hnext
    exact ⟨hrow', ht, hts⟩

end Saved

/-! ## Runs -/

/-- The invariant, with the rows a restart can load. -/
structure OwnedInv (C : Config) (s : State) : Prop where
  owned : Owned C s
  row : AllPaused s.row.underway
  saving : ∀ t ∈ s.tasks, AllPaused t.pc.saving

section Runs

variable {C : Config} {s s' : State} {a : Act}

theorem Balances.owned (hO : Owned C s) (hb : Balances s s' a) (hr : s'.ResponsesInRange C)
    (ht : ∀ t ∈ s'.tasks, t.InRange C) : Owned C s' := by
  refine ⟨hb.attendance, hb.known, ?_, hr, ht⟩
  intro i
  obtain ⟨lost, hbal, -⟩ := hb.balanced
  have h := hbal i
  have hle := hO.owners i
  omega

/-- After a restart nobody has a piece, and none is in status `Ing`. -/
theorem owners_load {row : Row} (hrow : AllPaused row.underway) (disk : Loc → ℕ → Option UInt8)
    (clock i : ℕ) :
    (State.load row disk clock).owners i = 0 ∧ (State.load row disk clock).ing i = 0 := by
  refine ⟨rfl, ?_⟩
  unfold State.ing
  cases hst : (State.load row disk clock).underway i with
  | none => rfl
  | some st => simp [hrow _ (mem_underway_of_load hst)]

theorem Owned.load {row : Row} (hrow : AllPaused row.underway) (disk : Loc → ℕ → Option UInt8)
    (clock : ℕ) : Owned C (.load row disk clock) := by
  refine ⟨fun _ _ => Nat.zero_le _, ?_, ?_, ?_, ?_⟩
  · intro p i hpos
    cases hpos
  · intro i
    rw [(owners_load hrow disk clock i).1]
    exact Nat.zero_le _
  · intro q j hsome
    cases hsome
  · intro t ht
    cases ht

/-- **One action keeps the owners unique.** -/
theorem OwnedInv.step (hI : OwnedInv C s) (hg : AssignGuard s a) (hstep : step C s a = some s') :
    OwnedInv C s' := by
  obtain ⟨hrow, hsaving⟩ := paused_step hstep hI.row hI.saving
  obtain ⟨hr, ht⟩ := inRange_step (Recorder.silent_step hstep) hI.owned.responses hI.owned.tasks
  refine ⟨?_, hrow, hsaving⟩
  by_cases ha : a = .restart
  · subst ha
    obtain ⟨-, rfl⟩ := step_restart hstep
    exact Owned.load hI.row s.disk (s.clock + 1)
  · exact (hI.owned.balances hg hstep ha).owned hI.owned hr ht

/-- One action that drops nothing keeps an owner for every piece in status `Ing`. -/
theorem OwnedInv.kept (hI : OwnedInv C s) (hg : AssignGuard s a) (hk : KeepGuard s a)
    (hstep : Swarm.step C s a = some s') (heq : ∀ i, s.owners i = s.ing i) (i : ℕ) :
    s'.owners i = s'.ing i := by
  by_cases ha : a = .restart
  · subst ha
    obtain ⟨-, rfl⟩ := step_restart hstep
    obtain ⟨ho, hi⟩ := owners_load hI.row s.disk (s.clock + 1) i
    exact ho.trans hi.symm
  · obtain ⟨lost, hbal, hlost⟩ := (hI.owned.balances hg hstep ha).balanced
    have h := hbal i
    rw [hlost hk, List.count_nil, heq i] at h
    omega

theorem OwnedInv.load {row : Row} (hrow : AllPaused row.underway) (disk : Loc → ℕ → Option UInt8)
    (clock : ℕ) : OwnedInv C (.load row disk clock) := by
  refine ⟨.load hrow disk clock, hrow, ?_⟩
  intro t ht
  cases ht

/-- No task is moving the piece from one structure to another. -/
def State.Quiescent (s : State) (i : ℕ) : Prop :=
  ∀ t ∈ s.tasks, i ∉ t.pc.held.map Prod.fst ∧ i ∉ t.pc.todo

instance (s : State) (i : ℕ) : Decidable (s.Quiescent i) := by
  unfold State.Quiescent
  infer_instance

/-- The condition of `no_orphan` on an action. -/
def OrphanGuard (s : State) (a : Act) : Prop := AssignGuard s a ∧ KeepGuard s a

instance (s : State) (a : Act) : Decidable (OrphanGuard s a) := by
  unfold OrphanGuard
  infer_instance

theorem owners_run {row : Row} (hrow : AllPaused row.underway) {disk : Loc → ℕ → Option UInt8}
    {clock : ℕ} {as : List Act}
    (hrun : Transition.Run (step C) OrphanGuard (.load row disk clock) as s) :
    OwnedInv C s ∧ ∀ i, s.owners i = s.ing i := by
  refine hrun.invariant (I := fun s => OwnedInv C s ∧ ∀ i, s.owners i = s.ing i)
    ⟨.load hrow disk clock, ?_⟩ ?_
  · intro i
    obtain ⟨ho, hi⟩ := owners_load hrow disk clock i
    exact ho.trans hi.symm
  · rintro s a s' ⟨hI, heq⟩ ⟨hg, hk⟩ hstep
    exact ⟨hI.step hg hstep, hI.kept hg hk hstep heq⟩

/-- When no exit is at the piece, the peers that count are the registered ones. -/
theorem mem_listers_of_quiescent (hO : Owned C s) {i : ℕ} (hq : s.Quiescent i) (p : ℕ) :
    p ∈ s.listers i ↔ p ∈ s.registered ∧ (s.response p i).isSome = true := by
  have hzero : (s.tasks.flatMap (Task.todoAt p)).count i = 0 := by
    rw [List.count_eq_zero, List.mem_flatMap]
    rintro ⟨t, ht, hi⟩
    rw [Task.todoAt] at hi
    split at hi
    · exact (hq t ht).2 hi
    · cases hi
  have hatt : 0 < s.attendance p i ↔ p ∈ s.registered := by
    rw [State.attendance, hzero, Nat.add_zero, List.count_pos_iff]
  rw [mem_listers, hatt]
  constructor
  · exact fun h => h.2
  · exact fun h => ⟨hO.known p i (hatt.mpr h.1), h⟩

/-- A piece in the charge of a task that moves nothing is being checked. -/
theorem checking_of_quiescent {i : ℕ} (hq : s.Quiescent i) (hi : 0 < s.charges.count i) :
    ∃ t ∈ s.tasks, i ∈ t.pc.checking := by
  obtain ⟨t, ht, hmem⟩ := List.mem_flatMap.mp (List.count_pos_iff.mp hi)
  rcases List.mem_append.mp hmem with hheld | hcheck
  · exact absurd hheld (hq t ht).1
  · exact ⟨t, ht, hcheck⟩

/-- `apply_download_piece` hands out a piece that is neither verified nor in status `Ing`. -/
theorem applyOffset_isSome {i : ℕ} (hlen : s.bytefield.length = C.info.bitfieldLen)
    (hi : i < C.pieceNum) (hbit : get s.bytefield i = false) (hing : s.ing i = 0) :
    (s.applyOffset i).isSome = true := by
  have hbytes : C.info.bitfieldLen = (C.pieceNum + 7) / 8 := rfl
  have hin : (bitmapOffset i).1 < s.bytefield.length := by
    rw [hlen, hbytes]
    show i / 8 < _
    omega
  unfold State.applyOffset
  rw [if_pos ⟨hin, hbit⟩]
  unfold State.ing at hing
  cases hst : s.underway i with
  | none => rfl
  | some st =>
      cases st with
      | pause offset => rfl
      | ing offset => simp [hst, PieceStatus.isIng] at hing

/-- **No orphaned piece.**  In every run whose actions move only what is there and drop
nothing, a piece that is not verified and that no task is moving is either in status `Ing` and
in `response_pieces` of exactly one registered peer or being checked, or
`apply_download_piece` can hand it out. -/
theorem no_orphan {row : Row} {passed₀ : ℕ → Bool} (hvalid : row.Valid C passed₀)
    (hrow : AllPaused row.underway) {disk : Loc → ℕ → Option UInt8} {clock : ℕ} {as : List Act}
    (hrun : Transition.Run (step C) OrphanGuard (.load row disk clock) as s) {i : ℕ}
    (hi : i < C.pieceNum) (hbit : get s.bytefield i = false) (hq : s.Quiescent i) :
    ((∃ offset, s.underway i = some (.ing offset)) →
        (∃! p, p ∈ s.registered ∧ (s.response p i).isSome = true) ∨
          ∃ t ∈ s.tasks, i ∈ t.pc.checking) ∧
      ((¬ ∃ offset, s.underway i = some (.ing offset)) → (s.applyOffset i).isSome = true) := by
  obtain ⟨hI, heq⟩ := owners_run hrow hrun
  constructor
  · rintro ⟨offset, hing⟩
    have hone : s.owners i = 1 := by
      rw [heq, State.ing, hing]
      rfl
    rcases Nat.eq_zero_or_pos (s.charges.count i) with hzero | hpos
    · -- the owner is a peer
      rw [State.owners, hzero, Nat.add_zero] at hone
      obtain ⟨p, hp⟩ := Finset.card_eq_one.mp hone
      left
      refine ⟨p, ?_, ?_⟩
      · show p ∈ s.registered ∧ (s.response p i).isSome = true
        rw [← mem_listers_of_quiescent hI.owned hq, hp]
        exact Finset.mem_singleton_self p
      · intro q hq'
        rw [← mem_listers_of_quiescent hI.owned hq, hp] at hq'
        exact Finset.mem_singleton.mp hq'
    · exact Or.inr (checking_of_quiescent hq hpos)
  · intro hnot
    have hlen : s.bytefield.length = C.info.bitfieldLen := by
      obtain ⟨passed, hobs⟩ := hrun.observed (verified.record C) passed₀
      exact (Verified.run hvalid (hobs.mono fun _ _ _ => trivial)).1.bytefield.length
    apply applyOffset_isSome hlen hi hbit
    unfold State.ing
    cases hst : s.underway i with
    | none => rfl
    | some st =>
        cases st with
        | pause offset => rfl
        | ing offset => exact absurd ⟨offset, hst⟩ hnot

end Runs

/-- In the download of one piece, the peer that was assigned the piece is its only owner. -/
theorem no_orphan_onePiece :
    ∃ s : State,
      Transition.Run (step onePiece) OrphanGuard (.load (.added onePiece) (fun _ _ => none) 0)
        onePieceAssigned s ∧
      s.underway 0 = some (.ing 0) ∧
      ∃! p, p ∈ s.registered ∧ (s.response p 0).isSome = true := by
  have hexec : (Transition.execIf (step onePiece) OrphanGuard
      (.load (.added onePiece) (fun _ _ => none) 0) onePieceAssigned).map
        (fun s => (s.underway 0, get s.bytefield 0, s.tasks)) =
          some (some (.ing 0), false, []) := by decide +kernel
  obtain ⟨s, hrun, hview⟩ := Transition.Run.exists_of_execIf hexec
  simp only [Prod.mk.injEq] at hview
  obtain ⟨hing, hbit, htasks⟩ := hview
  have hq : s.Quiescent 0 := by
    intro t ht
    rw [htasks] at ht
    cases ht
  have hpaused : AllPaused (Row.added onePiece).underway := by
    intro q hq
    cases hq
  obtain ⟨howner, -⟩ := no_orphan (Row.added_valid onePiece) hpaused hrun (by decide) hbit hq
  refine ⟨s, hrun, hing, ?_⟩
  rcases howner ⟨0, hing⟩ with hone | ⟨t, ht, -⟩
  · exact hone
  · rw [htasks] at ht
    cases ht

/-- The peer delivers the piece and leaves while its hash is being checked. -/
def orphanRun : List Act :=
  onePieceAssigned ++
  ([.piece 0 [0, 0, 0, 0, 0, 0, 0, 0, 1, 2, 3, 4], .run 0 .go, .run 0 .go, .run 0 (.flag false),
    .run 0 .go, .run 0 (.io .ok), .run 0 .go, .run 0 .go, .run 0 .go, .run 0 .go, .run 0 .go,
    .run 0 .go, .peerExit 0, .run 1 (.entry 0), .run 1 .go, .abort 0] : List Act)

/-- The check is aborted with its connection: the piece stays in status `Ing`, nobody has it,
and it cannot be handed out again. -/
theorem orphaned_by_abort :
    ∃ s : State,
      Transition.FreeRun (step onePiece) (.added onePiece fun _ _ => none) orphanRun s ∧
      s.tasks = [] ∧ s.registered = [] ∧ get s.bytefield 0 = false ∧
      s.underway 0 = some (.ing 0) ∧ s.applyOffset 0 = none := by
  have hexec : (Transition.exec (step onePiece) (.added onePiece fun _ _ => none) orphanRun).map
      (fun s => (s.tasks, s.registered, get s.bytefield 0, s.underway 0, s.applyOffset 0)) =
        some ([], [], false, some (.ing 0), none) := by decide +kernel
  obtain ⟨s, hrun, hview⟩ := Transition.Run.exists_of_exec hexec
  simp only [Prod.mk.injEq] at hview
  exact ⟨s, hrun, hview.1, hview.2.1, hview.2.2.1, hview.2.2.2.1, hview.2.2.2.2⟩

end Swarm
