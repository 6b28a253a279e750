/-
# The removal of a complete download

`TaskControl::finish` takes the task out of the task manager and saves its row.  Two paths
lead there: `on_verify_piece_success`, whose `check_finished` sets the status to `Finished`
first, and `try_loot_slow_peer`, which tests the bitmap and calls `on_piece_download_finished`
without touching the status.

The history notes when the task was removed with all bits set, and the rows that were saved.
A row whose copy was begun after the removal has status `Finished` when no handler of the
second path removes the task before the status is set (`persisted_of_statusFirst`); without
that condition it can have status `Download` (`persisted_as_download`).
-/
import Dorodoro.Completion

open LexicalPath Bitmap

namespace Swarm

/-! ## The history -/

instance (C : Config) (bytefield : Bytes) : Decidable (AllBits C bytefield) := by
  unfold AllBits
  infer_instance

/-- A row `save_progress` has written: where it returned to, the clock when it began, and the
row. -/
structure SavedRow where
  ret : Ret
  start : ℕ
  row : Row
  deriving DecidableEq

/-- The clock of the removal with all bits set, and the rows saved, since the last restart. -/
structure Removals where
  removed : Option ℕ
  saved : List SavedRow

/-- The history of a task that has just been loaded. -/
def Removals.none : Removals := ⟨Option.none, []⟩

/-- The history notes the removal of a task that is there and complete, and every save. -/
def removals (C : Config) : Recorder Removals where
  onRun s t e _ h :=
    match t.pc, e with
    | .finish _, .endTask =>
        if s.ended = false ∧ AllBits C s.bytefield then { h with removed := some s.clock } else h
    | .saveRow r start row, _ => { h with saved := h.saved ++ [⟨r, start, row⟩] }
    | _, _ => h
  onRestart _ _ := .none

/-- A handler of `on_piece_download_finished` removes a complete task only when the status is
already `Finished`. -/
def StatusFirst (C : Config) (x : State × Removals) (a : Act) : Prop :=
  match x.1.running a with
  | some ⟨_, .finish (.back _)⟩ =>
      x.1.ended = false → AllBits C x.1.bytefield → x.1.status = .finished
  | _ => True

instance (C : Config) (x : State × Removals) (a : Act) : Decidable (StatusFirst C x a) := by
  unfold StatusFirst
  split <;> infer_instance

/-! ## The invariant -/

/-- A row whose copy began after the removal has status `Finished`. -/
def Removals.Persists (h : Removals) (start : ℕ) (row : Row) : Prop :=
  ∀ c, h.removed = some c → c < start → row.status = .finished

/-- The invariant of the shared state. -/
structure Removal (s : State) (h : Removals) : Prop where
  status : ∀ c, h.removed = some c → s.status = .finished
  saved : ∀ e ∈ h.saved, e.start ≤ s.clock ∧ h.Persists e.start e.row

/-- What a task relies on. -/
def RemovalTask (s : State) (h : Removals) (t : Task) : Prop :=
  match t.pc with
  | .finish (.back _) => True
  | .finish _ => s.status = .finished
  | .saveBytefield _ start _ | .saveDownload _ start _ _ | .saveStatus _ start _ _ _ =>
      start ≤ s.clock
  | .saveRow _ start row => start ≤ s.clock ∧ h.Persists start row
  | _ => True

variable {C : Config} {s s' : State} {h h' : Removals} {a : Act}

/-- No access takes the status `Finished` back. -/
theorem status_exec (e : Effect) (hst : s.status = .finished) :
    (e.exec C s).status = .finished := by
  rw [Effect.exec_status]
  split
  · rfl
  · exact hst

theorem Removal.of_le (hst : s.status = .finished → s'.status = .finished)
    (hc : s.clock ≤ s'.clock) (hS : Removal s h) : Removal s' h := by
  refine ⟨fun c hr => hst (hS.status c hr), ?_⟩
  intro e he
  exact ⟨le_trans (hS.saved e he).1 hc, (hS.saved e he).2⟩

theorem RemovalTask.of_le {t : Task} (hst : s.status = .finished → s'.status = .finished)
    (hc : s.clock ≤ s'.clock) (ht : RemovalTask s h t) : RemovalTask s' h t := by
  obtain ⟨p, pc⟩ := t
  cases pc with
  | finish r =>
      cases r with
      | back k => trivial
      | done => exact hst ht
      | after => exact hst ht
  | saveBytefield r start ub => exact le_trans ht hc
  | saveDownload r start ub bytefield => exact le_trans ht hc
  | saveStatus r start ub bytefield download => exact le_trans ht hc
  | saveRow r start row => exact ⟨le_trans ht.1 hc, ht.2⟩
  | _ => trivial

/-- A removal now says nothing about a copy that was begun before. -/
theorem Removals.persists_remove {start c : ℕ} {row : Row} (hle : start ≤ c) :
    Persists { h with removed := some c } start row := by
  intro c' hc' hlt
  cases hc'
  omega

/-- The removal itself: the status is set, and every save so far was begun before. -/
theorem Removal.remove (hS : Removal s h) (hst : s.status = .finished) :
    Removal s { h with removed := some s.clock } := by
  refine ⟨fun _ _ => hst, ?_⟩
  intro e he
  obtain ⟨hle, -⟩ := hS.saved e he
  exact ⟨hle, Removals.persists_remove hle⟩

theorem RemovalTask.remove {t : Task} (ht : RemovalTask s h t) :
    RemovalTask s { h with removed := some s.clock } t := by
  obtain ⟨p, pc⟩ := t
  cases pc with
  | saveRow r start row => exact ⟨ht.1, Removals.persists_remove ht.1⟩
  | finish r => cases r <;> exact ht
  | _ => exact ht

/-- A save of a row that a task relies on. -/
theorem Removal.save {r : Ret} {start : ℕ} {row : Row} (hS : Removal s h) (hle : start ≤ s.clock)
    (hp : h.Persists start row) : Removal s { h with saved := h.saved ++ [⟨r, start, row⟩] } := by
  refine ⟨hS.status, ?_⟩
  intro e he
  rcases List.mem_append.mp he with he | he
  · exact hS.saved e he
  · cases List.mem_singleton.mp he
    exact ⟨hle, hp⟩

/-- What one step of a task does: the history it leaves is in order, and so is what the task
goes on with. -/
theorem Removal.next {t : Task} {e : Effect} {ts : List Task} (hS : Removal s h)
    (hT : ∀ t ∈ s.tasks, RemovalTask s h t) (ht : t ∈ s.tasks)
    (hg : ∀ k, t.pc = .finish (.back k) → s.ended = false → AllBits C s.bytefield →
      s.status = .finished)
    (hnext : Next C s t.peer t.pc e ts) :
    Removal s ((removals C).onRun s t e ts h) ∧
      (∀ t' ∈ s.tasks, RemovalTask s ((removals C).onRun s t e ts h) t') ∧
      ∀ t' ∈ ts, RemovalTask s ((removals C).onRun s t e ts h) t' := by
  have htask := hT t ht
  obtain ⟨p, pc⟩ := t
  cases hnext with
  | @finish r =>
      simp only [removals]
      split
      · next hcond =>
          have hst : s.status = .finished := by
            cases r with
            | back k => exact hg k rfl hcond.1 hcond.2
            | done => exact htask
            | after => exact htask
          exact ⟨hS.remove hst, fun t' ht' => (hT t' ht').remove,
            List.forall_mem_singleton.mpr trivial⟩
      · exact ⟨hS, hT, List.forall_mem_singleton.mpr trivial⟩
  | saveRow =>
      refine ⟨hS.save htask.1 htask.2, ?_, forall_mem_pcs (fun _ _ => trivial) trivial⟩
      intro t' ht'
      exact hT t' ht'
  | saveUnderway => exact ⟨hS, hT, List.forall_mem_singleton.mpr le_rfl⟩
  | saveBytefield => exact ⟨hS, hT, List.forall_mem_singleton.mpr htask⟩
  | saveDownload => exact ⟨hS, hT, List.forall_mem_singleton.mpr htask⟩
  | saveStatus =>
      -- the status is read here: after a removal it is `Finished`
      exact ⟨hS, hT, List.forall_mem_singleton.mpr ⟨htask, fun c hc _ => hS.status c hc⟩⟩
  | afterFinish hst => exact ⟨hS, hT, List.forall_mem_singleton.mpr hst⟩
  | finishEnded _ => exact ⟨hS, hT, forall_mem_pcs (fun _ _ => trivial) trivial⟩
  | requestChoked _ => exact ⟨hS, hT, forall_mem_returns fun _ _ => trivial⟩
  | findFull => exact ⟨hS, hT, forall_mem_returns fun _ _ => trivial⟩
  | lootNone => exact ⟨hS, hT, forall_mem_returns fun _ _ => trivial⟩
  | leaveLost _ => exact ⟨hS, hT, forall_mem_returns fun _ _ => trivial⟩
  | leave _ =>
      refine ⟨hS, hT, ?_⟩
      exact List.forall_mem_cons.mpr ⟨trivial, forall_mem_returns fun _ _ => trivial⟩
  | lootExitDropNext _ =>
      exact ⟨hS, hT, List.forall_mem_cons.mpr
        ⟨trivial, List.forall_mem_singleton.mpr trivial⟩⟩
  | lootExitDropGive _ =>
      exact ⟨hS, hT, List.forall_mem_cons.mpr
        ⟨trivial, List.forall_mem_singleton.mpr trivial⟩⟩
  | _ =>
      -- the task ends, or goes on where it relies on nothing
      first
      | exact ⟨hS, hT, List.forall_mem_singleton.mpr trivial⟩
      | exact ⟨hS, hT, List.forall_mem_nil _⟩

/-- The guard, at the task that runs. -/
theorem StatusFirst.status {k : ℕ} {c : Choice} {t : Task} (hg : StatusFirst C (s, h) (.run k c))
    (ht : s.tasks[k]? = some t) (m : Option Msg) (hpc : t.pc = .finish (.back m))
    (hended : s.ended = false) (hall : AllBits C s.bytefield) : s.status = .finished := by
  obtain ⟨p, pc⟩ := t
  subst hpc
  simp only [StatusFirst, State.running, ht] at hg
  exact hg hended hall

/-- **One action keeps the invariant.** -/
theorem Removal.step (hg : StatusFirst C (s, h) a)
    (hstep : (removals C).step C (s, h) a = some (s', h')) (hS : Removal s h)
    (hT : ∀ t ∈ s.tasks, RemovalTask s h t) :
    Removal s' h' ∧ ∀ t ∈ s'.tasks, RemovalTask s' h' t := by
  refine (removals C).step_invariant hstep hS hT ?_ ?_ ?_ ?_ ?_
  · intro s s' h hd hS
    exact hS.of_le (fun hst => hd.status.trans hst) hd.clock
  · intro s s' h t hd _ ht
    exact ht.of_le (fun hst => hd.status.trans hst) hd.clock
  · intro t hstart
    cases hstart <;> trivial
  · rintro k c t e ts rfl hk hmem hnext
    obtain ⟨hS', hT', hts⟩ := hS.next hT hmem (hg.status hk) hnext
    have hst : s.status = .finished → (e.exec C s).status = .finished := status_exec e
    have hc : s.clock ≤ (e.exec C s).clock := le_of_eq (Effect.exec_clock _ _ e).symm
    exact ⟨hS'.of_le hst hc, fun t' ht' => (hT' t' ht').of_le hst hc,
      fun t' ht' => (hts t' ht').of_le hst hc⟩
  · intro _ _
    refine ⟨fun c hc => ?_, fun e he => ?_⟩
    · cases hc
    · cases he

/-! ## Runs -/

theorem Removal.run {bytefield : Bytes} {row : Row} {disk : Loc → ℕ → Option UInt8} {clock : ℕ}
    {as : List Act} {x : State × Removals}
    (hrun : Transition.Run ((removals C).step C) (StatusFirst C)
      (.boot bytefield row disk clock, .none) as x) :
    Removal x.1 x.2 ∧ ∀ t ∈ x.1.tasks, RemovalTask x.1 x.2 t := by
  refine hrun.invariant
    (I := fun x => Removal x.1 x.2 ∧ ∀ t ∈ x.1.tasks, RemovalTask x.1 x.2 t) ⟨⟨?_, ?_⟩, ?_⟩ ?_
  · intro c hc
    cases hc
  · intro e he
    cases he
  · intro t ht
    cases ht
  · rintro ⟨s, h⟩ a ⟨s', h'⟩ ⟨hS, hT⟩ hg hstep
    exact Removal.step hg hstep hS hT

/-- **Completed means persisted as finished.**  In every run, from any row, whose removals by
`on_piece_download_finished` find the status set: after the removal of the complete task,
every row whose copy is begun, the one saved for the removal among them, has status
`Finished`. -/
theorem persisted_of_statusFirst {bytefield : Bytes} {row : Row}
    {disk : Loc → ℕ → Option UInt8} {clock : ℕ} {as : List Act} {s : State} {h : Removals}
    (hrun : Transition.Run ((removals C).step C) (StatusFirst C)
      (.boot bytefield row disk clock, .none) as (s, h)) {c : ℕ} (hc : h.removed = some c) :
    ∀ e ∈ h.saved, c < e.start → e.row.status = .finished := by
  obtain ⟨hS, -⟩ := Removal.run hrun
  intro e he hlt
  exact (hS.saved e he).2 c hc hlt

/-- The run of `onePieceRun`, to the save of the removal. -/
def onePieceSaved : List Act := onePieceRun ++ List.replicate 5 (.run 0 .go)

/-- The download of one piece is removed by `on_verify_piece_success`, and saved as finished
for it. -/
theorem persisted_onePiece :
    ∃ x : State × Removals, ∃ c,
      Transition.Run ((removals onePiece).step onePiece) (StatusFirst onePiece)
        (.boot (Row.added onePiece).bytefield (.added onePiece) (fun _ _ => none) 0, .none)
        onePieceSaved x ∧
      x.2.removed = some c ∧ (∃ e ∈ x.2.saved, e.ret = .done ∧ c < e.start) ∧
      ∀ e ∈ x.2.saved, c < e.start → e.row.status = .finished := by
  have hexec : (Transition.execIf ((removals onePiece).step onePiece) (StatusFirst onePiece)
      (.boot (Row.added onePiece).bytefield (.added onePiece) (fun _ _ => none) 0, .none)
      onePieceSaved).map
        (fun x => (x.2.removed, x.2.saved.map fun e => (e.ret, e.start))) =
        some (some 35, [(.after, 29), (.done, 36)]) := by decide +kernel
  obtain ⟨⟨s, h⟩, hrun, hview⟩ := Transition.Run.exists_of_execIf hexec
  simp only [Prod.mk.injEq] at hview
  refine ⟨(s, h), 35, hrun, hview.1, ?_, persisted_of_statusFirst hrun hview.1⟩
  have hmem : (Ret.done, 36) ∈ h.saved.map fun e => (e.ret, e.start) := by
    rw [hview.2]
    decide
  obtain ⟨e, he, hpair⟩ := List.mem_map.mp hmem
  simp only [Prod.mk.injEq] at hpair
  exact ⟨e, he, hpair.1, by rw [hpair.2]; decide⟩

/-- The handler of the only block has set the bit and not yet run `check_finished`, when the
handler of an `UnChoke` finds nothing to ask for and reaches `try_loot_slow_peer`. -/
def lootFirstRun : List Act :=
  onePieceAssigned ++
  ([.piece 0 [0, 0, 0, 0, 0, 0, 0, 0, 1, 2, 3, 4], .run 0 .go, .run 0 .go, .run 0 (.flag false),
    .run 0 .go, .run 0 (.io .ok), .run 0 .go, .run 0 .go, .run 0 .go, .run 0 .go, .run 0 .go,
    .run 0 .go, .run 0 (.flag true), .run 0 .go,
    .unChoke 0, .run 1 .go, .run 1 .go, .run 1 (.flag true), .run 1 .go, .run 1 .go,
    .run 1 (.flag false), .run 1 .go, .run 1 .go, .run 1 .go, .run 1 .go, .run 1 .go, .run 1 .go,
    .run 1 .go] : List Act)

/-- The complete task is removed, its row is saved with status `Download`, and a restart
loads it again. -/
theorem persisted_as_download :
    ∃ x : State × Removals,
      Transition.FreeRun ((removals onePiece).step onePiece)
        (.boot (Row.added onePiece).bytefield (.added onePiece) (fun _ _ => none) 0, .none)
        lootFirstRun x ∧
      x.2.removed = some 34 ∧
      x.2.saved = [⟨.back none, 35, ⟨[128], [(0, .pause 0)], 4, .download⟩⟩] ∧
      (step onePiece x.1 .restart).isSome = true := by
  have hexec : (Transition.exec ((removals onePiece).step onePiece)
      (.boot (Row.added onePiece).bytefield (.added onePiece) (fun _ _ => none) 0, .none)
      lootFirstRun).map
        (fun x => (x.2.removed, x.2.saved, (step onePiece x.1 .restart).isSome)) =
        some (some 34, [⟨.back none, 35, ⟨[128], [(0, .pause 0)], 4, .download⟩⟩], true) := by
    decide +kernel
  obtain ⟨x, hrun, hview⟩ := Transition.Run.exists_of_exec hexec
  simp only [Prod.mk.injEq] at hview
  exact ⟨x, hrun, hview.1, hview.2.1, hview.2.2⟩

end Swarm
