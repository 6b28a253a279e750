/-
# Completion of a download

A bit of the bitmap stands for a piece whose hash was checked, and the task ends, or its
status becomes `Finished`, only when all bits are set.

The history is the set of pieces for which `Store::checkout` has returned `Ok(true)`.  The
invariant `Verified` is kept from every row with a bitmap of the right length.  A task that
starts without a row has an empty bitmap, on which `check_piece_download_finished` succeeds
at once (`ended_without_row`).
-/
import Dorodoro.SwarmStep

open LexicalPath Bitmap

namespace Swarm

/-! ## The test for completion -/

/-- A byte of ones. -/
theorem testBit_ones (q : Fin 8) : (255 : UInt8).toNat.testBit (7 - q.val) = true := by
  revert q
  decide

/-- The mask of the last byte has the bits up to the last piece. -/
theorem testBit_lastMask (r q : Fin 8) :
    ((255 : UInt8) <<< (7 - r.val).toUInt8).toNat.testBit (7 - q.val) = decide (q.val ≤ r.val) := by
  revert r q
  decide

/-- The bitmap of `n` pieces with all bits set. -/
def fullBitmap (n : ℕ) : Bytes :=
  List.replicate ((n - 1) / 8) (255 : UInt8) ++ [255 <<< (7 - (n - 1) % 8).toUInt8]

theorem length_fullBitmap {n : ℕ} (hn : 0 < n) : (fullBitmap n).length = (n + 7) / 8 := by
  rw [fullBitmap, List.length_append, List.length_replicate, List.length_singleton]
  omega

theorem get_fullBitmap {n : ℕ} (hn : 0 < n) (i : ℕ) : get (fullBitmap n) i = decide (i < n) := by
  have hlen : (List.replicate ((n - 1) / 8) (255 : UInt8)).length = (n - 1) / 8 :=
    List.length_replicate
  rw [get_eq, fullBitmap]
  rcases Nat.lt_trichotomy (i / 8) ((n - 1) / 8) with hlt | heq | hgt
  · rw [List.getElem?_append_left (by rwa [hlen]), List.getElem?_replicate_of_lt hlt,
      Option.any_some, testBit_ones ⟨i % 8, Nat.mod_lt i (by decide)⟩]
    symm
    rw [decide_eq_true_eq]
    omega
  · have hle : (List.replicate ((n - 1) / 8) (255 : UInt8)).length ≤ i / 8 := by rw [hlen, heq]
    rw [List.getElem?_append_right hle, hlen, heq, Nat.sub_self,
      List.getElem?_cons_zero, Option.any_some,
      testBit_lastMask ⟨(n - 1) % 8, Nat.mod_lt _ (by decide)⟩ ⟨i % 8, Nat.mod_lt i (by decide)⟩,
      decide_eq_decide]
    show i % 8 ≤ (n - 1) % 8 ↔ i < n
    omega
  · rw [List.getElem?_eq_none (by rw [List.length_append, hlen, List.length_singleton]; omega)]
    symm
    rw [Option.any_none, decide_eq_false_iff_not]
    omega

/-- Behind the last byte all bytes must be ones. -/
theorem checkFinishedLoop_ones {vs : Bytes} :
    checkFinishedLoop 255 vs = true ↔ vs = List.replicate vs.length 255 := by
  induction vs with
  | nil => exact iff_of_true rfl rfl
  | cons v vs ih =>
      rw [checkFinishedLoop, Bool.and_eq_true, beq_iff_eq, ih, List.length_cons,
        List.replicate_succ, List.cons.injEq]

/-- **The loop succeeds on the full bitmap only.** -/
theorem checkFinishedLoop_iff {n : ℕ} {bytefield : Bytes} (hn : 0 < n)
    (hlen : bytefield.length = (n + 7) / 8) :
    checkFinishedLoop (255 <<< (7 - (n - 1) % 8).toUInt8) bytefield.reverse = true ↔
      bytefield = fullBitmap n := by
  rcases List.eq_nil_or_concat bytefield with rfl | ⟨bs, last, rfl⟩
  · rw [List.length_nil] at hlen
    omega
  · rw [List.concat_eq_append, List.length_append, List.length_singleton] at hlen
    have hbs : bs.length = (n - 1) / 8 := by omega
    rw [List.concat_eq_append, List.reverse_append, List.reverse_singleton, List.singleton_append,
      checkFinishedLoop, Bool.and_eq_true, beq_iff_eq, checkFinishedLoop_ones, fullBitmap]
    constructor
    · rintro ⟨rfl, hones⟩
      rw [List.length_reverse, hbs, List.reverse_eq_iff, List.reverse_replicate] at hones
      rw [hones]
    · intro he
      obtain ⟨hfront, hlast⟩ := List.append_inj' he rfl
      refine ⟨(List.cons.inj hlast).1, ?_⟩
      rw [hfront, List.reverse_replicate, List.length_replicate]

/-- Every piece has its bit. -/
def AllBits (C : Config) (bytefield : Bytes) : Prop :=
  ∀ i < C.pieceNum, get bytefield i = true

/-- The loop over a bitmap of the right length succeeds only when all bits are set. -/
theorem allBits_of_checkFinishedLoop {C : Config} {bytefield : Bytes}
    (hlen : bytefield.length = C.info.bitfieldLen)
    (h : checkFinishedLoop (255 <<< (7 - (C.pieceNum - 1) % 8).toUInt8) bytefield.reverse = true) :
    AllBits C bytefield := by
  intro i hi
  have hn : 0 < C.pieceNum := by omega
  rw [(checkFinishedLoop_iff hn hlen).mp h, get_fullBitmap hn, decide_eq_true_eq]
  exact hi

/-! ## The invariant -/

/-- The piece for which `Store::checkout` returns `Ok(true)` in a step of a task. -/
def checkoutOk (t : Task) (ts : List Task) : Option ℕ :=
  match t.pc, ts with
  | .verify i, [⟨_, .accept _⟩] => some i
  | _, _ => none

/-- The history notes the pieces whose check succeeded. -/
def verified : Recorder (ℕ → Bool) where
  onRun _ t _ ts passed i := passed i || decide (checkoutOk t ts = some i)
  onRestart _ passed := passed

/-- A bitmap has the right length, and a bit only where a check has succeeded. -/
structure Backed (C : Config) (passed : ℕ → Bool) (bytefield : Bytes) : Prop where
  length : bytefield.length = C.info.bitfieldLen
  bits : ∀ i, get bytefield i = true → passed i = true

/-- The invariant of the shared state. -/
structure Verified (C : Config) (s : State) (passed : ℕ → Bool) : Prop where
  bytefield : Backed C passed s.bytefield
  row : Backed C passed s.row.bytefield
  complete : s.pieceFinished = true ∨ s.status = .finished ∨ s.ended = true → AllBits C s.bytefield

/-- What a task relies on. -/
def VerifiedTask (C : Config) (s : State) (passed : ℕ → Bool) (t : Task) : Prop :=
  match t.pc with
  | .accept i => passed i = true
  | .setFinished | .finish _ => AllBits C s.bytefield
  | .saveDownload _ _ _ bytefield | .saveStatus _ _ _ bytefield _ => Backed C passed bytefield
  | .saveRow _ _ row => Backed C passed row.bytefield
  | _ => True

variable {C : Config} {s s' : State} {passed passed' : ℕ → Bool} {a : Act}

theorem Backed.mono {bytefield : Bytes} (hle : ∀ i, passed i = true → passed' i = true)
    (h : Backed C passed bytefield) : Backed C passed' bytefield :=
  ⟨h.length, fun i hi => hle i (h.bits i hi)⟩

theorem Backed.set {bytefield : Bytes} {i : ℕ} (h : Backed C passed bytefield)
    (hi : passed i = true) : Backed C passed (Bitmap.set bytefield i) := by
  refine ⟨by rw [length_set, h.length], ?_⟩
  intro j hj
  rcases eq_or_get_of_get_set hj with rfl | hj
  · exact hi
  · exact h.bits j hj

theorem AllBits.set {bytefield : Bytes} (i : ℕ) (h : AllBits C bytefield) :
    AllBits C (Bitmap.set bytefield i) :=
  fun j hj => get_set_of_get i (h j hj)

/-- Checks that have succeeded stay in the history. -/
theorem passed_onRun {t : Task} {e : Effect} {ts : List Task} {i : ℕ} (h : passed i = true) :
    verified.onRun s t e ts passed i = true := by
  simp [verified, h]

/-- What an access needs in order to keep the invariant. -/
def Effect.Justified (C : Config) (s : State) (passed : ℕ → Bool) : Effect → Prop
  | setBit i => passed i = true
  | setPieceFinished | setStatus | endTask => AllBits C s.bytefield
  | save row => Backed C passed row.bytefield
  | _ => True

theorem Verified.exec {e : Effect} (h : Verified C s passed) (he : e.Justified C s passed) :
    Verified C (e.exec C s) passed := by
  cases e with
  | setBit i =>
      refine ⟨?_, ?_, ?_⟩
      · simpa using h.bytefield.set he
      · simpa using h.row
      · intro hdone
        simpa using (h.complete (by simpa using hdone)).set i
  | setPieceFinished => exact ⟨h.bytefield, h.row, fun _ => he⟩
  | setStatus => exact ⟨h.bytefield, h.row, fun _ => he⟩
  | endTask => exact ⟨h.bytefield, h.row, fun _ => he⟩
  | save row => exact ⟨h.bytefield, he, h.complete⟩
  | _ =>
      refine ⟨?_, ?_, ?_⟩
      · simpa using h.bytefield
      · simpa using h.row
      · intro hdone
        simpa using h.complete (by simpa using hdone)

theorem allBits_exec (e : Effect) (h : AllBits C s.bytefield) :
    AllBits C (e.exec C s).bytefield := by
  rw [Effect.exec_bytefield]
  split
  · exact h.set _
  · exact h

/-- What a task relies on survives the accesses of the other tasks. -/
theorem VerifiedTask.exec (e : Effect) {t : Task} (hle : ∀ i, passed i = true → passed' i = true)
    (h : VerifiedTask C s passed t) : VerifiedTask C (e.exec C s) passed' t := by
  obtain ⟨p, pc⟩ := t
  cases pc with
  | accept i => exact hle i h
  | setFinished => exact allBits_exec e h
  | finish r => exact allBits_exec e h
  | saveDownload r start ub bytefield => exact Backed.mono hle h
  | saveStatus r start ub bytefield download => exact Backed.mono hle h
  | saveRow r start row => exact Backed.mono hle h
  | _ => trivial

theorem Verified.allBits_of_check (h : Verified C s passed)
    (hcheck : s.checkPieceDownloadFinished C = true) : AllBits C s.bytefield := by
  rw [State.checkPieceDownloadFinished, Bool.or_eq_true] at hcheck
  rcases hcheck with hflag | hloop
  · exact h.complete (Or.inl hflag)
  · exact allBits_of_checkFinishedLoop h.bytefield.length hloop

/-- One step of a task: its access is justified, and so is what it goes on with. -/
theorem Verified.next {t : Task} {e : Effect} {ts : List Task} (h : Verified C s passed)
    (ht : VerifiedTask C s passed t) (hnext : Next C s t.peer t.pc e ts) :
    e.Justified C s passed ∧ ∀ t' ∈ ts, VerifiedTask C s (verified.onRun s t e ts passed) t' := by
  obtain ⟨p, pc⟩ := t
  cases hnext with
  | lootFinished hcheck =>
      have hall := h.allBits_of_check hcheck
      exact ⟨hall, List.forall_mem_singleton.mpr hall⟩
  | checkFinished hcheck =>
      have hall := h.allBits_of_check hcheck
      exact ⟨hall, List.forall_mem_singleton.mpr hall⟩
  | afterFinish hst =>
      have hall := h.complete (Or.inr (Or.inl hst))
      exact ⟨trivial, List.forall_mem_singleton.mpr hall⟩
  | verifyOk _ => exact ⟨trivial, by simp [VerifiedTask, verified, checkoutOk]⟩
  | accept => exact ⟨ht, List.forall_mem_singleton.mpr trivial⟩
  | setFinished => exact ⟨ht, List.forall_mem_singleton.mpr trivial⟩
  | finish => exact ⟨ht, List.forall_mem_singleton.mpr trivial⟩
  | finishEnded _ => exact ⟨trivial, forall_mem_pcs (fun _ _ => trivial) trivial⟩
  | saveBytefield =>
      exact ⟨trivial, List.forall_mem_singleton.mpr (h.bytefield.mono fun i hi => passed_onRun hi)⟩
  | saveDownload =>
      exact ⟨trivial, List.forall_mem_singleton.mpr (Backed.mono (fun i hi => passed_onRun hi) ht)⟩
  | saveStatus =>
      exact ⟨trivial, List.forall_mem_singleton.mpr (Backed.mono (fun i hi => passed_onRun hi) ht)⟩
  | saveRow => exact ⟨ht, forall_mem_pcs (fun _ _ => trivial) trivial⟩
  | requestChoked _ => exact ⟨trivial, forall_mem_returns fun _ _ => trivial⟩
  | findFull => exact ⟨trivial, forall_mem_returns fun _ _ => trivial⟩
  | lootNone => exact ⟨trivial, forall_mem_returns fun _ _ => trivial⟩
  | leaveLost _ => exact ⟨trivial, forall_mem_returns fun _ _ => trivial⟩
  | leave _ =>
      refine ⟨trivial, ?_⟩
      intro t' ht'
      rcases List.mem_cons.mp ht' with rfl | ht'
      · trivial
      · exact forall_mem_returns (fun _ _ => trivial) t' ht'
  | lootExitDropNext _ =>
      exact ⟨trivial, List.forall_mem_cons.mpr
        ⟨trivial, List.forall_mem_singleton.mpr trivial⟩⟩
  | lootExitDropGive _ =>
      exact ⟨trivial, List.forall_mem_cons.mpr
        ⟨trivial, List.forall_mem_singleton.mpr trivial⟩⟩
  | _ =>
      -- the task ends, or goes on where it relies on nothing
      first
      | exact ⟨trivial, List.forall_mem_singleton.mpr trivial⟩
      | exact ⟨trivial, List.forall_mem_nil _⟩

/-- **One action keeps the invariant.** -/
theorem Verified.step (hstep : verified.step C (s, passed) a = some (s', passed'))
    (h : Verified C s passed) (ht : ∀ t ∈ s.tasks, VerifiedTask C s passed t) :
    Verified C s' passed' ∧ ∀ t ∈ s'.tasks, VerifiedTask C s' passed' t := by
  refine verified.step_invariant hstep h ht ?_ ?_ ?_ ?_ ?_
  · intro s s' passed hd h
    refine ⟨hd.bytefield ▸ h.bytefield, hd.row ▸ h.row, ?_⟩
    rw [hd.pieceFinished, hd.status, hd.ended, hd.bytefield]
    exact h.complete
  · intro s s' passed t hd _ ht
    unfold VerifiedTask at ht ⊢
    rwa [hd.bytefield]
  · intro t hstart
    cases hstart <;> trivial
  · intro k c t e ts _ _ hmem hnext
    obtain ⟨he, hts⟩ := h.next (ht t hmem) hnext
    have hle : ∀ i, passed i = true → verified.onRun s t e ts passed i = true :=
      fun i hi => passed_onRun hi
    refine ⟨?_, fun t' ht' => (ht t' ht').exec e hle, fun t' ht' => ?_⟩
    · have hv := h.exec he
      exact ⟨hv.bytefield.mono hle, hv.row.mono hle, hv.complete⟩
    · exact (hts t' ht').exec e fun i hi => hi
  · intro _ hst
    refine ⟨h.row, h.row, ?_⟩
    intro hdone
    simp [State.load, State.boot, hst] at hdone

/-! ## Runs -/

/-- A row a download is loaded from: bits only where a check has succeeded, and status
`Download`. -/
structure Row.Valid (C : Config) (passed : ℕ → Bool) (row : Row) : Prop where
  bytefield : Backed C passed row.bytefield
  status : row.status = .download

/-- The row of `add_torrent` has no bits. -/
theorem Row.added_valid (C : Config) : (Row.added C).Valid C fun _ => false := by
  refine ⟨⟨List.length_replicate, ?_⟩, rfl⟩
  intro i hi
  rw [show (Row.added C).bytefield = List.replicate C.info.bitfieldLen 0 from rfl,
    get_replicate_zero] at hi
  cases hi

theorem Verified.run {row : Row} {passed₀ : ℕ → Bool} (hrow : row.Valid C passed₀)
    {disk : Loc → ℕ → Option UInt8} {clock : ℕ} {as : List Act} {x : State × (ℕ → Bool)}
    (hrun : Transition.FreeRun (verified.step C) (.load row disk clock, passed₀) as x) :
    Verified C x.1 x.2 ∧ ∀ t ∈ x.1.tasks, VerifiedTask C x.1 x.2 t := by
  refine hrun.invariant
    (I := fun x => Verified C x.1 x.2 ∧ ∀ t ∈ x.1.tasks, VerifiedTask C x.1 x.2 t)
    ⟨⟨?_, ?_, ?_⟩, ?_⟩ ?_
  · exact hrow.bytefield
  · exact hrow.bytefield
  · intro hdone
    simp [State.load, State.boot, hrow.status] at hdone
  · intro t ht
    cases ht
  · rintro ⟨s, passed⟩ a ⟨s', passed'⟩ ⟨h, ht⟩ - hstep
    exact Verified.step hstep h ht

/-- A step keeps the bits; a restart has the bits that were saved. -/
theorem get_of_step (hstep : step C s a = some s') {i : ℕ} (hi : get s.bytefield i = true) :
    get s'.bytefield i = true ∨ (a = .restart ∧ get s.row.bytefield i = false) := by
  cases step_cases hstep with
  | run _ _ =>
      left
      show get (Effect.exec C s _).bytefield i = true
      rw [Effect.exec_bytefield]
      split
      · exact get_set_of_get _ hi
      · exact hi
  | restart _ =>
      cases hrow : get s.row.bytefield i with
      | true => exact Or.inl hrow
      | false => exact Or.inr ⟨rfl, rfl⟩
  | _ => exact Or.inl hi

/-- **Completion.**  From a valid row, in every run: a bit is set only after its check has
succeeded, no step but a restart from a row without the bit clears it, and the task ends or
gets status `Finished` only with all bits set. -/
theorem verified_completion {row : Row} {passed₀ : ℕ → Bool} (hrow : row.Valid C passed₀)
    {disk : Loc → ℕ → Option UInt8} {clock : ℕ} {as : List Act} {s : State} {passed : ℕ → Bool}
    (hrun : Transition.FreeRun (verified.step C) (.load row disk clock, passed₀) as (s, passed)) :
    (∀ i, get s.bytefield i = true → passed i = true) ∧
      (∀ a s', step C s a = some s' → ∀ i, get s.bytefield i = true →
        get s'.bytefield i = true ∨ (a = .restart ∧ get s.row.bytefield i = false)) ∧
      (s.ended = true ∨ s.status = .finished → ∀ i < C.pieceNum, get s.bytefield i = true) := by
  obtain ⟨h, -⟩ := Verified.run hrow hrun
  refine ⟨h.bytefield.bits, fun a s' hstep i hi => get_of_step hstep hi, ?_⟩
  rintro (hended | hst)
  · exact h.complete (Or.inr (Or.inr hended))
  · exact h.complete (Or.inr (Or.inl hst))

/-- The download of one piece ends, with the piece checked. -/
theorem verified_completion_onePiece :
    ∃ x : State × (ℕ → Bool),
      Transition.FreeRun (verified.step onePiece)
        (.load (.added onePiece) (fun _ _ => none) 0, fun _ => false) onePieceRun x ∧
      x.1.ended = true ∧ get x.1.bytefield 0 = true ∧ x.2 0 = true := by
  have hexec : (Transition.exec (verified.step onePiece)
      (.load (.added onePiece) (fun _ _ => none) 0, fun _ => false) onePieceRun).map
        (fun x => x.1.ended) = some true := by decide +kernel
  obtain ⟨x, hrun, hended⟩ := Transition.Run.exists_of_exec hexec
  obtain ⟨hbits, -, hall⟩ := verified_completion (Row.added_valid onePiece) hrun
  have hbit := hall (Or.inl hended) 0 (by decide)
  exact ⟨x, hrun, hended, hbit, hbits 0 hbit⟩

/-- The run of `ended_without_row`. -/
def withoutRowRun : List Act :=
  [.connect, .bitfield 0 [128], .run 0 .go, .unChoke 0, .run 0 .go, .run 0 .go,
    .run 0 (.flag true), .run 0 .go, .run 0 .go, .run 0 (.flag true), .run 0 .go, .run 0 .go]

/-- Without a row the bitmap is empty: the first peer that asks for work ends the task, and
no piece has been checked. -/
theorem ended_without_row :
    ∃ x : State × (ℕ → Bool),
      Transition.FreeRun (verified.step onePiece)
        (.fresh onePiece fun _ _ => none, fun _ => false) withoutRowRun x ∧
      x.1.ended = true ∧ 0 < onePiece.pieceNum ∧ get x.1.bytefield 0 = false ∧ x.2 0 = false := by
  have hexec : (Transition.exec (verified.step onePiece)
      (.fresh onePiece fun _ _ => none, fun _ => false) withoutRowRun).map
        (fun x => (x.1.ended, get x.1.bytefield 0, x.2 0)) = some (true, false, false) := by
    decide +kernel
  obtain ⟨x, hrun, hview⟩ := Transition.Run.exists_of_exec hexec
  simp only [Prod.mk.injEq] at hview
  exact ⟨x, hrun, hview.1, by decide, hview.2.1, hview.2.2⟩

end Swarm
