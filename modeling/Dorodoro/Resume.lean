/-
# Resuming a piece from its offset

`underway_bytefield` keeps, for every unfinished piece, the offset from which a peer goes on
with it.  The offset is the frontier a handler read before it wrote its block, it is stored
after the write, and it survives a restart.

The history keeps, for every piece, the bytes stored since its last reset to `Pause(0)` and
the time of that reset.  Offsets are sound (`ResumeInv`) in every run in which offsets are
written only by handlers that read a current frontier inside the piece, marked blocks are in
order, a piece is reset only when nobody holds an offset of it, and a restart loads offsets
that were copied after the last reset of their pieces (`resume_sound`).  A block that arrives
while its finished piece is being checked writes an offset beyond the piece
(`offset_beyond_piece`).
-/
import Dorodoro.Reception

open LexicalPath Bitmap

namespace Swarm

/-! ## The history -/

/-- What is known about the pieces: the bytes stored since the last reset, the time of the
reset, the time at which a peer last got the piece, and the time at which the offsets of the
saved row were copied. -/
structure Progress where
  stored : ℕ → Finset ℕ
  resetAt : ℕ → ℕ
  entryAt : ℕ → ℕ → ℕ
  rowStart : ℕ

/-- The history before the first step, with the bytes stored by earlier runs. -/
def Progress.initial (stored : ℕ → Finset ℕ) : Progress := ⟨stored, fun _ => 0, fun _ _ => 0, 0⟩

/-- The history notes stores, resets, new receptions and saves. -/
def progress : Recorder Progress where
  onRun s t e ts h :=
    { stored := fun i =>
        match e with
        | .resetUnderway j => if i = j then ∅ else h.stored i
        | _ => if writes t = some i then h.stored i ∪ storedBy t ts else h.stored i
      resetAt := fun i =>
        match e with
        | .resetUnderway j => if i = j then s.clock + 1 else h.resetAt i
        | _ => h.resetAt i
      entryAt := fun p i =>
        match e with
        | .resetOrigin q j offset =>
            if (p = q ∧ i = j) ∧ s.keepsOrigin q j offset = false then s.clock else h.entryAt p i
        | _ => h.entryAt p i
      rowStart :=
        match t.pc with
        | .saveRow _ start _ => start
        | _ => h.rowStart }
  onRestart _ h := h

/-- `A` holds of the stored bytes of a piece, unless it was reset after `stamp`. -/
def Progress.Since (h : Progress) (i stamp : ℕ) (A : Finset ℕ → Prop) : Prop :=
  h.resetAt i ≤ stamp → A (h.stored i)

section History

variable {s : State} {t : Task} {e : Effect} {ts : List Task} {h : Progress}

/-- Only a reset takes stored bytes away. -/
theorem progress_onRun {i : ℕ} (he : e ≠ .resetUnderway i) :
    (progress.onRun s t e ts h).resetAt i = h.resetAt i ∧
      h.stored i ⊆ (progress.onRun s t e ts h).stored i := by
  cases e with
  | resetUnderway j =>
      have hij : i ≠ j := fun hij => he (by rw [hij])
      simp [progress, hij]
  | _ =>
      refine ⟨rfl, ?_⟩
      simp only [progress]
      split
      · exact Finset.subset_union_left
      · exact Finset.Subset.refl _

/-- Facts about earlier times survive a step, or do not count any more. -/
theorem Progress.Since.onRun {i stamp : ℕ} {A : Finset ℕ → Prop} (hstamp : stamp ≤ s.clock)
    (hA : ∀ X Y, X ⊆ Y → A X → A Y) (hs : h.Since i stamp A) :
    (progress.onRun s t e ts h).Since i stamp A := by
  intro htime
  by_cases he : e = .resetUnderway i
  · subst he
    simp only [progress, if_true] at htime
    omega
  · obtain ⟨ht, hsub⟩ : (progress.onRun s t e ts h).resetAt i = h.resetAt i ∧
        h.stored i ⊆ (progress.onRun s t e ts h).stored i := progress_onRun he
    rw [ht] at htime
    exact hA _ _ hsub (hs htime)

end History

/-! ## The condition -/

/-- The bytes before the offset are stored, and the offset lies inside the piece. -/
def Prefix (C : Config) (i offset : ℕ) (stored : Finset ℕ) : Prop :=
  (∀ x < offset, x ∈ stored) ∧ offset < C.pieceLength i

/-- A reception that goes on is moved back, and it is not older than the last reset. -/
def MovesBack (s : State) (h : Progress) (p i offset : ℕ) : Prop :=
  s.keepsOrigin p i offset = true ∨
    ∃ P ∈ s.response p i, offset ≤ P.blockOffset ∧ h.resetAt i ≤ h.entryAt p i

/-- The step of a task keeps the offsets sound. -/
def ResumeOk (C : Config) (s : State) (h : Progress) (t : Task) : Prop :=
  match t.pc with
  | .begin m =>
      (s.response t.peer m.pieceIdx).isSome = true →
        h.resetAt m.pieceIdx ≤ h.entryAt t.peer m.pieceIdx
  | .offset m realOffset start =>
      (s.underway m.pieceIdx).any PieceStatus.isIng = true →
        h.resetAt m.pieceIdx ≤ start ∧ realOffset < C.pieceLength m.pieceIdx
  | .mark m start =>
      ∀ P ∈ s.response t.peer m.pieceIdx,
        h.resetAt m.pieceIdx ≤ h.entryAt t.peer m.pieceIdx → P.finish = true ∨
          MarkOk C (h.resetAt m.pieceIdx) P m start
  | .failed m => MovesBack s h t.peer m.pieceIdx m.blockOffset
  | .relist _ ((i, offset) :: _) => MovesBack s h t.peer i offset
  | .reject i => ∀ t' ∈ s.tasks, ∀ q ∈ t'.pc.held, q.1 ≠ i
  | _ => True

instance (s : State) (h : Progress) (p i offset : ℕ) : Decidable (MovesBack s h p i offset) := by
  unfold MovesBack
  infer_instance

instance (C : Config) (s : State) (h : Progress) (t : Task) : Decidable (ResumeOk C s h t) := by
  obtain ⟨p, pc⟩ := t
  rcases pc with ⟨⟩
  case relist k pieces =>
    rcases pieces with _ | ⟨⟨i, offset⟩, pieces⟩ <;> dsimp only [ResumeOk] <;> infer_instance
  all_goals
    dsimp only [ResumeOk]
    infer_instance

/-- The condition on an action. -/
def ResumeGuard (C : Config) (x : State × Progress) (a : Act) : Prop :=
  (∀ t ∈ x.1.running a, ResumeOk C x.1 x.2 t) ∧
    (a = .restart → ∀ q ∈ x.1.row.underway, x.2.resetAt q.1 ≤ x.2.rowStart)

instance (C : Config) (x : State × Progress) (a : Act) : Decidable (ResumeGuard C x a) := by
  unfold ResumeGuard
  infer_instance

/-! ## The invariant -/

/-- The offsets of the pieces are sound. -/
def UnderwaySound (C : Config) (s : State) (h : Progress) : Prop :=
  ∀ i st, s.underway i = some st → Prefix C i st.offset (h.stored i)

/-- Receptions that are not older than the last reset of their piece are backed. -/
def ReceptionSound (C : Config) (s : State) (h : Progress) : Prop :=
  ∀ p i P, s.response p i = some P → P.Shaped (C.pieceLength i) C.blockSize ∧
    h.Since i (h.entryAt p i) (P.Covers 0)

/-- Saved offsets are sound, unless the piece was reset since they were copied. -/
def SavedSound (C : Config) (s : State) (h : Progress) (start : ℕ) (ub : List (ℕ × PieceStatus)) :
    Prop :=
  start ≤ s.clock ∧ ∀ q ∈ ub, h.Since q.1 start (Prefix C q.1 q.2.offset)

/-- The invariant of the shared state. -/
structure ResumeInv (C : Config) (s : State) (h : Progress) : Prop where
  underway : UnderwaySound C s h
  response : ReceptionSound C s h
  entryAt : ∀ p i, h.entryAt p i ≤ s.clock
  row : SavedSound C s h h.rowStart s.row.underway

/-- The bytes before a frontier. -/
def FrontierIn (C : Config) (i realOffset : ℕ) (stored : Finset ℕ) : Prop :=
  ∀ x < realOffset, x < C.pieceLength i → x ∈ stored

/-- What a task relies on at its place. -/
def ResumeAt (C : Config) (s : State) (h : Progress) : Pc → Prop
  | .write m realOffset start blocks pos =>
      start ≤ s.clock ∧ pos + (blocks.map BlockInfo.len).sum = C.blocksLength m ∧
        Written (h.resetAt m.pieceIdx) (h.stored m.pieceIdx) m start pos ∧
        h.Since m.pieceIdx start (FrontierIn C m.pieceIdx realOffset)
  | .offset m realOffset start =>
      start ≤ s.clock ∧
        Written (h.resetAt m.pieceIdx) (h.stored m.pieceIdx) m start (C.blocksLength m) ∧
        h.Since m.pieceIdx start (FrontierIn C m.pieceIdx realOffset)
  | .mark m start =>
      start ≤ s.clock ∧
        Written (h.resetAt m.pieceIdx) (h.stored m.pieceIdx) m start (C.blocksLength m)
  | .trim _ i offset | .advance _ i offset | .send _ i offset => offset < C.pieceLength i
  | .reject i => i < C.pieceNum
  | .saveBytefield _ start ub | .saveDownload _ start ub _ | .saveStatus _ start ub _ _ =>
      SavedSound C s h start ub
  | .saveRow _ start row => SavedSound C s h start row.underway
  | _ => True

/-- What a task relies on. -/
structure ResumeTask (C : Config) (s : State) (h : Progress) (t : Task) : Prop where
  held : ∀ q ∈ t.pc.held, Prefix C q.1 q.2 (h.stored q.1)
  here : ResumeAt C s h t.pc

section Invariant

variable {C : Config} {s s' : State} {h h' : Progress} {a : Act} {t : Task} {e : Effect}
  {ts : List Task}

theorem Prefix.mono {i offset : ℕ} (X Y : Finset ℕ) (hsub : X ⊆ Y) (hp : Prefix C i offset X) :
    Prefix C i offset Y :=
  ⟨fun x hx => hsub (hp.1 x hx), hp.2⟩

theorem FrontierIn.mono {i realOffset : ℕ} (X Y : Finset ℕ) (hsub : X ⊆ Y)
    (hf : FrontierIn C i realOffset X) : FrontierIn C i realOffset Y :=
  fun x hx hlen => hsub (hf x hx hlen)

theorem SavedSound.onRun {start : ℕ} {ub : List (ℕ × PieceStatus)} (hs : SavedSound C s h start ub) :
    SavedSound C (e.exec C s) (progress.onRun s t e ts h) start ub := by
  refine ⟨by simpa using hs.1, ?_⟩
  intro q hq
  exact (hs.2 q hq).onRun hs.1 Prefix.mono

/-- What an access needs in order to keep the offsets sound. -/
def Effect.OffsetOk (C : Config) (s : State) (h : Progress) : Effect → Prop
  | apply i => 0 < C.pieceLength i
  | resetUnderway i => 0 < C.pieceLength i
  | updateOffset i offset =>
      (s.underway i).any PieceStatus.isIng = true → Prefix C i offset (h.stored i)
  | _ => True

theorem UnderwaySound.exec (hU : UnderwaySound C s h) (he : e.OffsetOk C s h) :
    UnderwaySound C (e.exec C s) (progress.onRun s t e ts h) := by
  -- a status whose offset was there before
  have keep : ∀ i st, s.underway i = some st → e ≠ .resetUnderway i →
      Prefix C i st.offset ((progress.onRun s t e ts h).stored i) := by
    intro i st hst hne
    exact (hU i st hst).mono _ _ (progress_onRun hne).2
  intro i st hst
  rw [Effect.exec_underway] at hst
  cases e with
  | apply j =>
      dsimp only at hst
      by_cases hij : i = j
      · subst hij
        rw [Function.update_self] at hst
        cases happ : s.applyOffset i with
        | none =>
            rw [happ] at hst
            exact keep i st (by simpa using hst) (by simp)
        | some offset =>
            rw [happ] at hst
            cases hst
            unfold State.applyOffset at happ
            split at happ
            · split at happ
              · next old hold =>
                  cases happ
                  exact keep i (.pause offset) hold (by simp)
              · cases happ
              · cases happ
                exact ⟨fun x hx => absurd hx (Nat.not_lt_zero x), he⟩
            · cases happ
      · rw [Function.update_of_ne hij] at hst
        exact keep i st hst (by simp)
  | pause j =>
      dsimp only at hst
      by_cases hij : i = j
      · subst hij
        rw [Function.update_self, Option.map_eq_some_iff] at hst
        obtain ⟨old, hold, rfl⟩ := hst
        exact keep i old hold (by simp)
      · rw [Function.update_of_ne hij] at hst
        exact keep i st hst (by simp)
  | updateOffset j offset =>
      dsimp only at hst
      by_cases hij : i = j
      · subst hij
        rw [Function.update_self, Option.map_eq_some_iff] at hst
        obtain ⟨old, hold, rfl⟩ := hst
        cases old with
        | ing o =>
            have hp : Prefix C i offset (h.stored i) := he (by rw [hold]; rfl)
            exact hp.mono _ _ (progress_onRun (by simp)).2
        | pause o => exact keep i _ hold (by simp)
      · rw [Function.update_of_ne hij] at hst
        exact keep i st hst (by simp)
  | resetUnderway j =>
      dsimp only at hst
      by_cases hij : i = j
      · subst hij
        rw [Function.update_self] at hst
        cases hst
        exact ⟨fun x hx => absurd hx (Nat.not_lt_zero x), he⟩
      · rw [Function.update_of_ne hij] at hst
        exact keep i st hst (by simp [Ne.symm hij])
  | removeUnderway j =>
      dsimp only at hst
      by_cases hij : i = j
      · subst hij
        rw [Function.update_self] at hst
        cases hst
      · rw [Function.update_of_ne hij] at hst
        exact keep i st hst (by simp)
  | _ => exact keep i st hst (by simp)

/-- Accesses other than `reset_request_piece_origin` do not renew a reception. -/
theorem entryAt_onRun (he : e.shrinks = true ∨ ∃ q j offset, e = .updateResponse q j offset)
    (p i : ℕ) : (progress.onRun s t e ts h).entryAt p i = h.entryAt p i := by
  cases e with
  | resetOrigin q j offset => simp [Effect.shrinks] at he
  | _ => rfl

theorem entryAt_le (hI : ResumeInv C s h) (p i : ℕ) :
    (progress.onRun s t e ts h).entryAt p i ≤ s.clock := by
  cases e with
  | resetOrigin q j offset =>
      simp only [progress]
      split
      · exact le_rfl
      · exact hI.entryAt p i
  | _ => exact hI.entryAt p i

/-- Accesses that leave the receptions alone. -/
theorem ReceptionSound.frame (hI : ResumeInv C s h) (he : e.shrinks = true) :
    ReceptionSound C (e.exec C s) (progress.onRun s t e ts h) := by
  intro p i P hP
  obtain ⟨hs, hc⟩ := hI.response p i P (Effect.response_of_shrinks he hP)
  refine ⟨hs, ?_⟩
  rw [entryAt_onRun (Or.inl he)]
  exact hc.onRun (hI.entryAt p i) fun X Y hsub hc => hc.mono hsub

/-- A peer gets a piece, or goes on with it, from a sound offset. -/
theorem ReceptionSound.resetOrigin (hI : ResumeInv C s h) {p i offset : ℕ}
    (hoff : s.keepsOrigin p i offset = true ∨ FrontierIn C i offset (h.stored i)) :
    ReceptionSound C ((Effect.resetOrigin p i offset).exec C s)
      (progress.onRun s t (.resetOrigin p i offset) ts h) := by
  intro q j P hP
  rw [Effect.exec_response] at hP
  dsimp only at hP
  split at hP
  · next hreset =>
      obtain ⟨⟨rfl, rfl⟩, hkeep⟩ := hreset
      cases hP
      refine ⟨Piece.shaped_new _ _ _, fun _ => Piece.covers_new ?_⟩
      intro x _ hlt hlen
      rcases hoff with hk | hfront
      · rw [hkeep] at hk
        cases hk
      · exact (progress_onRun (e := .resetOrigin q j offset) (by simp)).2 (hfront x hlt hlen)
  · next hreset =>
      obtain ⟨hs, hc⟩ := hI.response q j P hP
      refine ⟨hs, ?_⟩
      have hentry : (progress.onRun s t (.resetOrigin p i offset) ts h).entryAt q j =
          h.entryAt q j := by
        simp only [progress]
        rw [if_neg hreset]
      rw [hentry]
      exact hc.onRun (hI.entryAt q j) fun X Y hsub hc => hc.mono hsub

/-- The frontier a reception is moved back to. -/
theorem ResumeInv.movesBack (hI : ResumeInv C s h) {p i offset : ℕ} (hb : MovesBack s h p i offset) :
    s.keepsOrigin p i offset = true ∨ FrontierIn C i offset (h.stored i) := by
  rcases hb with hk | ⟨P, hP, hle, hcur⟩
  · exact Or.inl hk
  · obtain ⟨hs, hc⟩ := hI.response p i P hP
    refine Or.inr fun x hx hlen => ?_
    exact (hc hcur).gapless x (Nat.zero_le x) (lt_of_lt_of_le hx hle) (hs.pieceLength ▸ hlen)

/-- Marking a block. -/
theorem ReceptionSound.mark (hfit : ∀ i, C.pieceLength i + 8 * C.blockSize ≤ 2 ^ 32)
    (hI : ResumeInv C s h) {p start : ℕ} {m : Msg}
    (hw : Written (h.resetAt m.pieceIdx) (h.stored m.pieceIdx) m start (C.blocksLength m))
    (hok : ∀ P ∈ s.response p m.pieceIdx, h.resetAt m.pieceIdx ≤ h.entryAt p m.pieceIdx →
      P.finish = true ∨ MarkOk C (h.resetAt m.pieceIdx) P m start) :
    ReceptionSound C ((Effect.updateResponse p m.pieceIdx m.blockOffset).exec C s)
      (progress.onRun s t (.updateResponse p m.pieceIdx m.blockOffset) ts h) := by
  intro q i P hP
  rw [entryAt_onRun (Or.inr ⟨_, _, _, rfl⟩)]
  rw [Effect.exec_response] at hP
  dsimp only at hP
  split at hP
  · next heq =>
      obtain ⟨rfl, rfl⟩ := heq
      obtain ⟨P₀, hP₀, rfl⟩ := Option.map_eq_some_iff.mp hP
      obtain ⟨hs, hc⟩ := hI.response _ _ P₀ hP₀
      have hnew : h.Since m.pieceIdx (h.entryAt q m.pieceIdx)
          ((P₀.addFinish m.blockOffset).Covers 0) := by
        intro hcur
        refine (hc hcur).addFinish C.blockSize_pos hs (hfit _) ?_
        intro hopen
        rcases hok P₀ hP₀ hcur with hfin | hok
        · rw [hopen] at hfin
          cases hfin
        · exact markable_of_markOk hw hok
      exact ⟨hs.addFinish m.blockOffset,
        hnew.onRun (hI.entryAt _ _) fun X Y hsub hc => hc.mono hsub⟩
  · obtain ⟨hs, hc⟩ := hI.response q i P hP
    exact ⟨hs, hc.onRun (hI.entryAt q i) fun X Y hsub hc => hc.mono hsub⟩

/-- What is written stays written, unless the piece is reset. -/
theorem written_onRun {i start n : ℕ} {m : Msg} (hstart : start ≤ s.clock)
    (hw : Written (h.resetAt i) (h.stored i) m start n) :
    Written ((progress.onRun s t e ts h).resetAt i) ((progress.onRun s t e ts h).stored i) m
      start n :=
  Progress.Since.onRun
    (A := fun X => Finset.Ico m.blockOffset (m.blockOffset + min m.blockData.length n) ⊆ X)
    hstart (fun _ _ hsub hX => hX.trans hsub) hw

/-- What a task relies on survives the steps of the others. -/
theorem ResumeTask.exec {t' : Task} (ht : ResumeTask C s h t')
    (hfree : ∀ i, e = .resetUnderway i → ∀ q ∈ t'.pc.held, q.1 ≠ i) :
    ResumeTask C (e.exec C s) (progress.onRun s t e ts h) t' := by
  obtain ⟨p, pc⟩ := t'
  constructor
  · intro q hq
    refine (ht.held q hq).mono _ _ (progress_onRun ?_).2
    intro he
    exact hfree q.1 he q hq rfl
  · have hhere := ht.here
    cases pc with
    | write m realOffset start blocks pos =>
        obtain ⟨hstart, hpos, hw, hf⟩ := hhere
        exact ⟨by simpa using hstart, hpos, written_onRun hstart hw, hf.onRun hstart FrontierIn.mono⟩
    | offset m realOffset start =>
        obtain ⟨hstart, hw, hf⟩ := hhere
        exact ⟨by simpa using hstart, written_onRun hstart hw, hf.onRun hstart FrontierIn.mono⟩
    | mark m start => exact ⟨by simpa using hhere.1, written_onRun hhere.1 hhere.2⟩
    | saveBytefield r start ub => exact SavedSound.onRun hhere
    | saveDownload r start ub bytefield => exact SavedSound.onRun hhere
    | saveStatus r start ub bytefield download => exact SavedSound.onRun hhere
    | saveRow r start row => exact SavedSound.onRun hhere
    | _ => exact hhere

/-- The access writes the row. -/
def Effect.saves : Effect → Bool
  | .save _ => true
  | _ => false

theorem Effect.row_of_not_saves (he : e.saves = false) : (e.exec C s).row = s.row := by
  rw [Effect.exec_row]
  cases e with
  | save row => cases he
  | _ => rfl

/-- Accesses that do not save. -/
theorem ResumeInv.frame (hI : ResumeInv C s h) (hoff : e.OffsetOk C s h)
    (hresp : ReceptionSound C (e.exec C s) (progress.onRun s t e ts h))
    (hstart : (progress.onRun s t e ts h).rowStart = h.rowStart)
    (hrow : e.saves = false) :
    ResumeInv C (e.exec C s) (progress.onRun s t e ts h) := by
  refine ⟨hI.underway.exec hoff, hresp, ?_, ?_⟩
  · intro p i
    rw [Effect.exec_clock]
    exact entryAt_le hI p i
  · rw [hstart, Effect.row_of_not_saves hrow]
    exact hI.row.onRun

/-- Accesses that change no offset, no reception and no row. -/
theorem ResumeInv.quiet (hI : ResumeInv C s h) (hoff : e.OffsetOk C s h) (he : e.shrinks = true)
    (hstart : (progress.onRun s t e ts h).rowStart = h.rowStart)
    (hrow : e.saves = false) :
    ResumeInv C (e.exec C s) (progress.onRun s t e ts h) :=
  hI.frame hoff (.frame hI he) hstart hrow

/-- The frontier of an offset that is handed out. -/
theorem Prefix.frontierIn {i offset : ℕ} {stored : Finset ℕ} (hp : Prefix C i offset stored) :
    FrontierIn C i offset stored :=
  fun x hx _ => hp.1 x hx

theorem UnderwaySound.applyOffset (hU : UnderwaySound C s h) {i offset : ℕ}
    (hpos : 0 < C.pieceLength i) (happ : s.applyOffset i = some offset) :
    Prefix C i offset (h.stored i) := by
  unfold State.applyOffset at happ
  split at happ
  · split at happ
    · next old hold =>
        cases happ
        exact hU i (.pause offset) hold
    · cases happ
    · cases happ
      exact ⟨fun x hx => absurd hx (Nat.not_lt_zero x), hpos⟩
  · cases happ

/-- The copy of the offsets is sound when it is made. -/
theorem UnderwaySound.saved (hU : UnderwaySound C s h) :
    SavedSound C s h s.clock (s.savedUnderway C) := by
  refine ⟨le_rfl, ?_⟩
  intro q hq _
  obtain ⟨i, -, hval⟩ := List.mem_filterMap.mp hq
  obtain ⟨st, hst, rfl⟩ := Option.map_eq_some_iff.mp hval
  exact hU i st hst

/-- One step of a task. -/
theorem ResumeInv.next (hfit : ∀ i, C.pieceLength i + 8 * C.blockSize ≤ 2 ^ 32)
    (hpos : ∀ i < C.pieceNum, 0 < C.pieceLength i) (hI : ResumeInv C s h)
    (ht : ResumeTask C s h t) (hok : ResumeOk C s h t) (hnext : Next C s t.peer t.pc e ts) :
    ResumeInv C (e.exec C s) (progress.onRun s t e ts h) ∧
      ∀ t' ∈ ts, ResumeTask C (e.exec C s) (progress.onRun s t e ts h) t' := by
  -- a task that goes on where it relies on nothing
  have plain : ∀ {s' : State} {h' : Progress} {p : ℕ} {pc : Pc}, pc.held = [] →
      ResumeAt C s' h' pc → ResumeTask C s' h' ⟨p, pc⟩ := by
    intro s' h' p pc hheld hhere
    refine ⟨?_, hhere⟩
    intro q hq
    rw [show (Task.mk p pc).pc.held = [] from hheld] at hq
    cases hq
  obtain ⟨p, pc⟩ := t
  have hhere := ht.here
  cases hnext with
  | findEntry _ hlt _ =>
      exact ⟨hI.quiet trivial rfl rfl rfl, List.forall_mem_singleton.mpr (plain rfl hlt)⟩
  | trimRemove | trimKeep | advance _ | advanceLost _ =>
      exact ⟨hI.quiet trivial rfl rfl rfl, List.forall_mem_singleton.mpr (plain rfl hhere)⟩
  | scanApply hj happ =>
      have hp := hI.underway.applyOffset (hpos _ (lt_of_le_of_lt (u32_le _) hj)) happ
      refine ⟨hI.quiet (hpos _ (lt_of_le_of_lt (u32_le _) hj)) rfl rfl rfl,
        List.forall_mem_singleton.mpr ⟨?_, trivial⟩⟩
      intro q hq
      cases List.mem_singleton.mp hq
      exact hp.mono _ _ (progress_onRun (by simp)).2
  | applied =>
      have hp := ht.held _ (List.mem_singleton.mpr rfl)
      exact ⟨hI.frame trivial (.resetOrigin hI (Or.inr hp.frontierIn)) rfl rfl,
        List.forall_mem_singleton.mpr (plain rfl hp.2)⟩
  | relist =>
      exact ⟨hI.frame trivial (.resetOrigin hI (hI.movesBack hok)) rfl rfl,
        List.forall_mem_singleton.mpr (plain rfl trivial)⟩
  | failed =>
      exact ⟨hI.frame trivial (.resetOrigin hI (hI.movesBack hok)) rfl rfl, List.forall_mem_nil _⟩
  | give =>
      have hp := ht.held _ List.mem_cons_self
      refine ⟨hI.frame trivial (.resetOrigin hI (Or.inr hp.frontierIn)) rfl rfl,
        List.forall_mem_singleton.mpr ⟨?_, trivial⟩⟩
      intro q hq
      exact (ht.held q (List.mem_cons_of_mem _ hq)).mono _ _ (progress_onRun (by simp)).2
  | retainTake _ _ hst =>
      refine ⟨hI.quiet trivial rfl rfl rfl, List.forall_mem_singleton.mpr ⟨?_, trivial⟩⟩
      intro q hq
      rcases List.mem_append.mp hq with hq | hq
      · exact (ht.held q hq).mono _ _ (progress_onRun (by simp)).2
      · cases List.mem_singleton.mp hq
        exact (hI.underway _ _ hst).mono _ _ (progress_onRun (by simp)).2
  | retainKeep _ | retainEnd | lootExitGive =>
      refine ⟨hI.quiet trivial rfl rfl rfl, List.forall_mem_singleton.mpr ⟨?_, trivial⟩⟩
      intro q hq
      exact (ht.held q hq).mono _ _ (progress_onRun (by simp)).2
  | lootExitDropNext _ =>
      exact ⟨hI.quiet trivial rfl rfl rfl, List.forall_mem_cons.mpr
        ⟨plain rfl trivial, List.forall_mem_singleton.mpr (plain rfl trivial)⟩⟩
  | lootExitDropGive _ =>
      refine ⟨hI.quiet trivial rfl rfl rfl, List.forall_mem_cons.mpr
        ⟨plain rfl trivial, List.forall_mem_singleton.mpr ⟨?_, trivial⟩⟩⟩
      intro q hq
      exact (ht.held q hq).mono _ _ (progress_onRun (by simp)).2
  | begin hP =>
      refine ⟨hI.quiet trivial rfl rfl rfl,
        List.forall_mem_singleton.mpr (plain rfl ⟨by simp, by simp [Config.blocksLength], ?_, ?_⟩)⟩
      · intro _
        simp
      · -- the reception is current, so its frontier is backed
        have hcur := hok (by rw [hP]; rfl)
        obtain ⟨hs, hc⟩ := hI.response _ _ _ hP
        have hfront : h.Since _ s.clock (FrontierIn C _ _) := fun _ x hx hlen =>
          (hc hcur).gapless x (Nat.zero_le x) hx (hs.pieceLength ▸ hlen)
        exact hfront.onRun le_rfl FrontierIn.mono
  | writeEnd =>
      obtain ⟨hstart, hsum, hw, hf⟩ := hhere
      rw [List.map_nil, List.sum_nil, Nat.add_zero] at hsum
      exact ⟨hI.quiet trivial rfl rfl rfl, List.forall_mem_singleton.mpr
        (plain rfl ⟨by simpa using hstart, hsum ▸ written_onRun hstart hw,
          hf.onRun hstart FrontierIn.mono⟩)⟩
  | write _ _ =>
      obtain ⟨hstart, hsum, hw, hf⟩ := hhere
      rw [List.map_cons, List.sum_cons] at hsum
      refine ⟨hI.quiet trivial rfl rfl rfl, List.forall_mem_singleton.mpr
        (plain rfl ⟨by simpa using hstart, by omega, ?_, hf.onRun hstart FrontierIn.mono⟩)⟩
      simpa only [progress, writes, if_true, storedBy] using hw.write
  | offset =>
      obtain ⟨hstart, hw, hf⟩ := hhere
      refine ⟨hI.quiet ?_ rfl rfl rfl, List.forall_mem_singleton.mpr
        (plain rfl ⟨by simpa using hstart, written_onRun hstart hw⟩)⟩
      intro hing
      obtain ⟨htime, hlt⟩ := hok hing
      exact ⟨fun x hx => hf htime x hx (hx.trans hlt), hlt⟩
  | mark | markPanic _ =>
      exact ⟨hI.frame trivial (.mark hfit hI hhere.2 hok) rfl rfl,
        List.forall_mem_singleton.mpr (plain rfl trivial)⟩
  | verifyFail hi =>
      exact ⟨hI.quiet trivial rfl rfl rfl, List.forall_mem_singleton.mpr (plain rfl hi)⟩
  | reject =>
      exact ⟨hI.quiet (hpos _ hhere) rfl rfl rfl, List.forall_mem_singleton.mpr (plain rfl trivial)⟩
  | saveUnderway =>
      exact ⟨hI.quiet trivial rfl rfl rfl,
        List.forall_mem_singleton.mpr (plain rfl hI.underway.saved.onRun)⟩
  | saveBytefield | saveDownload | saveStatus =>
      exact ⟨hI.quiet trivial rfl rfl rfl,
        List.forall_mem_singleton.mpr (plain rfl (SavedSound.onRun hhere))⟩
  | saveRow =>
      refine ⟨⟨hI.underway.exec trivial, .frame hI rfl, ?_, ?_⟩,
        forall_mem_pcs (fun _ _ => plain rfl trivial) (plain rfl trivial)⟩
      · intro q i
        rw [Effect.exec_clock]
        exact entryAt_le hI q i
      · rw [Effect.exec_row]
        exact SavedSound.onRun hhere
  | requestChoked _ | findFull | lootNone | leaveLost _ =>
      exact ⟨hI.quiet trivial rfl rfl rfl, forall_mem_returns fun _ _ => plain rfl trivial⟩
  | leave _ =>
      exact ⟨hI.quiet trivial rfl rfl rfl, List.forall_mem_cons.mpr
        ⟨plain rfl trivial, forall_mem_returns fun _ _ => plain rfl trivial⟩⟩
  | finishEnded _ =>
      exact ⟨hI.quiet trivial rfl rfl rfl,
        forall_mem_pcs (fun _ _ => plain rfl trivial) (plain rfl trivial)⟩
  | _ =>
      first
      | exact ⟨hI.quiet trivial rfl rfl rfl, List.forall_mem_singleton.mpr (plain rfl trivial)⟩
      | exact ⟨hI.quiet trivial rfl rfl rfl, List.forall_mem_nil _⟩

/-- Only a failed check resets a piece. -/
theorem eq_reject_of_resetUnderway {p i : ℕ} {pc : Pc}
    (hnext : Next C s p pc (.resetUnderway i) ts) : pc = .reject i := by
  cases hnext
  rfl

/-- **One action keeps the offsets sound.** -/
theorem ResumeInv.step (hfit : ∀ i, C.pieceLength i + 8 * C.blockSize ≤ 2 ^ 32)
    (hpos : ∀ i < C.pieceNum, 0 < C.pieceLength i) (hI : ResumeInv C s h)
    (ht : ∀ t ∈ s.tasks, ResumeTask C s h t) (hg : ResumeGuard C (s, h) a)
    (hstep : progress.step C (s, h) a = some (s', h')) :
    ResumeInv C s' h' ∧ ∀ t ∈ s'.tasks, ResumeTask C s' h' t := by
  have saved : ∀ {s s' : State} {h : Progress} {start : ℕ} {ub : List (ℕ × PieceStatus)},
      SameData s s' → SavedSound C s h start ub → SavedSound C s' h start ub :=
    fun hd hs => ⟨hs.1.trans hd.clock, hs.2⟩
  refine progress.step_invariant hstep hI ht ?_ ?_ ?_ ?_ ?_
  · intro s s' h hd hI
    refine ⟨?_, ?_, fun p i => (hI.entryAt p i).trans hd.clock, ?_⟩
    · intro i st hst
      exact hI.underway i st (hd.underway ▸ hst)
    · intro p i P hP
      rcases hd.response p i with heq | hnone
      · exact hI.response p i P (heq ▸ hP)
      · rw [hnone] at hP
        cases hP
    · rw [hd.row]
      exact saved hd hI.row
  · intro s s' h t hd _ ht
    obtain ⟨p, pc⟩ := t
    refine ⟨ht.held, ?_⟩
    have hhere := ht.here
    cases pc with
    | write m realOffset start blocks pos => exact ⟨hhere.1.trans hd.clock, hhere.2⟩
    | offset m realOffset start => exact ⟨hhere.1.trans hd.clock, hhere.2⟩
    | mark m start => exact ⟨hhere.1.trans hd.clock, hhere.2⟩
    | saveBytefield r start ub => exact saved hd hhere
    | saveDownload r start ub bytefield => exact saved hd hhere
    | saveStatus r start ub bytefield download => exact saved hd hhere
    | saveRow r start row => exact saved hd hhere
    | _ => exact hhere
  · intro t hstart
    cases hstart <;> exact ⟨List.forall_mem_nil _, trivial⟩
  · rintro k c t e ts rfl htask hmem hnext
    have hok : ResumeOk C s h t := hg.1 t htask
    obtain ⟨hI', hts⟩ := hI.next hfit hpos (ht t hmem) hok hnext
    refine ⟨hI', fun t' ht' => (ht t' ht').exec ?_, hts⟩
    rintro i rfl
    have hpc := eq_reject_of_resetUnderway hnext
    unfold ResumeOk at hok
    rw [hpc] at hok
    exact hok t' ht'
  · rintro rfl _
    refine ⟨?_, ?_, hI.entryAt, hI.row⟩
    · intro i st hst
      have hmem := mem_underway_of_load hst
      exact hI.row.2 _ hmem (hg.2 rfl _ hmem)
    · intro p i P hP
      cases hP

/-! ## Runs -/

theorem ResumeInv.run (hfit : C.info.pieceLength + 8 * C.blockSize ≤ 2 ^ 32)
    (hpos : ∀ i < C.pieceNum, 0 < C.pieceLength i) {stored : ℕ → Finset ℕ} {row : Row}
    (hrow : ∀ q ∈ row.underway, Prefix C q.1 q.2.offset (stored q.1))
    {disk : Loc → ℕ → Option UInt8} {clock : ℕ} {as : List Act} {x : State × Progress}
    (hrun : Transition.Run (progress.step C) (ResumeGuard C)
      (.load row disk clock, .initial stored) as x) :
    ResumeInv C x.1 x.2 ∧ ∀ t ∈ x.1.tasks, ResumeTask C x.1 x.2 t := by
  have hfit' : ∀ i, C.pieceLength i + 8 * C.blockSize ≤ 2 ^ 32 := by
    intro i
    have hle : C.pieceLength i ≤ C.info.pieceLength := (u32_le _).trans (min_le_left _ _)
    omega
  have h₀ : ResumeInv C (.load row disk clock) (.initial stored) := by
    refine ⟨?_, ?_, fun _ _ => Nat.zero_le _, Nat.zero_le _, fun q hq _ => hrow q hq⟩
    · intro i st hst
      exact hrow _ (mem_underway_of_load hst)
    · intro p i P hP
      cases hP
  exact hrun.invariant
    (I := fun x => ResumeInv C x.1 x.2 ∧ ∀ t ∈ x.1.tasks, ResumeTask C x.1 x.2 t)
    ⟨h₀, fun t ht => by cases ht⟩
    fun x a x' hI hg hstep => hI.1.step hfit' hpos hI.2 hg hstep

/-- **Resuming.**  In every run whose actions meet the condition, restarts included: the bytes
before the offset of an unverified piece have been stored since its last reset, the offset lies
inside the piece, and the length of a request does not underflow. -/
theorem resume_sound (hfit : C.info.pieceLength + 8 * C.blockSize ≤ 2 ^ 32)
    (hpos : ∀ i < C.pieceNum, 0 < C.pieceLength i) {stored : ℕ → Finset ℕ} {row : Row}
    (hrow : ∀ q ∈ row.underway, Prefix C q.1 q.2.offset (stored q.1))
    {disk : Loc → ℕ → Option UInt8} {clock : ℕ} {as : List Act}
    (hrun : Transition.Run (progress.step C) (ResumeGuard C)
      (.load row disk clock, .initial stored) as (s, h)) :
    (∀ i st, get s.bytefield i = false → s.underway i = some st →
        (∀ x < st.offset, x ∈ h.stored i) ∧ st.offset < C.pieceLength i) ∧
      ∀ t ∈ s.tasks, ∀ k i offset, t.pc = .send k i offset → offset ≤ C.pieceLength i := by
  obtain ⟨hI, ht⟩ := ResumeInv.run hfit hpos hrow hrun
  refine ⟨fun i st _ hst => hI.underway i st hst, ?_⟩
  rintro ⟨p, pc⟩ hmem k i offset rfl
  have hhere : offset < C.pieceLength i := (ht _ hmem).here
  exact hhere.le

end Invariant

/-- The first block arrives, and the second one is written when the peer leaves; the task is
saved and restarted with the piece paused. -/
def pausedRun : List Act :=
  onePieceAssigned ++
  ([.piece 0 [0, 0, 0, 0, 0, 0, 0, 0, 1, 2], .run 0 .go, .run 0 .go, .run 0 (.flag false),
    .run 0 .go, .run 0 (.io .ok), .run 0 .go, .run 0 .go, .run 0 .go, .run 0 .go, .run 0 .go,
    .piece 0 [0, 0, 0, 0, 0, 0, 0, 2, 3, 4], .run 0 .go, .run 0 .go, .run 0 (.flag false),
    .run 0 .go, .run 0 (.io .ok), .run 0 .go, .run 0 .go, .peerExit 0, .run 1 (.entry 0),
    .saveProgress, .run 2 .go, .run 2 .go, .run 2 .go, .run 2 .go, .run 2 .go, .restart] : List Act)

/-- The piece is resumed from offset 2, and both bytes before it are stored. -/
theorem resume_sound_twoBlocks :
    ∃ x : State × Progress,
      Transition.Run (progress.step twoBlocks) (ResumeGuard twoBlocks)
        (.load (.added twoBlocks) (fun _ _ => none) 0, .initial fun _ => ∅) pausedRun x ∧
      x.1.underway 0 = some (.pause 2) ∧
      (∀ b < 2, b ∈ x.2.stored 0) ∧ 2 < twoBlocks.pieceLength 0 := by
  have hexec : (Transition.execIf (progress.step twoBlocks) (ResumeGuard twoBlocks)
      (.load (.added twoBlocks) (fun _ _ => none) 0, .initial fun _ => ∅) pausedRun).map
        (fun x => (x.1.underway 0, get x.1.bytefield 0)) = some (some (.pause 2), false) := by
    decide +kernel
  obtain ⟨x, hrun, hview⟩ := Transition.Run.exists_of_execIf hexec
  simp only [Prod.mk.injEq] at hview
  obtain ⟨hsound, -⟩ := resume_sound (by decide) (by decide) (List.forall_mem_nil _) hrun
  obtain ⟨hstored, hlt⟩ := hsound 0 (.pause 2) hview.2 hview.1
  exact ⟨x, hrun, hview.1, hstored, hlt⟩

/-- The block arrives a second time after it has finished the piece, before the handler that
finished it removes the piece. -/
def lateBlockRun : List Act :=
  onePieceAssigned ++
  ([.piece 0 [0, 0, 0, 0, 0, 0, 0, 0, 1, 2, 3, 4], .piece 0 [0, 0, 0, 0, 0, 0, 0, 0, 1, 2, 3, 4],
    .run 0 .go, .run 0 .go, .run 0 (.flag false), .run 0 .go, .run 0 (.io .ok), .run 0 .go,
    .run 0 .go, .run 0 .go, .run 1 .go, .run 1 .go, .run 1 (.flag false), .run 1 .go,
    .run 1 (.io .ok), .run 1 .go, .run 1 .go] : List Act)

/-- The late block writes the frontier of the finished piece, one whole block, as the offset of
a piece of four bytes. -/
theorem offset_beyond_piece :
    ∃ x : State × Progress,
      Transition.FreeRun (progress.step onePiece)
        (.added onePiece fun _ _ => none, .initial fun _ => ∅) lateBlockRun x ∧
      get x.1.bytefield 0 = false ∧ x.1.underway 0 = some (.ing 16384) ∧
      onePiece.pieceLength 0 = 4 := by
  have hexec : (Transition.exec (progress.step onePiece)
      (.added onePiece fun _ _ => none, .initial fun _ => ∅) lateBlockRun).map
        (fun x => (get x.1.bytefield 0, x.1.underway 0)) = some (false, some (.ing 16384)) := by
    decide +kernel
  obtain ⟨x, hrun, hview⟩ := Transition.Run.exists_of_exec hexec
  simp only [Prod.mk.injEq] at hview
  exact ⟨x, hrun, hview.1, hview.2, by decide⟩

end Swarm
