/-
# The counter in `check_piece_download_finished`

The loop over the bytes counts the pieces down, one for every byte, and nothing reads the
counter.  `State.checkDownloadFinished` is the function with this subtraction checked, together
with the flag that it stores; `completion_test_iff` says that it is the test for completion,
except for a torrent with a single piece that is finished.
-/
import Dorodoro.Checked
import Dorodoro.Completion

open Bitmap Checked

namespace Swarm

/-- The loop of `check_piece_download_finished` with its counter `pn`. -/
def checkFinishedCounted : ℕ → UInt8 → Bytes → Except Fault Bool
  | _, _, [] => .ok true
  | pn, lastV, v :: vs =>
      if v ≠ lastV then .ok false
      else (sub pn 1).bind fun pn => checkFinishedCounted pn 255 vs

/-- `check_piece_download_finished`: what it returns, and the state it leaves. -/
def State.checkDownloadFinished (C : Config) (s : State) : Except Fault (Bool × State) :=
  if s.pieceFinished then .ok (true, s)
  else
    (sub C.pieceNum 1).bind fun pn =>
      (checkFinishedCounted pn (255 <<< (7 - pn % 8).toUInt8) s.bytefield.reverse).map fun b =>
        (b, if b then Effect.setPieceFinished.exec C s else s)

/-- `mark_piece_finish`. -/
def State.markPieceFinish (C : Config) (s : State) (i : ℕ) : State :=
  (Effect.removeUnderway i).exec C ((Effect.setBit i).exec C s)

/-- **The test for completion**: it returns whether all pieces are finished, and goes on
returning `true` whatever is marked later. -/
def State.TestsCompletion (C : Config) (s : State) : Prop :=
  ∃ b s', s.checkDownloadFinished C = .ok (b, s') ∧ (b = true ↔ AllBits C s.bytefield) ∧
    (b = true → ∀ marks : List ℕ, ∃ s'',
      (marks.foldl (State.markPieceFinish C) s').checkDownloadFinished C = .ok (true, s''))

section Counter

variable {C : Config} {s : State}

/-- A counter that lasts is the loop without it. -/
theorem checkFinishedCounted_eq {vs : Bytes} : ∀ {pn : ℕ} {lastV : UInt8}, vs.length ≤ pn →
    checkFinishedCounted pn lastV vs = .ok (checkFinishedLoop lastV vs) := by
  induction vs with
  | nil => intro pn lastV _; rfl
  | cons v vs ih =>
      intro pn lastV hlen
      rw [List.length_cons] at hlen
      rw [checkFinishedCounted, checkFinishedLoop]
      by_cases hv : v = lastV
      · have hsub : sub pn 1 = .ok (pn - 1) := sub_eq_ok.mpr ⟨by omega, rfl⟩
        rw [if_neg (not_not.mpr hv), hsub, beq_iff_eq.mpr hv, Bool.true_and]
        exact ih (by omega)
      · rw [if_pos hv, beq_eq_false_iff_ne.mpr hv, Bool.false_and]

/-- The flag answers at once, and no mark clears it. -/
theorem checkDownloadFinished_marks (marks : List ℕ) : ∀ {s : State}, s.pieceFinished = true →
    ∃ s', (marks.foldl (State.markPieceFinish C) s).checkDownloadFinished C = .ok (true, s') := by
  induction marks with
  | nil =>
      intro s h
      exact ⟨s, if_pos h⟩
  | cons i marks ih =>
      intro s h
      exact ih (s := s.markPieceFinish C i) h

/-- A bitmap without spare bits is full exactly when every piece has its bit. -/
theorem eq_fullBitmap_iff (hnum : 1 ≤ C.pieceNum)
    (hlen : s.bytefield.length = C.info.bitfieldLen)
    (hspare : ∀ i, C.pieceNum ≤ i → get s.bytefield i = false) :
    s.bytefield = fullBitmap C.pieceNum ↔ AllBits C s.bytefield := by
  constructor
  · intro he i hi
    rw [he, get_fullBitmap hnum, decide_eq_true_eq]
    exact hi
  · intro hall
    refine ext_get (hlen.trans (length_fullBitmap hnum).symm) fun i _ => ?_
    rw [get_fullBitmap hnum]
    by_cases hi : i < C.pieceNum
    · rw [hall i hi, decide_eq_true hi]
    · rw [hspare i (by omega), decide_eq_false hi]

/-- The function where the counter lasts. -/
theorem checkDownloadFinished_eq (hfin : s.pieceFinished = false) (hnum : 2 ≤ C.pieceNum)
    (hlen : s.bytefield.length = C.info.bitfieldLen) :
    s.checkDownloadFinished C = .ok (s.checkPieceDownloadFinished C,
      if s.checkPieceDownloadFinished C then Effect.setPieceFinished.exec C s else s) := by
  have hbytes : C.info.bitfieldLen = (C.pieceNum + 7) / 8 := rfl
  have hsub : sub C.pieceNum 1 = .ok (C.pieceNum - 1) := sub_eq_ok.mpr ⟨by omega, rfl⟩
  rw [State.checkDownloadFinished, State.checkPieceDownloadFinished, hfin,
    if_neg Bool.false_ne_true, hsub, Bool.false_or]
  show (checkFinishedCounted _ _ _).map _ = _
  rw [checkFinishedCounted_eq (by rw [List.length_reverse]; omega)]
  rfl

theorem testsCompletion_of_two_le (hfin : s.pieceFinished = false) (hnum : 2 ≤ C.pieceNum)
    (hlen : s.bytefield.length = C.info.bitfieldLen)
    (hspare : ∀ i, C.pieceNum ≤ i → get s.bytefield i = false) : s.TestsCompletion C := by
  refine ⟨_, _, checkDownloadFinished_eq hfin hnum hlen, ?_, fun hb marks => ?_⟩
  · have hn : 1 ≤ C.pieceNum := by omega
    rw [State.checkPieceDownloadFinished, hfin, Bool.false_or]
    exact (checkFinishedLoop_iff hn hlen).trans (eq_fullBitmap_iff hn hlen hspare)
  · rw [if_pos hb]
    exact checkDownloadFinished_marks marks rfl

/-- One piece is one byte: the counter is zero before the subtraction. -/
theorem testsCompletion_single_iff (hfin : s.pieceFinished = false) (hnum : C.pieceNum = 1)
    (hlen : s.bytefield.length = C.info.bitfieldLen)
    (hspare : ∀ i, C.pieceNum ≤ i → get s.bytefield i = false) :
    s.TestsCompletion C ↔ get s.bytefield 0 = false := by
  have hfull := eq_fullBitmap_iff (by omega) hlen hspare
  have hall : AllBits C s.bytefield ↔ get s.bytefield 0 = true := by
    rw [AllBits, hnum]
    simp
  have hbytes : C.info.bitfieldLen = (C.pieceNum + 7) / 8 := rfl
  obtain ⟨v, hv⟩ : ∃ v, s.bytefield = [v] := List.length_eq_one_iff.mp (by omega)
  have hone : fullBitmap 1 = [128] := by decide
  have hcheck : s.checkDownloadFinished C =
      if v ≠ 128 then .ok (false, s) else .error .underflow := by
    rw [State.checkDownloadFinished, hfin, if_neg Bool.false_ne_true, hnum, hv]
    by_cases h : v = 128
    · rw [h]
      rfl
    · rw [if_pos h]
      show (checkFinishedCounted 0 128 [v]).map _ = _
      rw [checkFinishedCounted, if_pos h]
      rfl
  have hbit : get s.bytefield 0 = true ↔ v = 128 := by
    rw [← hall, ← hfull, hnum, hone, hv, List.cons.injEq, and_iff_left rfl]
  constructor
  · rintro ⟨b, s', hok, -, -⟩
    by_contra hset
    rw [hcheck, if_neg (not_not.mpr (hbit.mp (by simpa using hset)))] at hok
    cases hok
  · intro hclear
    refine ⟨false, s, ?_, ?_, fun hb => by cases hb⟩
    · rw [hcheck, if_pos]
      intro h
      rw [hbit.mpr h] at hclear
      cases hclear
    · rw [hall, hclear]

/-- **Completion test.**  With at least one piece, a bitmap of the right length and no spare bit
set, `check_piece_download_finished` is the test for completion, and its counter never underflows,
if and only if there are two pieces or the only piece is not finished. -/
theorem completion_test_iff (hnum : 1 ≤ C.pieceNum) (hfin : s.pieceFinished = false)
    (hlen : s.bytefield.length = C.info.bitfieldLen)
    (hspare : ∀ i, C.pieceNum ≤ i → get s.bytefield i = false) :
    s.TestsCompletion C ↔ 2 ≤ C.pieceNum ∨ get s.bytefield 0 = false := by
  rcases Nat.lt_or_ge C.pieceNum 2 with hlt | hge
  · rw [testsCompletion_single_iff hfin (by omega) hlen hspare]
    constructor
    · exact Or.inr
    · rintro (hle | hclear)
      · omega
      · exact hclear
  · exact iff_of_true (testsCompletion_of_two_le hfin hge hlen hspare) (Or.inl hge)

end Counter

/-- Nine pieces with the last one missing. -/
theorem completion_test_nine :
    (State.boot [255, 0] (.added (.singleFile 9 1 (List.replicate 180 0) 0)) (fun _ _ => none)
      0).TestsCompletion (.singleFile 9 1 (List.replicate 180 0) 0) := by
  have hnum : (Config.singleFile 9 1 (List.replicate 180 0) 0).pieceNum = 9 := by decide +kernel
  have hbytes : 2 = (Config.singleFile 9 1 (List.replicate 180 0) 0).info.bitfieldLen := by
    decide +kernel
  have hspare : ∀ i < 16, 9 ≤ i → get [255, 0] i = false := by decide
  refine (completion_test_iff ?_ rfl ?_ fun i hi => ?_).mpr (Or.inl ?_)
  · omega
  · exact hbytes
  · rw [hnum] at hi
    rcases Nat.lt_or_ge i 16 with hlt | hge
    · exact hspare i hlt hi
    · exact get_of_length_le hge
  · omega

/-- A torrent with a single piece that is finished: the counter underflows. -/
theorem single_piece_underflows :
    (State.boot [128] (.added (.singleFile 1 1 (List.replicate 20 0) 0)) (fun _ _ => none)
        0).checkDownloadFinished (.singleFile 1 1 (List.replicate 20 0) 0) = .error .underflow ∧
      ¬ (State.boot [128] (.added (.singleFile 1 1 (List.replicate 20 0) 0)) (fun _ _ => none)
        0).TestsCompletion (.singleFile 1 1 (List.replicate 20 0) 0) := by
  refine ⟨rfl, ?_⟩
  rintro ⟨b, s', hok, -⟩
  cases hok

end Swarm
