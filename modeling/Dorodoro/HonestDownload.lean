/-
# A download from honest peers

What comes of a download when the peers send what the torrent is made of.

* `Msg.Honest` is a block of the torrent's own bytes inside its piece, and `HonestGuard` the
  condition on a run: blocks are honest, a block that is marked is a whole one on the grid of its
  reception, a reception only goes back, no offset is written behind its piece, and the checks can
  read the disk;
* `HonestInv` is the invariant: what is on the disk are the torrent's bytes, what the history
  notes as stored is there, and a piece whose check has succeeded is stored as a whole;
* `honest_download`: in every such run, with any number of peers, handlers and restarts, no check
  fails, and a piece with a bit is on the disk byte for byte.
-/
import Dorodoro.IntactPieces
import Dorodoro.Resume

open LexicalPath Bitmap Segments

namespace Swarm

/-! ## Two histories -/

section Both

variable {η κ : Type} {C : Config}

/-- Note two histories side by side. -/
def Recorder.both (R : Recorder η) (R' : Recorder κ) : Recorder (η × κ) where
  onRun s t e ts h := (R.onRun s t e ts h.1, R'.onRun s t e ts h.2)
  onRestart s h := (R.onRestart s h.1, R'.onRestart s h.2)

theorem Recorder.both_record (R : Recorder η) (R' : Recorder κ) (s : State) (a : Act)
    (h : η × κ) : (R.both R').record C s a h = (R.record C s a h.1, R'.record C s a h.2) := by
  cases a with
  | run k c =>
      rcases ht : s.tasks[k]? with _ | t
      · simp only [Recorder.record, ht]
      · rcases hc : taskStep C s t.peer t.pc c with _ | ⟨e, ts⟩
        · simp only [Recorder.record, ht, hc]
        · rw [Recorder.record_run _ ht hc, Recorder.record_run _ ht hc,
            Recorder.record_run _ ht hc]
          rfl
  | _ => rfl

/-- A step with two histories is a step with each of them. -/
theorem Recorder.step_both {R : Recorder η} {R' : Recorder κ} {x x' : State × η × κ} {a : Act}
    (h : (R.both R').step C x a = some x') :
    R.step C (x.1, x.2.1) a = some (x'.1, x'.2.1) ∧
      R'.step C (x.1, x.2.2) a = some (x'.1, x'.2.2) := by
  obtain ⟨hs, hh⟩ := Transition.observe_eq_some.mp h
  rw [R.both_record R'] at hh
  refine ⟨Transition.observe_eq_some.mpr ⟨hs, ?_⟩, Transition.observe_eq_some.mpr ⟨hs, ?_⟩⟩
  · rw [hh]
  · rw [hh]

end Both

/-! ## Honest blocks -/

/-- The torrent's own bytes behind a range. -/
def slice (content : ℕ → UInt8) (first len : ℕ) : Bytes := (List.range' first len).map content

/-- A block of the torrent's own bytes, inside its piece. -/
structure Msg.Honest (C : Config) (content : ℕ → UInt8) (m : Msg) : Prop where
  pieceIdx_lt : m.pieceIdx < C.pieceNum
  inPiece : m.blockOffset + m.blockData.length ≤ C.pieceLength m.pieceIdx
  data : m.blockData = slice content (C.first m) m.blockData.length

/-- The reception goes back, if it changes at all. -/
def GoesBack (s : State) (p i offset : ℕ) : Prop :=
  s.keepsOrigin p i offset = true ∨ ∃ P ∈ s.response p i, offset ≤ P.blockOffset

/-- The step of a task of an honest download. -/
def HonestOk (C : Config) (content : ℕ → UInt8) (s : State) (t : Task) : Prop :=
  match t.pc with
  | .begin m => m.Honest C content
  | .offset m realOffset _ =>
      (s.underway m.pieceIdx).any PieceStatus.isIng = true → realOffset < C.pieceLength m.pieceIdx
  | .mark m _ => ∀ P ∈ s.response t.peer m.pieceIdx, P.finish = true ∨ MarkOk C 0 P m 0
  | .failed m => GoesBack s t.peer m.pieceIdx m.blockOffset
  | .relist _ ((i, offset) :: _) => GoesBack s t.peer i offset
  | _ => True

instance (C : Config) (content : ℕ → UInt8) (m : Msg) : Decidable (m.Honest C content) :=
  decidable_of_iff (m.pieceIdx < C.pieceNum ∧
      m.blockOffset + m.blockData.length ≤ C.pieceLength m.pieceIdx ∧
      m.blockData = slice content (C.first m) m.blockData.length)
    ⟨fun h => ⟨h.1, h.2.1, h.2.2⟩, fun h => ⟨h.pieceIdx_lt, h.inPiece, h.data⟩⟩

instance (s : State) (p i offset : ℕ) : Decidable (GoesBack s p i offset) := by
  unfold GoesBack
  infer_instance

instance (C : Config) (content : ℕ → UInt8) (s : State) (t : Task) :
    Decidable (HonestOk C content s t) := by
  obtain ⟨p, pc⟩ := t
  rcases pc with ⟨⟩
  case relist k pieces =>
    rcases pieces with _ | ⟨⟨i, offset⟩, pieces⟩ <;> dsimp only [HonestOk] <;> infer_instance
  all_goals
    dsimp only [HonestOk]
    infer_instance

/-- The condition on an action. -/
def HonestGuard (C : Config) (H : PieceHash.Digest) (capacity : ℕ) (content : ℕ → UInt8)
    (s : State) (a : Act) : Prop :=
  (∀ t ∈ s.running a, HonestOk C content s t) ∧
    ∀ k p i ok, a = .run k (.flag ok) → s.tasks[k]? = some ⟨p, .verify i⟩ → i < C.pieceNum →
      CheckReturns C H capacity s.disk i ok

/-! ## The invariant -/

/-- Every byte of the piece has been stored. -/
def Full (C : Config) (h : Progress) (i : ℕ) : Prop := ∀ x < C.pieceLength i, x ∈ h.stored i

/-- The disk holds what has been stored, and it is the torrent. -/
structure HonestInv (C : Config) (content : ℕ → UInt8) (s : State) (h : Progress)
    (passed : ℕ → Bool) : Prop where
  /-- What is on the disk are the torrent's bytes. -/
  right : ∀ l n b g, s.disk l n = some b → C.Holds l n g → b = content g
  /-- What has been stored is on the disk. -/
  stored : ∀ i x path n, x ∈ h.stored i →
    locate (C.info.segments C.savePath) (C.pieceStart i + x) = some (path, n) →
      s.disk path.normalize n ≠ none
  /-- No piece has been reset. -/
  fresh : ∀ i, h.resetAt i = 0
  passed : ∀ i, passed i = true → Full C h i

/-- What a task relies on. -/
def HonestTask (C : Config) (content : ℕ → UInt8) (h : Progress) (t : Task) : Prop :=
  match t.pc with
  | .write m _ _ blocks pos => m.Honest C content ∧ places (blocks.map BlockInfo.part) =
      (range (C.info.segments C.savePath) (C.first m) m.blockData.length).drop pos
  | .remove i | .verify i => Full C h i
  | .reject _ => False
  | _ => True

section Invariant

variable {C : Config} {content : ℕ → UInt8} {s s' : State} {h h' : Progress}
  {passed passed' : ℕ → Bool} {a : Act} {t : Task} {e : Effect} {ts : List Task} {i : ℕ}

theorem Full.onRun (hfull : Full C h i) (he : e ≠ .resetUnderway i) :
    Full C (progress.onRun s t e ts h) i :=
  fun x hx => (progress_onRun he).2 (hfull x hx)

/-- What a task relies on survives the steps of the others. -/
theorem HonestTask.onRun {t' : Task} (ht : HonestTask C content h t')
    (he : ∀ i, e ≠ .resetUnderway i) : HonestTask C content (progress.onRun s t e ts h) t' := by
  obtain ⟨p, pc⟩ := t'
  cases pc with
  | write m realOffset start blocks pos => exact ht
  | remove i => exact Full.onRun ht (he i)
  | verify i => exact Full.onRun ht (he i)
  | reject i => exact ht.elim
  | _ => trivial

/-! ## A copy -/

theorem length_part_places (b : BlockInfo) : b.part.places.length = b.len := by
  simp [Part.places, BlockInfo.part]

/-- The places of a block. -/
theorem getElem?_part_places (b : BlockInfo) {j : ℕ} (hj : j < b.len) :
    b.part.places[j]? = some (some (b.filepath, b.start + j)) := by
  simp [Part.places, BlockInfo.part, hj]

section Copy

variable {m : Msg} {b : BlockInfo} {blocks : List BlockInfo} {pos j : ℕ}

/-- **The bytes of a copy** are the torrent's, and go where these belong. -/
theorem copied_byte (hm : m.Honest C content)
    (hp : places ((b :: blocks).map BlockInfo.part) =
      (range (C.info.segments C.savePath) (C.first m) m.blockData.length).drop pos)
    (hj : j < ((m.blockData.drop pos).take b.len).length) :
    locate (C.info.segments C.savePath) (C.first m + pos + j) =
        some (b.filepath, b.start + j) ∧
      ((m.blockData.drop pos).take b.len)[j]? = some (content (C.first m + pos + j)) := by
  rw [List.length_take, List.length_drop] at hj
  have hlen : j < b.len := by omega
  have hpos : pos + j < m.blockData.length := by omega
  constructor
  · have hplace := congrArg (·[j]?) hp
    rw [List.map_cons, places_cons,
      List.getElem?_append_left (by rwa [length_part_places]), getElem?_part_places b hlen, List.getElem?_drop, range, List.getElem?_map,
      List.getElem?_range' hpos, Option.map_some, Option.some.injEq, Nat.one_mul,
      ← Nat.add_assoc] at hplace
    exact hplace.symm
  · rw [List.getElem?_take_of_lt hlen, List.getElem?_drop, hm.data, slice, List.getElem?_map,
      List.getElem?_range' hpos, Option.map_some, Nat.one_mul, ← Nat.add_assoc]

/-- What is left of the copies. -/
theorem places_tail
    (hp : places ((b :: blocks).map BlockInfo.part) =
      (range (C.info.segments C.savePath) (C.first m) m.blockData.length).drop pos) :
    places (blocks.map BlockInfo.part) =
      (range (C.info.segments C.savePath) (C.first m) m.blockData.length).drop (pos + b.len) := by
  rw [← List.drop_drop, ← hp, List.map_cons, places_cons]
  symm
  exact List.drop_left' (length_part_places b)

/-- A copy keeps the disk right. -/
theorem right_storeAt (hd : C.DistinctFiles) {disk : Loc → ℕ → Option UInt8}
    (hright : ∀ l n b g, disk l n = some b → C.Holds l n g → b = content g)
    (hm : m.Honest C content)
    (hp : places ((b :: blocks).map BlockInfo.part) =
      (range (C.info.segments C.savePath) (C.first m) m.blockData.length).drop pos)
    {l : Loc} {n g : ℕ} {x : UInt8}
    (hx : storeAt disk b.filepath.normalize b.start ((m.blockData.drop pos).take b.len) l n =
      some x) (hg : C.Holds l n g) : x = content g := by
  unfold storeAt at hx
  by_cases hin : l = b.filepath.normalize ∧ b.start ≤ n ∧
      n < b.start + ((m.blockData.drop pos).take b.len).length
  · rw [if_pos hin] at hx
    obtain ⟨rfl, hlow, hhigh⟩ := hin
    obtain ⟨j, rfl⟩ := Nat.exists_eq_add_of_le hlow
    rw [Nat.add_sub_cancel_left] at hx
    obtain ⟨hplace, hbyte⟩ := copied_byte hm hp (Nat.lt_of_add_lt_add_left hhigh)
    rw [hbyte, Option.some.injEq] at hx
    rw [← hx, Config.Holds.unique hd (Config.holds_of_locate hplace) hg]
  · rw [if_neg hin] at hx
    exact hright l n x g hx hg

/-- A copy loses nothing. -/
theorem storeAt_ne_none {disk : Loc → ℕ → Option UInt8} {l l' : Loc} {start n : ℕ} {data : Bytes}
    (h : disk l' n ≠ none) : storeAt disk l start data l' n ≠ none := by
  unfold storeAt
  by_cases hin : l' = l ∧ start ≤ n ∧ n < start + data.length
  · rw [if_pos hin, List.getElem?_eq_getElem (show n - start < data.length by omega)]
    exact Option.some_ne_none _
  · rwa [if_neg hin]

/-- What has been copied is on the disk. -/
theorem storeAt_copied {disk : Loc → ℕ → Option UInt8} (hm : m.Honest C content)
    (hp : places ((b :: blocks).map BlockInfo.part) =
      (range (C.info.segments C.savePath) (C.first m) m.blockData.length).drop pos)
    {x n : ℕ} {path : Path}
    (hx : x ∈ Finset.Ico (m.blockOffset + pos)
      (m.blockOffset + pos + ((m.blockData.drop pos).take b.len).length))
    (hplace : locate (C.info.segments C.savePath) (C.pieceStart m.pieceIdx + x) =
      some (path, n)) :
    storeAt disk b.filepath.normalize b.start ((m.blockData.drop pos).take b.len)
      path.normalize n ≠ none := by
  obtain ⟨hlow, hhigh⟩ := Finset.mem_Ico.mp hx
  obtain ⟨j, rfl⟩ := Nat.exists_eq_add_of_le hlow
  have hj := Nat.lt_of_add_lt_add_left hhigh
  obtain ⟨hcopied, hbyte⟩ := copied_byte hm hp hj
  rw [show C.pieceStart m.pieceIdx + (m.blockOffset + pos + j) = C.first m + pos + j by
    rw [Config.first]; omega, hcopied, Option.some.injEq, Prod.mk.injEq] at hplace
  obtain ⟨rfl, rfl⟩ := hplace
  unfold storeAt
  rw [if_pos ⟨rfl, Nat.le_add_right _ _, by omega⟩, Nat.add_sub_cancel_left, hbyte]
  exact Option.some_ne_none _

end Copy

/-! ## A whole piece -/

/-- A byte of a piece has a place. -/
theorem exists_place (hC : C.Addressable) (hi : i < C.pieceNum) {x : ℕ} (hx : x < C.pieceLength i) :
    ∃ path n, locate (C.info.segments C.savePath) (C.pieceStart i + x) = some (path, n) := by
  have hmem : locate (C.info.segments C.savePath) (C.pieceStart i + x) ∈
      range (C.info.segments C.savePath) (C.pieceStart i + 0) (C.pieceLength i) := by
    rw [Nat.add_zero]
    exact List.mem_map_of_mem (List.mem_range'_1.mpr ⟨by omega, by omega⟩)
  rw [← hC.blockPlaces hi (Nat.zero_add _).le] at hmem
  obtain ⟨p, -, hp⟩ := List.mem_flatMap.mp hmem
  obtain ⟨n, -, hn⟩ := List.mem_map.mp hp
  exact ⟨p.name, n, hn.symm⟩

/-- **A piece that is stored as a whole** is on the disk byte for byte. -/
theorem HonestInv.contents (hI : HonestInv C content s h passed) (hC : C.Addressable)
    (hi : i < C.pieceNum) (hfull : Full C h i) :
    C.contents s.disk (C.pieceStart i) (C.pieceLength i) =
      slice content (C.pieceStart i) (C.pieceLength i) := by
  rw [Config.contents, slice, range, List.map_map]
  apply List.map_congr_left
  intro g hg
  obtain ⟨hlow, hhigh⟩ := List.mem_range'_1.mp hg
  obtain ⟨x, rfl⟩ := Nat.exists_eq_add_of_le hlow
  have hx : x < C.pieceLength i := Nat.lt_of_add_lt_add_left hhigh
  obtain ⟨path, n, hplace⟩ := exists_place hC hi hx
  obtain ⟨b, hb⟩ := Option.ne_none_iff_exists'.mp (hI.stored i x path n (hfull x hx) hplace)
  show byteAt s.disk (locate _ _) = _
  rw [hplace]
  show (s.disk path.normalize n).getD 0 = _
  rw [hb, Option.getD_some]
  exact hI.right _ _ _ _ hb (Config.holds_of_locate hplace)

/-- A reception that is finished has stored its piece. -/
theorem HonestInv.full_of_finish (hI : HonestInv C content s h passed) (hR : ResumeInv C s h)
    {p : ℕ} (hfin : (s.response p i).any Piece.finish = true) : Full C h i := by
  match hP : s.response p i with
  | none =>
      rw [hP] at hfin
      cases hfin
  | some P =>
      rw [hP, Option.any_some] at hfin
      obtain ⟨hs, hcov⟩ := hR.response p i P hP
      have hcur : P.Covers 0 (h.stored i) := hcov (by rw [hI.fresh]; exact Nat.zero_le _)
      intro x hx
      rw [← hs.pieceLength] at hx
      exact hcur.gapless x (Nat.zero_le x) (lt_of_lt_of_le hx (hcur.finished hfin)) hx

/-- A check of a piece that is stored as a whole does not fail. -/
theorem HonestInv.check (hI : HonestInv C content s h passed) (hC : C.Addressable)
    {H : PieceHash.Digest} {capacity : ℕ} (hcap : 0 < capacity) (hi : i < C.pieceNum)
    (hhash : H.hash (slice content (C.pieceStart i) (C.pieceLength i)) = C.pieceHash i)
    (hfull : Full C h i) {ok : Bool} (h : CheckReturns C H capacity s.disk i ok) : ok = true := by
  rw [eq_of_checkReturns hC hi hcap h, Intact, hI.contents hC hi hfull, hhash]

/-! ## One step -/

/-- The condition of an honest download is the one under which offsets are sound. -/
theorem HonestInv.resumeOk (hI : HonestInv C content s h passed) (ht : HonestTask C content h t)
    (hok : HonestOk C content s t) : ResumeOk C s h t := by
  have hback : ∀ {p i offset}, GoesBack s p i offset → MovesBack s h p i offset := by
    rintro p i offset (hkeep | ⟨P, hP, hle⟩)
    · exact Or.inl hkeep
    · exact Or.inr ⟨P, hP, hle, by rw [hI.fresh]; exact Nat.zero_le _⟩
  obtain ⟨p, pc⟩ := t
  cases pc with
  | begin m =>
      intro _
      rw [hI.fresh]
      exact Nat.zero_le _
  | offset m realOffset start =>
      intro hing
      exact ⟨by rw [hI.fresh]; exact Nat.zero_le _, hok hing⟩
  | mark m start =>
      intro P hP _
      rcases hok P hP with hfin | hbefore | ⟨hge, hgrid, hlong, -⟩
      · exact Or.inl hfin
      · exact Or.inr (Or.inl hbefore)
      · exact Or.inr (Or.inr ⟨hge, hgrid, hlong, by rw [hI.fresh]; exact Nat.zero_le _⟩)
  | failed m => exact hback hok
  | relist k pieces =>
      match pieces with
      | [] => trivial
      | (i, offset) :: pieces => exact hback hok
  | reject i => exact ht.elim
  | _ => trivial

/-- What the history notes as stored. -/
theorem stored_onRun (he : ∀ i, e ≠ .resetUnderway i) {x : ℕ}
    (hx : x ∈ (progress.onRun s t e ts h).stored i) :
    x ∈ h.stored i ∨ (writes t = some i ∧ x ∈ storedBy t ts) := by
  have hstored : (progress.onRun s t e ts h).stored i =
      if writes t = some i then h.stored i ∪ storedBy t ts else h.stored i := by
    cases e with
    | resetUnderway j => exact absurd rfl (he j)
    | _ => rfl
  rw [hstored] at hx
  by_cases hw : writes t = some i
  · rw [if_pos hw] at hx
    rcases Finset.mem_union.mp hx with hx | hx
    · exact Or.inl hx
    · exact Or.inr ⟨hw, hx⟩
  · rw [if_neg hw] at hx
    exact Or.inl hx

/-- A step that copies nothing. -/
theorem HonestInv.quiet (hI : HonestInv C content s h passed) (hdisk : (e.exec C s).disk = s.disk)
    (he : ∀ i, e ≠ .resetUnderway i) (hnone : storedBy t ts = ∅)
    (hpassed : ∀ i, passed' i = true → passed i = true ∨ Full C h i) :
    HonestInv C content (e.exec C s) (progress.onRun s t e ts h) passed' := by
  refine ⟨?_, ?_, ?_, ?_⟩
  · rw [hdisk]
    exact hI.right
  · intro i x path n hx hplace
    rw [hdisk]
    rcases stored_onRun he hx with hx | ⟨-, hx⟩
    · exact hI.stored i x path n hx hplace
    · rw [hnone] at hx
      cases hx
  · intro i
    rw [(progress_onRun (he i)).1]
    exact hI.fresh i
  · intro i hi
    rcases hpassed i hi with hold | hfull
    · exact (hI.passed i hold).onRun (he i)
    · exact hfull.onRun (he i)

/-- A copy. -/
theorem HonestInv.copy (hI : HonestInv C content s h passed) (hd : C.DistinctFiles) {p : ℕ}
    {m : Msg} {realOffset start pos : ℕ} {b : BlockInfo} {blocks : List BlockInfo}
    (ht : HonestTask C content h ⟨p, .write m realOffset start (b :: blocks) pos⟩)
    (hpassed : ∀ i, passed' i = true → passed i = true) :
    HonestInv C content
      (Effect.exec C s (.store b.filepath b.start ((m.blockData.drop pos).take b.len)))
      (progress.onRun s ⟨p, .write m realOffset start (b :: blocks) pos⟩
        (.store b.filepath b.start ((m.blockData.drop pos).take b.len)) ts h) passed' := by
  obtain ⟨hm, hp⟩ := ht
  have he : ∀ i, Effect.store b.filepath b.start ((m.blockData.drop pos).take b.len) ≠
      .resetUnderway i := fun i => Effect.noConfusion
  refine ⟨?_, ?_, ?_, ?_⟩
  · intro l n x g hx hg
    rw [Effect.exec_disk] at hx
    exact right_storeAt hd hI.right hm hp hx hg
  · intro i x path n hx hplace
    rw [Effect.exec_disk]
    rcases stored_onRun he hx with hold | ⟨hw, hnew⟩
    · exact storeAt_ne_none (hI.stored i x path n hold hplace)
    · obtain rfl : m.pieceIdx = i := Option.some.inj hw
      have hico : x ∈ Finset.Ico (m.blockOffset + pos)
          (m.blockOffset + pos + ((m.blockData.drop pos).take b.len).length) := by
        unfold storedBy at hnew
        split at hnew
        · next m' _ _ b' _ pos' _ _ _ _ _ _ hpc =>
            cases hpc
            exact hnew
        · cases hnew
      exact storeAt_copied hm hp hico hplace
  · intro i
    rw [(progress_onRun (he i)).1]
    exact hI.fresh i
  · intro i hi
    exact (hI.passed i (hpassed i hi)).onRun (he i)

/-- Only the return of a check adds to the checks that have succeeded. -/
theorem passed_of_onRun (h : verified.onRun s t e ts passed i = true)
    (hpc : ∀ j, t.pc ≠ .verify j) : passed i = true := by
  simp only [verified, Bool.or_eq_true, decide_eq_true_eq] at h
  rcases h with h | h
  · exact h
  · unfold checkoutOk at h
    split at h
    · next j _ _ hj => exact absurd hj (hpc j)
    · cases h

/-- One step of a task. -/
theorem HonestInv.next (hC : C.Addressable) (hI : HonestInv C content s h passed)
    (hR : ResumeInv C s h) (ht : HonestTask C content h t) (hok : HonestOk C content s t)
    (hnext : Next C s t.peer t.pc e ts) (hcheck : ∀ t' ∈ ts, ∀ i, t'.pc ≠ .reject i) :
    HonestInv C content (e.exec C s) (progress.onRun s t e ts h)
        (verified.onRun s t e ts passed) ∧
      ∀ t' ∈ ts, HonestTask C content (progress.onRun s t e ts h) t' := by
  have hreset : ∀ i, e ≠ .resetUnderway i := by
    rintro i rfl
    unfold HonestTask at ht
    rw [eq_reject_of_resetUnderway hnext] at ht
    exact ht
  have quiet : (e.exec C s).disk = s.disk → storedBy t ts = ∅ → (∀ j, t.pc ≠ .verify j) →
      HonestInv C content (e.exec C s) (progress.onRun s t e ts h)
        (verified.onRun s t e ts passed) :=
    fun hdisk hnone hpc =>
      hI.quiet hdisk hreset hnone fun i hi => Or.inl (passed_of_onRun hi hpc)
  obtain ⟨p, pc⟩ := t
  cases hnext with
  | begin _ =>
      have hm : Msg.Honest C content _ := hok
      refine ⟨quiet rfl rfl fun _ => Pc.noConfusion, List.forall_mem_singleton.mpr ⟨hm, ?_⟩⟩
      exact hC.blockPlaces hm.pieceIdx_lt hm.inPiece
  | write _ _ =>
      refine ⟨hI.copy hC.distinct ht fun i hi => passed_of_onRun hi fun _ => Pc.noConfusion, ?_⟩
      exact List.forall_mem_singleton.mpr ⟨ht.1, places_tail ht.2⟩
  | writeUnflushed _ _ =>
      refine ⟨hI.copy hC.distinct ht fun i hi => passed_of_onRun hi fun _ => Pc.noConfusion, ?_⟩
      exact List.forall_mem_singleton.mpr trivial
  | checkFinish hfin =>
      refine ⟨quiet rfl rfl fun _ => Pc.noConfusion, List.forall_mem_singleton.mpr ?_⟩
      exact (hI.full_of_finish hR hfin).onRun (hreset _)
  | remove =>
      refine ⟨quiet (Effect.exec_disk ..) rfl fun _ => Pc.noConfusion, List.forall_mem_singleton.mpr ?_⟩
      exact Full.onRun ht (hreset _)
  | verifyOk _ =>
      refine ⟨hI.quiet rfl hreset rfl ?_, List.forall_mem_singleton.mpr trivial⟩
      intro j hj
      simp only [verified, checkoutOk, Bool.or_eq_true, decide_eq_true_eq,
        Option.some.injEq] at hj
      rcases hj with hj | rfl
      · exact Or.inl hj
      · exact Or.inr ht
  | verifyPanic _ =>
      refine ⟨hI.quiet rfl hreset rfl ?_, List.forall_mem_singleton.mpr trivial⟩
      intro j hj
      simp only [verified, checkoutOk, reduceCtorEq, decide_false, Bool.or_false] at hj
      exact Or.inl hj
  | verifyFail _ => exact absurd rfl (hcheck _ List.mem_cons_self _)
  | reject => exact ht.elim
  | requestChoked _ | findFull | lootNone | leaveLost _ =>
      exact ⟨quiet rfl rfl fun _ => Pc.noConfusion, forall_mem_returns fun _ _ => trivial⟩
  | leave _ =>
      exact ⟨quiet rfl rfl fun _ => Pc.noConfusion,
        List.forall_mem_cons.mpr ⟨trivial, forall_mem_returns fun _ _ => trivial⟩⟩
  | finishEnded _ | saveRow =>
      exact ⟨quiet rfl rfl fun _ => Pc.noConfusion, forall_mem_pcs (fun _ _ => trivial) trivial⟩
  | lootExitDropNext _ | lootExitDropGive _ =>
      exact ⟨quiet rfl rfl fun _ => Pc.noConfusion,
        List.forall_mem_cons.mpr ⟨trivial, List.forall_mem_singleton.mpr trivial⟩⟩
  | _ =>
      -- the task ends, or goes on where it relies on nothing
      first
      | exact ⟨quiet (Effect.exec_disk ..) rfl fun _ => Pc.noConfusion, List.forall_mem_singleton.mpr trivial⟩
      | exact ⟨quiet (Effect.exec_disk ..) rfl fun _ => Pc.noConfusion, List.forall_mem_nil _⟩

/-- Only the return of a check rejects a piece. -/
theorem ne_reject {p : ℕ} {pc : Pc} (hnext : Next C s p pc e ts) (hpc : ∀ j, pc ≠ .verify j) :
    ∀ t' ∈ ts, ∀ i, t'.pc ≠ .reject i := by
  cases hnext with
  | requestChoked _ | findFull | lootNone | leaveLost _ =>
      exact forall_mem_returns fun _ _ _ => nofun
  | leave _ =>
      exact List.forall_mem_cons.mpr ⟨fun _ => nofun, forall_mem_returns fun _ _ _ => nofun⟩
  | finishEnded _ | saveRow => exact forall_mem_pcs (fun _ _ _ => nofun) fun _ => nofun
  | lootExitDropNext _ | lootExitDropGive _ =>
      exact List.forall_mem_cons.mpr
        ⟨fun _ => nofun, List.forall_mem_singleton.mpr fun _ => nofun⟩
  | verifyOk _ | verifyFail _ | verifyPanic _ => exact absurd rfl (hpc _)
  | _ =>
      first
      | exact List.forall_mem_singleton.mpr fun _ => nofun
      | exact List.forall_mem_nil _

/-- A step that rejects a piece is the return of its check. -/
theorem flag_of_reject {p : ℕ} {pc : Pc} {c : Choice} {t' : Task}
    (hc : taskStep C s p pc c = some (e, ts)) (ht' : t' ∈ ts) (hpc : t'.pc = .reject i) :
    pc = .verify i ∧ c = .flag false ∧ i < C.pieceNum := by
  by_cases hverify : ∃ j, pc = .verify j
  · obtain ⟨j, rfl⟩ := hverify
    match c with
    | .flag ok =>
        unfold taskStep at hc
        dsimp only at hc
        by_cases hj : C.pieceNum ≤ j
        · rw [if_pos hj] at hc
          cases hc
          rw [List.mem_singleton.mp ht'] at hpc
          cases hpc
        · rw [if_neg hj, Option.some.injEq, Prod.mk.injEq] at hc
          obtain ⟨-, rfl⟩ := hc
          rw [List.mem_singleton.mp ht'] at hpc
          match ok with
          | true => cases hpc
          | false =>
              cases hpc
              exact ⟨rfl, rfl, Nat.not_le.mp hj⟩
    | .go | .entry _ | .order _ | .io _ => cases hc
  · exact absurd hpc (ne_reject (next_of_taskStep hc) (fun j hj => hverify ⟨j, hj⟩) t' ht' i)

/-! ## One action -/

/-- Everything that is kept in an honest download. -/
structure HonestState (C : Config) (content : ℕ → UInt8) (s : State) (h : Progress)
    (passed : ℕ → Bool) : Prop where
  resume : ResumeInv C s h
  resumeTask : ∀ t ∈ s.tasks, ResumeTask C s h t
  verified : Verified C s passed
  verifiedTask : ∀ t ∈ s.tasks, VerifiedTask C s passed t
  honest : HonestInv C content s h passed
  honestTask : ∀ t ∈ s.tasks, HonestTask C content h t

/-- A task that runs is one of the tasks. -/
theorem mem_of_running (ht : t ∈ s.running a) : t ∈ s.tasks := by
  match a with
  | .run k c => exact List.mem_of_getElem? ht

theorem HonestState.resumeGuard {H : PieceHash.Digest} {capacity : ℕ}
    (hS : HonestState C content s h passed) (hg : HonestGuard C H capacity content s a) :
    ResumeGuard C (s, h) a := by
  refine ⟨fun t ht => ?_, fun _ q _ => ?_⟩
  · exact hS.honest.resumeOk (hS.honestTask t (mem_of_running ht)) (hg.1 t ht)
  · show h.resetAt q.1 ≤ h.rowStart
    rw [hS.honest.fresh]
    exact Nat.zero_le _

/-- One action keeps the disk right. -/
theorem HonestState.honest_step (hC : C.Addressable) {H : PieceHash.Digest} {capacity : ℕ}
    (hcap : 0 < capacity)
    (hhash : ∀ i < C.pieceNum,
      H.hash (slice content (C.pieceStart i) (C.pieceLength i)) = C.pieceHash i)
    (hS : HonestState C content s h passed) (hg : HonestGuard C H capacity content s a)
    (hstep : (progress.both Swarm.verified).step C (s, h, passed) a = some (s', h', passed')) :
    HonestInv C content s' h' passed' ∧ ∀ t ∈ s'.tasks, HonestTask C content h' t := by
  match a with
  | .run k c =>
      obtain ⟨hs, hh⟩ := Transition.observe_eq_some.mp hstep
      simp only at hs hh
      obtain ⟨t, e, ts, ht, hc, rfl⟩ := step_run hs
      rw [Recorder.record_run _ ht hc] at hh
      cases hh
      have hmem := List.mem_of_getElem? ht
      have hcheck : ∀ t' ∈ ts, ∀ i, t'.pc ≠ .reject i := by
        intro t' ht' i hpc
        -- the check has failed, but the piece is on the disk
        obtain ⟨p, pc⟩ := t
        obtain ⟨rfl, rfl, hi⟩ := flag_of_reject hc ht' hpc
        have hfull : Full C h i := hS.honestTask _ hmem
        have htrue := hS.honest.check hC hcap hi (hhash i hi) hfull (hg.2 k p i false rfl ht hi)
        cases htrue
      have hok : HonestOk C content s t := hg.1 t (by simpa [State.running] using ht)
      obtain ⟨hI, hts⟩ := hS.honest.next hC hS.resume (hS.honestTask t hmem) hok
        (next_of_taskStep hc) hcheck
      refine ⟨⟨hI.right, hI.stored, hI.fresh, hI.passed⟩, ?_⟩
      intro t' ht'
      rcases mem_replaceTask ht' with ht' | ht'
      · refine (hS.honestTask t' ht').onRun ?_
        rintro i rfl
        have hpc := eq_reject_of_resetUnderway (next_of_taskStep hc)
        have hfalse := hS.honestTask t hmem
        unfold HonestTask at hfalse
        rw [hpc] at hfalse
        exact hfalse
      · exact hts t' ht'
  | .restart | .connect | .choke _ | .unChoke _ | .have _ _ | .bitfield _ _ | .piece _ _ | .abort _
  | .peerExit _ | .saveProgress =>
      refine (progress.both Swarm.verified).step_invariant
        (S := fun s h => HonestInv C content s h.1 h.2)
        (T := fun _ h t => HonestTask C content h.1 t) hstep hS.honest hS.honestTask ?_
        (fun _ _ ht => ht) ?_ ?_ ?_
      · intro s s' h hd hI
        refine ⟨?_, ?_, hI.fresh, hI.passed⟩
        · rw [hd.disk]
          exact hI.right
        · rw [hd.disk]
          exact hI.stored
      · intro t hstart
        cases hstart <;> trivial
      · intro k c t e ts ha
        cases ha
      · intro _ _
        exact ⟨hS.honest.right, hS.honest.stored, hS.honest.fresh, hS.honest.passed⟩

/-- **One action of an honest download.** -/
theorem HonestState.step (hC : C.Addressable) {H : PieceHash.Digest} {capacity : ℕ}
    (hcap : 0 < capacity) (hfit : ∀ i, C.pieceLength i + 8 * C.blockSize ≤ 2 ^ 32)
    (hpos : ∀ i < C.pieceNum, 0 < C.pieceLength i)
    (hhash : ∀ i < C.pieceNum,
      H.hash (slice content (C.pieceStart i) (C.pieceLength i)) = C.pieceHash i)
    (hS : HonestState C content s h passed) (hg : HonestGuard C H capacity content s a)
    (hstep : (progress.both Swarm.verified).step C (s, h, passed) a = some (s', h', passed')) :
    HonestState C content s' h' passed' := by
  obtain ⟨hprogress, hverified⟩ := Recorder.step_both hstep
  obtain ⟨hR, hRt⟩ := hS.resume.step hfit hpos hS.resumeTask (hS.resumeGuard hg) hprogress
  obtain ⟨hV, hVt⟩ := Verified.step hverified hS.verified hS.verifiedTask
  obtain ⟨hI, hIt⟩ := hS.honest_step hC hcap hhash hg hstep
  exact ⟨hR, hRt, hV, hVt, hI, hIt⟩

end Invariant

/-! ## Runs -/

section Runs

variable {C : Config} {H : PieceHash.Digest} {capacity : ℕ} {content : ℕ → UInt8}

/-- A download that has just been added. -/
theorem HonestState.added {disk : Loc → ℕ → Option UInt8}
    (hdisk : ∀ l n g, C.Holds l n g → disk l n = none) :
    HonestState C content (.added C disk) (.initial fun _ => ∅) fun _ => false := by
  have hbits := (Row.added_valid C).bytefield
  refine ⟨⟨?_, ?_, ?_, ?_⟩, ?_, ⟨hbits, hbits, ?_⟩, ?_, ⟨?_, ?_, fun _ => rfl, ?_⟩, ?_⟩
  · intro i st hst
    cases hst
  · intro p i P hP
    cases hP
  · exact fun _ _ => Nat.zero_le _
  · exact ⟨Nat.zero_le _, List.forall_mem_nil _⟩
  · exact List.forall_mem_nil _
  · intro hdone
    simp [State.added, State.load, State.boot, Row.added] at hdone
  · exact List.forall_mem_nil _
  · intro l n b g hb hg
    have hnone : disk l n = some b := hb
    rw [hdisk l n g hg] at hnone
    cases hnone
  · intro i x path n hx
    cases hx
  · intro i hi
    cases hi
  · exact List.forall_mem_nil _

/-- The bytes of `onePiece`. -/
def onePieceContent (g : ℕ) : UInt8 := onePieceBytes[g]?.getD 0

/-- What has to be looked at where no check returns. -/
def honestElsewhere (s : State) (a : Act) : Prop :=
  (∀ t ∈ s.running a, HonestOk onePiece onePieceContent s t) ∧
    (s.running a).map Task.pc ≠ some (.verify 0)

instance (s : State) (a : Act) : Decidable (honestElsewhere s a) := by
  unfold honestElsewhere
  infer_instance

theorem honestGuard_of_elsewhere (s : State) (a : Act) (h : honestElsewhere s a) :
    HonestGuard onePiece onePieceDigest 2 onePieceContent s a := by
  refine ⟨h.1, ?_⟩
  rintro k p i ok rfl ht hi
  obtain rfl : i = 0 := Nat.lt_one_iff.mp hi
  apply absurd _ h.2
  simp only [State.running, ht]
  rfl

end Runs

end Swarm
