/-
# The counter of downloaded bytes

`on_store_block_success` adds the length of a block, `on_verify_piece_failed` subtracts the
length of a piece, and the value is saved and loaded.

The history keeps, for every piece, the set of bytes that have been counted.  As long as
every counted block lies inside its piece and counts no byte again, a piece is verified only
with all its bytes counted, and a loaded counter stands for the loaded pieces, the counter is
the number of counted bytes (`Accounted`): it never wraps, never exceeds the length of the
torrent, and is that length when every piece is verified (`download_accounting`).  The code
checks none of this, and a block that is sent twice is counted twice (`counted_twice`).
-/
import Dorodoro.Completion
import Dorodoro.PieceGeometry

open LexicalPath Bitmap

namespace Swarm

/-! ## The lengths of the pieces -/

/-- Sizes for which the offset of a piece does not wrap. -/
structure Config.Sized (C : Config) : Prop where
  length_lt : C.info.length < 2 ^ 64
  offset_lt : ∀ i < C.pieceNum, i * C.info.pieceLength < 2 ^ 64

/-- A consistent geometry: the pieces cover the files, and a piece length fits in `u32`. -/
structure Config.Consistent (C : Config) : Prop where
  pieceLength_lt : C.info.pieceLength < 2 ^ 32
  covers : C.info.length ≤ C.pieceNum * C.info.pieceLength

theorem Config.pieceLength_eq {C : Config} (hs : C.Sized) {i : ℕ} (hi : i < C.pieceNum) :
    C.pieceLength i =
      u32 (min C.info.pieceLength (C.info.length - i * C.info.pieceLength)) := by
  rw [pieceLength, Info.pieceLengthOf, u64, Nat.mod_eq_of_lt (hs.offset_lt i hi)]

theorem Config.pieceLength_lt (C : Config) (i : ℕ) : C.pieceLength i < 2 ^ 32 :=
  Nat.mod_lt _ (by decide)

theorem Config.sum_pieceLength_le {C : Config} (hs : C.Sized) :
    ∑ i ∈ Finset.range C.pieceNum, C.pieceLength i ≤ C.info.length := by
  calc ∑ i ∈ Finset.range C.pieceNum, C.pieceLength i
      ≤ ∑ i ∈ Finset.range C.pieceNum,
          min C.info.pieceLength (C.info.length - i * C.info.pieceLength) := by
        apply Finset.sum_le_sum
        intro i hi
        rw [C.pieceLength_eq hs (Finset.mem_range.mp hi)]
        exact u32_le _
    _ = min C.info.length (C.pieceNum * C.info.pieceLength) := sum_min_sub _ _ _
    _ ≤ C.info.length := min_le_left _ _

theorem Config.sum_pieceLength_eq {C : Config} (hs : C.Sized) (hc : C.Consistent) :
    ∑ i ∈ Finset.range C.pieceNum, C.pieceLength i = C.info.length := by
  calc ∑ i ∈ Finset.range C.pieceNum, C.pieceLength i
      = ∑ i ∈ Finset.range C.pieceNum,
          min C.info.pieceLength (C.info.length - i * C.info.pieceLength) := by
        apply Finset.sum_congr rfl
        intro i hi
        rw [C.pieceLength_eq hs (Finset.mem_range.mp hi), u32, Nat.mod_eq_of_lt]
        exact lt_of_le_of_lt (min_le_left _ _) hc.pieceLength_lt
    _ = min C.info.length (C.pieceNum * C.info.pieceLength) := sum_min_sub _ _ _
    _ = C.info.length := min_eq_left hc.covers

/-! ## Counted bytes -/

/-- The bytes of a block. -/
def Msg.bytes (m : Msg) : Finset ℕ := Finset.Ico m.blockOffset (m.blockOffset + m.blockData.length)

/-- The bytes a saved row stands for: whole verified pieces, and the others up to their
offset. -/
def Row.counted (C : Config) (row : Row) (i : ℕ) : Finset ℕ :=
  if get row.bytefield i then Finset.range (C.pieceLength i)
  else
    match row.underway.findRev? fun e => e.1 == i with
    | some e => Finset.range e.2.offset
    | none => ∅

/-- The history: the bytes of each piece that have been counted. -/
def counted (C : Config) : Recorder (ℕ → Finset ℕ) where
  onRun _ t _ _ h :=
    match t.pc with
    | .count m => Function.update h m.pieceIdx (h m.pieceIdx ∪ m.bytes)
    | .discount i => Function.update h i ∅
    | _ => h
  onRestart s _ := s.row.counted C

/-- The number of counted bytes. -/
def total (C : Config) (h : ℕ → Finset ℕ) : ℕ := ∑ i ∈ Finset.range C.pieceNum, (h i).card

/-- The step of a task keeps the count exact: a counted block lies inside its piece and
counts no byte again, and a piece is verified or rejected with all its bytes counted. -/
def CountOk (C : Config) (s : State) (h : ℕ → Finset ℕ) (t : Task) : Prop :=
  match t.pc with
  | .count m =>
      m.bytes ⊆ Finset.range (C.pieceLength m.pieceIdx) ∧ Disjoint (h m.pieceIdx) m.bytes
  | .accept i => h i = Finset.range (C.pieceLength i)
  | .discount i => h i = Finset.range (C.pieceLength i) ∧ get s.bytefield i = false
  | _ => True

instance (C : Config) (s : State) (h : ℕ → Finset ℕ) (t : Task) : Decidable (CountOk C s h t) := by
  unfold CountOk
  split <;> infer_instance

/-- A row whose counter stands for its pieces. -/
structure Row.Counted (C : Config) (row : Row) : Prop where
  inside : ∀ i < C.pieceNum, row.counted C i ⊆ Finset.range (C.pieceLength i)
  download : row.download = total C (row.counted C)

instance (C : Config) (row : Row) : Decidable (row.Counted C) :=
  decidable_of_iff ((∀ i < C.pieceNum, row.counted C i ⊆ Finset.range (C.pieceLength i)) ∧
    row.download = total C (row.counted C)) ⟨fun h => ⟨h.1, h.2⟩, fun h => ⟨h.inside, h.download⟩⟩

/-- The condition on an action. -/
def CountGuard (C : Config) (x : State × (ℕ → Finset ℕ)) (a : Act) : Prop :=
  (∀ t ∈ x.1.running a, CountOk C x.1 x.2 t) ∧ (a = .restart → x.1.row.Counted C)

instance (C : Config) (x : State × (ℕ → Finset ℕ)) (a : Act) : Decidable (CountGuard C x a) := by
  unfold CountGuard
  infer_instance

/-- The invariant: the counter is the number of counted bytes. -/
structure Accounted (C : Config) (s : State) (h : ℕ → Finset ℕ) : Prop where
  inside : ∀ i < C.pieceNum, h i ⊆ Finset.range (C.pieceLength i)
  download : s.download = total C h
  full : ∀ i < C.pieceNum, get s.bytefield i = true → h i = Finset.range (C.pieceLength i)

section Accounted

variable {C : Config} {s s' : State} {h h' : ℕ → Finset ℕ} {a : Act}

theorem total_update {i : ℕ} (hi : i < C.pieceNum) (X : Finset ℕ) :
    total C (Function.update h i X) + (h i).card = total C h + X.card := by
  have hmem : i ∈ Finset.range C.pieceNum := Finset.mem_range.mpr hi
  have hcard : (fun j => (Function.update h i X j).card) =
      Function.update (fun j => (h j).card) i X.card := by
    funext j
    by_cases hj : j = i
    · subst hj
      simp
    · simp [hj]
  unfold total
  rw [show ∑ j ∈ Finset.range C.pieceNum, (Function.update h i X j).card =
    ∑ j ∈ Finset.range C.pieceNum, Function.update (fun j => (h j).card) i X.card j by rw [← hcard],
    Finset.sum_update_of_mem hmem, Finset.sdiff_singleton_eq_erase,
    ← Finset.add_sum_erase _ (fun j => (h j).card) hmem]
  omega

/-- Counted bytes of the pieces are at most the length of the torrent. -/
theorem total_le (hs : C.Sized) (hin : ∀ i < C.pieceNum, h i ⊆ Finset.range (C.pieceLength i)) :
    total C h ≤ C.info.length := by
  calc total C h ≤ ∑ i ∈ Finset.range C.pieceNum, C.pieceLength i := by
        apply Finset.sum_le_sum
        intro i hi
        have := Finset.card_le_card (hin i (Finset.mem_range.mp hi))
        rwa [Finset.card_range] at this
    _ ≤ C.info.length := C.sum_pieceLength_le hs

/-- With every piece verified, the counter is the length of the torrent. -/
theorem Accounted.total_eq (hs : C.Sized) (hc : C.Consistent) (hA : Accounted C s h)
    (hall : ∀ i < C.pieceNum, get s.bytefield i = true) : total C h = C.info.length := by
  rw [← C.sum_pieceLength_eq hs hc]
  apply Finset.sum_congr rfl
  intro i hi
  have hi := Finset.mem_range.mp hi
  rw [hA.full i hi (hall i hi), Finset.card_range]

/-- Counting a block. -/
theorem Accounted.count (hs : C.Sized) (hA : Accounted C s h) {m : Msg}
    (hi : m.pieceIdx < C.pieceNum)
    (hin : m.bytes ⊆ Finset.range (C.pieceLength m.pieceIdx))
    (hnew : Disjoint (h m.pieceIdx) m.bytes) :
    Accounted C ((Effect.count (u32 m.blockData.length)).exec C s)
      (Function.update h m.pieceIdx (h m.pieceIdx ∪ m.bytes)) := by
  have hcard : m.bytes.card = m.blockData.length := by
    rw [Msg.bytes, Nat.card_Ico, Nat.add_sub_cancel_left]
  have hlen : m.blockData.length < 2 ^ 32 := by
    have hle := Finset.card_le_card hin
    rw [hcard, Finset.card_range] at hle
    exact lt_of_le_of_lt hle (C.pieceLength_lt _)
  have hsum : total C (Function.update h m.pieceIdx (h m.pieceIdx ∪ m.bytes)) =
      total C h + m.blockData.length := by
    have := total_update (h := h) hi (h m.pieceIdx ∪ m.bytes)
    rw [Finset.card_union_of_disjoint hnew, hcard] at this
    omega
  have hinside : ∀ i < C.pieceNum,
      Function.update h m.pieceIdx (h m.pieceIdx ∪ m.bytes) i ⊆ Finset.range (C.pieceLength i) := by
    intro i hi'
    by_cases heq : i = m.pieceIdx
    · subst heq
      rw [Function.update_self]
      exact Finset.union_subset (hA.inside _ hi) hin
    · rw [Function.update_of_ne heq]
      exact hA.inside i hi'
  refine ⟨hinside, ?_, ?_⟩
  · -- the sum stays below the length of the torrent, so the addition does not wrap
    have hbound : total C h + m.blockData.length ≤ C.info.length := by
      rw [← hsum]
      exact total_le hs hinside
    rw [Effect.exec_download, hsum]
    simp only
    rw [hA.download, u32, Nat.mod_eq_of_lt hlen]
    exact u64_eq (lt_of_le_of_lt hbound hs.length_lt)
  · intro i hi' hget
    have hfull := hA.full i hi' (by simpa using hget)
    by_cases heq : i = m.pieceIdx
    · subst heq
      rw [Function.update_self, hfull]
      exact Finset.union_eq_left.mpr hin
    · rw [Function.update_of_ne heq, hfull]

/-- Taking a rejected piece off. -/
theorem Accounted.discount (hs : C.Sized) (hA : Accounted C s h) {i : ℕ} (hi : i < C.pieceNum)
    (hfull : h i = Finset.range (C.pieceLength i)) (hbit : get s.bytefield i = false) :
    C.pieceLength i ≤ s.download ∧
      Accounted C ((Effect.discount (C.pieceLength i)).exec C s) (Function.update h i ∅) := by
  have hsum := total_update (h := h) hi ∅
  rw [hfull, Finset.card_range, Finset.card_empty, Nat.add_zero] at hsum
  have hle : C.pieceLength i ≤ s.download := by
    rw [hA.download]
    omega
  refine ⟨hle, ?_, ?_, ?_⟩
  · intro j hj
    by_cases heq : j = i
    · subst heq
      rw [Function.update_self]
      exact Finset.empty_subset _
    · rw [Function.update_of_ne heq]
      exact hA.inside j hj
  · have hlt : s.download < 2 ^ 64 := by
      rw [hA.download]
      exact lt_of_le_of_lt (total_le hs hA.inside) hs.length_lt
    rw [Effect.exec_download]
    simp only
    rw [u64Sub_eq hlt hle, hA.download]
    omega
  · intro j hj hget
    have hget : get s.bytefield j = true := by simpa using hget
    have hne : j ≠ i := by
      intro heq
      rw [heq, hbit] at hget
      cases hget
    rw [Function.update_of_ne hne]
    exact hA.full j hj hget

/-- Accesses that neither count nor verify. -/
theorem Accounted.frame {s' : State} (hA : Accounted C s h) (hd : s'.download = s.download)
    (hb : s'.bytefield = s.bytefield) : Accounted C s' h :=
  ⟨hA.inside, hd.trans hA.download, by rw [hb]; exact hA.full⟩

/-- Verifying a piece with all its bytes counted. -/
theorem Accounted.setBit (hA : Accounted C s h) {i : ℕ}
    (hfull : h i = Finset.range (C.pieceLength i)) :
    Accounted C ((Effect.setBit i).exec C s) h := by
  refine ⟨hA.inside, ?_, ?_⟩
  · simpa using hA.download
  · intro j hj hget
    rw [Effect.exec_bytefield] at hget
    rcases eq_or_get_of_get_set hget with rfl | hget
    · exact hfull
    · exact hA.full j hj hget

/-- One step of a task. -/
theorem Accounted.next (hs : C.Sized) (hA : Accounted C s h) {t : Task} {e : Effect}
    {ts : List Task} (hr : t.InRange C) (hok : CountOk C s h t)
    (hnext : Next C s t.peer t.pc e ts) :
    Accounted C (e.exec C s) ((counted C).onRun s t e ts h) := by
  obtain ⟨p, pc⟩ := t
  cases hnext with
  | count => exact hA.count hs (hr _ (by simp [Pc.pieces])) hok.1 hok.2
  | discount => exact (hA.discount hs (hr _ (by simp [Pc.pieces])) hok.1 hok.2).2
  | discountQuit => exact (hA.discount hs (hr _ (by simp [Pc.pieces])) hok.1 hok.2).2
  | accept => exact hA.setBit hok
  | _ => exact hA.frame (by simp) (by simp)

/-- A loaded row. -/
theorem Row.Counted.accounted {row : Row} (hrow : row.Counted C) (disk : Loc → ℕ → Option UInt8)
    (clock : ℕ) : Accounted C (.load row disk clock) (row.counted C) := by
  refine ⟨hrow.inside, hrow.download, ?_⟩
  intro i _ hget
  have hget : get row.bytefield i = true := hget
  rw [Row.counted, if_pos hget]

/-- The invariant and the range of the pieces. -/
structure AccountInv (C : Config) (x : State × (ℕ → Finset ℕ)) : Prop where
  accounted : Accounted C x.1 x.2
  responses : x.1.ResponsesInRange C
  tasks : ∀ t ∈ x.1.tasks, t.InRange C

/-- **One action keeps the counter exact.** -/
theorem AccountInv.step (hs : C.Sized) {x x' : State × (ℕ → Finset ℕ)} (hI : AccountInv C x)
    (hg : CountGuard C x a) (hstep : (counted C).step C x a = some x') : AccountInv C x' := by
  obtain ⟨s, h⟩ := x
  obtain ⟨s', h'⟩ := x'
  obtain ⟨hr, ht⟩ := inRange_step hstep hI.responses hI.tasks
  have hA : Accounted C s' h' ∧ ∀ t ∈ s'.tasks, True := by
    refine (counted C).step_invariant (T := fun _ _ _ => True) hstep hI.accounted
      (fun _ _ => trivial) ?_ (fun _ _ _ => trivial) (fun _ _ => trivial) ?_ ?_
    · intro s s' h hd hA
      exact hA.frame hd.download hd.bytefield
    · rintro k c t e ts rfl htask hmem hnext
      have hok : CountOk C s h t := hg.1 t htask
      exact ⟨hI.accounted.next hs (hI.tasks t hmem) hok hnext, by simp, by simp⟩
    · rintro rfl _
      exact (hg.2 rfl).accounted _ _
  exact ⟨hA.1, hr, ht⟩

/-! ## Runs -/

theorem AccountInv.run (hs : C.Sized) {row : Row} (hrow : row.Counted C)
    {disk : Loc → ℕ → Option UInt8} {clock : ℕ} {as : List Act} {x : State × (ℕ → Finset ℕ)}
    (hrun : Transition.Run ((counted C).step C) (CountGuard C)
      (.load row disk clock, row.counted C) as x) : AccountInv C x := by
  have h₀ : AccountInv C (.load row disk clock, row.counted C) := by
    refine ⟨hrow.accounted disk clock, ?_, ?_⟩
    · intro q j hsome
      cases hsome
    · intro t ht
      cases ht
  exact hrun.invariant h₀ fun x a x' hI hg hstep => hI.step hs hg hstep

/-- **Accounting.**  In every run whose actions meet the condition: no subtraction of the
counter wraps, the counter is at most the length of the torrent, and it is that length when
every piece of a torrent with consistent geometry is verified. -/
theorem download_accounting (hs : C.Sized) {row : Row} (hrow : row.Counted C)
    {disk : Loc → ℕ → Option UInt8} {clock : ℕ} {as : List Act} {s : State} {h : ℕ → Finset ℕ}
    (hrun : Transition.Run ((counted C).step C) (CountGuard C)
      (.load row disk clock, row.counted C) as (s, h)) :
    (∀ a t i, CountGuard C (s, h) a → s.running a = some t → t.pc = .discount i →
        C.pieceLength i ≤ s.download) ∧
      s.download ≤ C.info.length ∧
      (C.Consistent → (∀ i < C.pieceNum, get s.bytefield i = true) →
        s.download = C.info.length) := by
  have hI := AccountInv.run hs hrow hrun
  have hA : Accounted C s h := hI.accounted
  refine ⟨?_, ?_, ?_⟩
  · rintro a ⟨p, pc⟩ i hg ht rfl
    have hok : CountOk C s h ⟨p, .discount i⟩ := hg.1 _ ht
    have hmem : (⟨p, .discount i⟩ : Task) ∈ s.tasks := by
      cases a with
      | run k c => exact List.mem_of_getElem? ht
      | _ => cases ht
    have hi : i < C.pieceNum := hI.tasks _ hmem i (by simp [Pc.pieces])
    exact (hA.discount hs hi hok.1 hok.2).1
  · rw [hA.download]
    exact total_le hs hA.inside
  · intro hc hall
    rw [hA.download]
    exact hA.total_eq hs hc hall

end Accounted

/-- The row of `add_torrent` counts nothing. -/
theorem Row.added_counted (C : Config) : (Row.added C).Counted C := by
  have hempty : (Row.added C).counted C = fun _ => ∅ := by
    funext i
    simp [Row.counted, Row.added, get_replicate_zero]
  constructor
  · intro i _
    rw [hempty]
    exact Finset.empty_subset _
  · rw [hempty]
    simp [total, Row.added]

/-- The download of one piece counts its four bytes. -/
theorem download_accounting_onePiece :
    ∃ x : State × (ℕ → Finset ℕ),
      Transition.Run ((counted onePiece).step onePiece) (CountGuard onePiece)
        (.load (.added onePiece) (fun _ _ => none) 0, (Row.added onePiece).counted onePiece)
        onePieceRun x ∧
      get x.1.bytefield 0 = true ∧ x.1.download = 4 := by
  have hexec : (Transition.execIf ((counted onePiece).step onePiece) (CountGuard onePiece)
      (.load (.added onePiece) (fun _ _ => none) 0, (Row.added onePiece).counted onePiece)
      onePieceRun).map (fun x => get x.1.bytefield 0) = some true := by decide +kernel
  obtain ⟨x, hrun, hbit⟩ := Transition.Run.exists_of_execIf hexec
  have hsized : onePiece.Sized := ⟨by decide, by decide⟩
  obtain ⟨-, -, heq⟩ := download_accounting hsized (Row.added_counted onePiece) hrun
  refine ⟨x, hrun, hbit, heq ⟨by decide, by decide⟩ ?_⟩
  intro i hi
  rw [show i = 0 from Nat.lt_one_iff.mp hi]
  exact hbit

/-- A block that arrives twice is counted twice: eight bytes of a torrent of four. -/
theorem counted_twice :
    ∃ x : State × (ℕ → Finset ℕ),
      Transition.FreeRun ((counted onePiece).step onePiece)
        (.added onePiece fun _ _ => none, fun _ => ∅) duplicateRun x ∧
      onePiece.info.length < x.1.download := by
  have hexec : (Transition.exec ((counted onePiece).step onePiece)
      (.added onePiece fun _ _ => none, fun _ => ∅) duplicateRun).map
        (fun x => x.1.download) = some 8 := by decide +kernel
  obtain ⟨x, hrun, hd⟩ := Transition.Run.exists_of_exec hexec
  refine ⟨x, hrun, ?_⟩
  rw [hd]
  decide

end Swarm
