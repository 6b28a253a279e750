/-
# Receiving a piece

A `Piece` marks the blocks that arrived in a bitmap of block indices and moves the end of
the gapless part over the marked ones.  It compares neither the offset of a block with the
block grid nor its length with the block size.

The history keeps, for every peer and piece, the offset the piece was assigned from and the
bytes stored since then.  When every marked block starts on the grid of its reception, is as
long as a block and was written since the assignment, and a reception is only ever moved
back, then a reception that finishes has stored every byte from the assigned offset on
(`reception_complete`).  An empty block finishes a piece as well (`finished_by_empty_block`).
-/
import Dorodoro.FileLayout
import Dorodoro.SwarmStep
import Mathlib.Order.Interval.Finset.Nat

open LexicalPath Bitmap

namespace Swarm

/-! ## Block indices -/

section BlockIndex

variable {bs : ℕ}

theorem divCeil_add_mul (hbs : 0 < bs) (a n : ℕ) : divCeil (a + n * bs) bs = divCeil a bs + n := by
  unfold divCeil
  rw [Nat.add_mul_div_right a n hbs, Nat.add_mul_mod_self_right]
  omega

theorem le_divCeil_mul (hbs : 0 < bs) (a : ℕ) : a ≤ divCeil a bs * bs :=
  (divCeil_le_iff hbs).mp le_rfl

theorem divCeil_mul_lt (hbs : 0 < bs) (a : ℕ) : divCeil a bs * bs < a + bs := by
  by_contra hge
  have hle : a + bs ≤ divCeil a bs * bs := by omega
  have hone : a ≤ (divCeil a bs - 1) * bs := by
    rw [Nat.sub_mul, Nat.one_mul]
    omega
  have := (divCeil_le_iff hbs).mpr hone
  have hpos : 0 < divCeil a bs := by
    by_contra h0
    rw [show divCeil a bs = 0 by omega] at hle
    omega
  omega

/-- Adding the block size again and again does not wrap below the word size. -/
theorem iterate_add_blockSize {n F : ℕ} (h : F + n * bs < 2 ^ 32) :
    (fun o => u32 (o + bs))^[n] F = F + n * bs := by
  induction n with
  | zero => simp
  | succ n ih =>
      rw [Nat.succ_mul] at h
      rw [Function.iterate_succ_apply', ih (by omega), Nat.succ_mul, ← Nat.add_assoc]
      exact Nat.mod_eq_of_lt (by omega)

end BlockIndex

/-! ## One reception -/

/-- The reception `P` of a piece that was assigned from offset `origin` is backed by the bytes
in `stored`: the gapless part and every marked block behind it. -/
structure Piece.Covers (P : Piece) (origin : ℕ) (stored : Finset ℕ) : Prop where
  gapless : ∀ x, origin ≤ x → x < P.blockOffset → x < P.pieceLength → x ∈ stored
  marked : ∀ k x, get P.bitmap (P.frontier + k) = true → P.blockOffset + k * P.blockSize ≤ x →
    x < P.blockOffset + (k + 1) * P.blockSize → x < P.pieceLength → x ∈ stored
  finished : P.finish = true → P.pieceLength ≤ P.blockOffset

/-- The sizes of a reception are those of the piece. -/
structure Piece.Shaped (P : Piece) (plen bs : ℕ) : Prop where
  blockSize : P.blockSize = bs
  pieceLength : P.pieceLength = plen
  bitmap : P.bitmap.length = (divCeil plen bs + 7) / 8

theorem Piece.shaped_new (offset pieceLength blockSize : ℕ) :
    (Piece.new offset pieceLength blockSize).Shaped pieceLength blockSize :=
  ⟨rfl, rfl, by simp [Piece.new, Piece.blockOffsetIdx]⟩

/-- A new reception has no marked block. -/
theorem Piece.covers_new {offset pieceLength blockSize origin : ℕ} {stored : Finset ℕ}
    (h : ∀ x, origin ≤ x → x < offset → x < pieceLength → x ∈ stored) :
    (Piece.new offset pieceLength blockSize).Covers origin stored := by
  refine ⟨h, ?_, ?_⟩
  · intro k x hget
    rw [show (Piece.new offset pieceLength blockSize).bitmap = List.replicate _ 0 from rfl,
      get_replicate_zero] at hget
    cases hget
  · intro hfin
    cases hfin

theorem Piece.Covers.mono {P : Piece} {origin : ℕ} {stored stored' : Finset ℕ}
    (h : P.Covers origin stored) (hsub : stored ⊆ stored') : P.Covers origin stored' :=
  ⟨fun x h₁ h₂ h₃ => hsub (h.gapless x h₁ h₂ h₃),
    fun k x h₁ h₂ h₃ h₄ => hsub (h.marked k x h₁ h₂ h₃ h₄), h.finished⟩

/-- A block that may be marked: it lies before the gapless part, or it starts on the grid of
the reception and its bytes are stored. -/
def Piece.Markable (P : Piece) (offset : ℕ) (stored : Finset ℕ) : Prop :=
  Piece.blockOffsetIdx offset P.blockSize < P.frontier ∨
    ∃ j, offset = P.blockOffset + j * P.blockSize ∧
      ∀ x, offset ≤ x → x < offset + P.blockSize → x < P.pieceLength → x ∈ stored

/-- Marking a block in the bitmap. -/
theorem Piece.Covers.set_bitmap {P : Piece} {origin offset : ℕ} {stored : Finset ℕ}
    (hbs : 0 < P.blockSize) (h : P.Covers origin stored) (hm : P.Markable offset stored) :
    { P with bitmap := set P.bitmap (Piece.blockOffsetIdx offset P.blockSize) }.Covers origin
      stored := by
  refine ⟨h.gapless, ?_, h.finished⟩
  intro k x hget hlow hhigh hlen
  rcases eq_or_get_of_get_set hget with hk | hget
  · rcases hm with hbefore | ⟨j, rfl, hstored⟩
    · have : P.frontier + k = Piece.blockOffsetIdx offset P.blockSize := hk
      omega
    · -- the marked index is the `j`-th behind the gapless part
      have hj : k = j := by
        have hidx : P.frontier + k = P.frontier + j := by
          rw [Piece.blockOffsetIdx, divCeil_add_mul hbs] at hk
          exact hk
        omega
      subst hj
      refine hstored x hlow ?_ hlen
      rw [Nat.succ_mul] at hhigh
      simpa [Nat.add_assoc] using hhigh
  · exact h.marked k x hget hlow hhigh hlen

/-- The gapless part stays below the word size. -/
theorem Piece.Shaped.frontier_lt {P : Piece} {pieceLength blockSize : ℕ}
    (hbs : 0 < blockSize) (hs : P.Shaped pieceLength blockSize)
    (hfit : pieceLength + 8 * blockSize ≤ 2 ^ 32) {n : ℕ}
    (hn : n ≤ 8 * P.bitmap.length - P.frontier) (hpos : 0 < n) :
    P.blockOffset + n * blockSize < 2 ^ 32 := by
  have hF : P.blockOffset ≤ P.frontier * blockSize := by
    have := le_divCeil_mul hbs P.blockOffset
    rwa [show divCeil P.blockOffset blockSize = P.frontier by
      rw [Piece.frontier, Piece.blockOffsetIdx, hs.blockSize]] at this
  have hbits : P.frontier + n ≤ divCeil pieceLength blockSize + 7 := by
    have := hs.bitmap
    omega
  have hmul : (P.frontier + n) * blockSize ≤ (divCeil pieceLength blockSize + 7) * blockSize :=
    Nat.mul_le_mul_right _ hbits
  have hlast := divCeil_mul_lt hbs pieceLength
  rw [Nat.add_mul, Nat.add_mul] at hmul
  omega

/-- The gapless part moves over marked blocks. -/
theorem Piece.Covers.advance {P : Piece} {origin n : ℕ} {stored : Finset ℕ}
    (hbs : 0 < P.blockSize) (h : P.Covers origin stored)
    (hn : ∀ j < n, get P.bitmap (P.frontier + j) = true) :
    { P with
      blockOffset := P.blockOffset + n * P.blockSize
      finish := decide (P.pieceLength ≤ P.blockOffset + n * P.blockSize) }.Covers origin stored := by
  refine ⟨?_, ?_, ?_⟩
  · intro x horigin hx hxl
    rcases Nat.lt_or_ge x P.blockOffset with hlt | hge
    · exact h.gapless x horigin hlt hxl
    · -- `x` lies in one of the blocks that are passed
      have hx : x < P.blockOffset + n * P.blockSize := hx
      have hk : (x - P.blockOffset) / P.blockSize < n := by
        rw [Nat.div_lt_iff_lt_mul hbs]
        omega
      have hlow := Nat.div_mul_le_self (x - P.blockOffset) P.blockSize
      have hhigh := Nat.lt_div_mul_add (a := x - P.blockOffset) hbs
      refine h.marked _ x (hn _ hk) ?_ ?_ hxl
      · omega
      · rw [Nat.succ_mul]
        omega
  · intro k x hget hlow hhigh hxl
    simp only [Piece.frontier, Piece.blockOffsetIdx, divCeil_add_mul hbs] at hget hlow hhigh
    have hmul := Nat.add_mul n k P.blockSize
    have hmul' := Nat.add_mul n (k + 1) P.blockSize
    refine h.marked (n + k) x ?_ ?_ ?_ hxl
    · rw [Nat.add_assoc] at hget
      exact hget
    · omega
    · rw [Nat.add_assoc n k 1]
      omega
  · intro hfinish
    simpa using hfinish

theorem Piece.Shaped.addFinish {P : Piece} {plen bs : ℕ} (hs : P.Shaped plen bs) (offset : ℕ) :
    (P.addFinish offset).Shaped plen bs := by
  unfold Piece.addFinish
  dsimp only
  split
  · exact hs
  · split <;> exact ⟨hs.blockSize, hs.pieceLength, by simpa using hs.bitmap⟩

/-- **`add_finish` keeps a reception backed.** -/
theorem Piece.Covers.addFinish {P : Piece} {plen bs origin offset : ℕ} {stored : Finset ℕ}
    (hbs : 0 < bs) (hs : P.Shaped plen bs) (hfit : plen + 8 * bs ≤ 2 ^ 32)
    (h : P.Covers origin stored) (hm : P.finish = false → P.Markable offset stored) :
    (P.addFinish offset).Covers origin stored := by
  unfold Piece.addFinish
  split
  · exact h
  · next hfin =>
      have hbs' : 0 < P.blockSize := hs.blockSize ▸ hbs
      have hset := h.set_bitmap hbs' (hm (by simpa using hfin))
      generalize hbm : Bitmap.set P.bitmap (Piece.blockOffsetIdx offset P.blockSize) = bitmap at hset
      have hlen : bitmap.length = P.bitmap.length := by rw [← hbm, length_set]
      dsimp only
      split
      · exact hset
      · have hoff : (fun o => u32 (o + P.blockSize))^[ones bitmap P.frontier] P.blockOffset =
            P.blockOffset + ones bitmap P.frontier * P.blockSize := by
          rcases Nat.eq_zero_or_pos (ones bitmap P.frontier) with h0 | hpos
          · rw [h0]
            simp
          · have hn := ones_le bitmap P.frontier
            rw [hlen] at hn
            apply iterate_add_blockSize
            rw [hs.blockSize]
            exact hs.frontier_lt hbs hfit hn hpos
        rw [hoff]
        exact Piece.Covers.advance (P := { P with bitmap := bitmap }) hbs' hset
          fun j hj => get_of_lt_ones hj

/-! ## Assignments -/

/-- What is known about a piece of a peer: the offset it was assigned from, the bytes stored
since, and when that was. -/
structure Assigned where
  origin : ℕ
  since : Finset ℕ
  time : ℕ

/-- A piece that was never assigned. -/
def Assigned.initial : Assigned := ⟨0, ∅, 0⟩

/-- `reset_request_piece_origin` assigns the piece: it was applied for or taken from another
peer, or the peer did not have it. -/
def assigns (s : State) (t : Task) (i : ℕ) : Bool :=
  match t.pc with
  | .applied _ _ _ | .give _ _ => true
  | _ => (s.response t.peer i).isNone

/-- The bytes of a piece that a step of a task stores. -/
def storedBy (t : Task) (ts : List Task) : Finset ℕ :=
  match t.pc, ts with
  | .write m _ _ (b :: _) pos, [⟨_, .write _ _ _ _ _⟩] =>
      Finset.Ico (m.blockOffset + pos)
        (m.blockOffset + pos + ((m.blockData.drop pos).take b.len).length)
  | _, _ => ∅

/-- The piece of the block a task writes. -/
def writes (t : Task) : Option ℕ :=
  match t.pc with
  | .write m _ _ _ _ => some m.pieceIdx
  | _ => none

/-- The history of the assignments. -/
def assigned : Recorder (ℕ → ℕ → Assigned) where
  onRun s t e ts h p i :=
    match e with
    | .resetOrigin q j offset =>
        if (p = q ∧ i = j) ∧ s.keepsOrigin q j offset = false ∧ assigns s t i = true then
          ⟨offset, ∅, s.clock + 1⟩
        else h p i
    | _ =>
        if p = t.peer ∧ writes t = some i then { h p i with since := (h p i).since ∪ storedBy t ts }
        else h p i
  onRestart _ _ := fun _ _ => .initial

/-- The number of bytes the files of its piece take from a block. -/
def Config.blocksLength (C : Config) (m : Msg) : ℕ :=
  ((C.info.findFileOfPieceIndex C.savePath m.pieceIdx m.blockOffset
    m.blockData.length).map BlockInfo.len).sum

/-- The marked block lies before the gapless part, or it starts on the grid of the reception,
is a whole block, and `write_file` began after the assignment. -/
def MarkOk (C : Config) (time : ℕ) (P : Piece) (m : Msg) (start : ℕ) : Prop :=
  Piece.blockOffsetIdx m.blockOffset P.blockSize < P.frontier ∨
    (P.blockOffset ≤ m.blockOffset ∧ (m.blockOffset - P.blockOffset) % P.blockSize = 0 ∧
      min P.blockSize (P.pieceLength - m.blockOffset) ≤
        min m.blockData.length (C.blocksLength m) ∧ time ≤ start)

instance (C : Config) (time : ℕ) (P : Piece) (m : Msg) (start : ℕ) :
    Decidable (MarkOk C time P m start) := by
  unfold MarkOk
  infer_instance

/-- The step of a task keeps receptions backed: marked blocks are in order, and a reception
that goes on is moved back only. -/
def ReceptionOk (C : Config) (s : State) (h : ℕ → ℕ → Assigned) (t : Task) : Prop :=
  match t.pc with
  | .mark m start =>
      ∀ P ∈ s.response t.peer m.pieceIdx, P.finish = true ∨
        MarkOk C (h t.peer m.pieceIdx).time P m start
  | .failed m =>
      ∀ P ∈ s.response t.peer m.pieceIdx,
        s.keepsOrigin t.peer m.pieceIdx m.blockOffset = true ∨ m.blockOffset ≤ P.blockOffset
  | .relist _ ((i, offset) :: _) =>
      ∀ P ∈ s.response t.peer i, s.keepsOrigin t.peer i offset = true ∨ offset ≤ P.blockOffset
  | _ => True

instance (C : Config) (s : State) (h : ℕ → ℕ → Assigned) (t : Task) :
    Decidable (ReceptionOk C s h t) := by
  obtain ⟨p, pc⟩ := t
  rcases pc with ⟨⟩
  case relist k pieces =>
    rcases pieces with _ | ⟨⟨i, offset⟩, pieces⟩ <;> dsimp only [ReceptionOk] <;> infer_instance
  all_goals
    dsimp only [ReceptionOk]
    infer_instance

/-- The condition on an action. -/
def ReceptionGuard (C : Config) (x : State × (ℕ → ℕ → Assigned)) (a : Act) : Prop :=
  ∀ t ∈ x.1.running a, ReceptionOk C x.1 x.2 t

instance (C : Config) (x : State × (ℕ → ℕ → Assigned)) (a : Act) :
    Decidable (ReceptionGuard C x a) := by
  unfold ReceptionGuard
  infer_instance

/-- The invariant: every reception has the sizes of its piece and is backed by the bytes
stored since its assignment. -/
def Received (C : Config) (s : State) (h : ℕ → ℕ → Assigned) : Prop :=
  ∀ p i P, s.response p i = some P →
    P.Shaped (C.pieceLength i) C.blockSize ∧ P.Covers (h p i).origin (h p i).since

/-- The first `n` bytes of a block are among `stored`, if the `write_file` that began at
`start` did so no earlier than `time`. -/
def Written (time : ℕ) (stored : Finset ℕ) (m : Msg) (start n : ℕ) : Prop :=
  time ≤ start → Finset.Ico m.blockOffset (m.blockOffset + min m.blockData.length n) ⊆ stored

theorem Written.mono {time n start : ℕ} {stored stored' : Finset ℕ} {m : Msg}
    (hw : Written time stored m start n) (hsub : stored ⊆ stored') :
    Written time stored' m start n :=
  fun htime => (hw htime).trans hsub

/-- The bytes of a block that has just been written. -/
theorem Written.write {time pos start : ℕ} {stored : Finset ℕ} {m : Msg} {b : BlockInfo}
    (hw : Written time stored m start pos) :
    Written time
      (stored ∪ Finset.Ico (m.blockOffset + pos)
        (m.blockOffset + pos + ((m.blockData.drop pos).take b.len).length))
      m start (pos + b.len) := by
  intro htime x hx
  rw [Finset.mem_Ico] at hx
  rw [Finset.mem_union]
  by_cases hold : x < m.blockOffset + min m.blockData.length pos
  · exact Or.inl (hw htime (Finset.mem_Ico.mpr ⟨hx.1, hold⟩))
  · right
    rw [Finset.mem_Ico, List.length_take, List.length_drop]
    omega

/-- A block that is in order may be marked. -/
theorem markable_of_markOk {C : Config} {P : Piece} {time start : ℕ} {stored : Finset ℕ} {m : Msg}
    (hw : Written time stored m start (C.blocksLength m)) (hok : MarkOk C time P m start) :
    P.Markable m.blockOffset stored := by
  rcases hok with hbefore | ⟨hge, hgrid, hlong, htime⟩
  · exact Or.inl hbefore
  · refine Or.inr ⟨(m.blockOffset - P.blockOffset) / P.blockSize, ?_, ?_⟩
    · have := Nat.div_add_mod (m.blockOffset - P.blockOffset) P.blockSize
      rw [hgrid, Nat.mul_comm] at this
      omega
    · intro x hlow hhigh hlen
      apply hw htime
      rw [Finset.mem_Ico]
      omega

/-- What a task relies on. -/
def ReceivedTask (C : Config) (s : State) (h : ℕ → ℕ → Assigned) (t : Task) : Prop :=
  match t.pc with
  | .write m _ start blocks pos =>
      start ≤ s.clock ∧ pos + (blocks.map BlockInfo.len).sum = C.blocksLength m ∧
        Written (h t.peer m.pieceIdx).time (h t.peer m.pieceIdx).since m start pos
  | .offset m _ start | .mark m start =>
      start ≤ s.clock ∧
        Written (h t.peer m.pieceIdx).time (h t.peer m.pieceIdx).since m start (C.blocksLength m)
  | _ => True

section Received

variable {C : Config} {s s' : State} {h h' : ℕ → ℕ → Assigned} {a : Act} {t : Task} {e : Effect}
  {ts : List Task}

/-- Accesses other than `reset_request_piece_origin` assign nothing. -/
theorem assigned_onRun (s : State) (t : Task) (ts : List Task) (h : ℕ → ℕ → Assigned)
    (he : ∀ q j offset, e ≠ .resetOrigin q j offset) (p i : ℕ) :
    (assigned.onRun s t e ts h p i).origin = (h p i).origin ∧
      (assigned.onRun s t e ts h p i).time = (h p i).time ∧
      (h p i).since ⊆ (assigned.onRun s t e ts h p i).since := by
  cases e with
  | resetOrigin q j offset => exact absurd rfl (he q j offset)
  | _ =>
      simp only [assigned]
      split
      · exact ⟨rfl, rfl, Finset.subset_union_left⟩
      · exact ⟨rfl, rfl, Finset.Subset.refl _⟩

/-- Accesses that leave the receptions alone. -/
theorem Received.frame (hR : Received C s h) (he : e.shrinks = true) :
    Received C (e.exec C s) (assigned.onRun s t e ts h) := by
  have hne : ∀ q j offset, e ≠ .resetOrigin q j offset := by
    rintro q j offset rfl
    cases he
  intro p i P hP
  obtain ⟨hs, hc⟩ := hR p i P (Effect.response_of_shrinks he hP)
  obtain ⟨horigin, -, hsub⟩ := assigned_onRun s t ts h hne p i
  rw [horigin]
  exact ⟨hs, hc.mono hsub⟩

/-- `reset_request_piece_origin`: an assignment starts a new history, and otherwise the
reception is moved back. -/
theorem Received.resetOrigin (hR : Received C s h) {i offset : ℕ}
    (hback : assigns s t i = false → ∀ P ∈ s.response t.peer i,
      s.keepsOrigin t.peer i offset = true ∨ offset ≤ P.blockOffset) :
    Received C ((Effect.resetOrigin t.peer i offset).exec C s)
      (assigned.onRun s t (.resetOrigin t.peer i offset) ts h) := by
  intro p j P hP
  rw [Effect.exec_response] at hP
  simp only [assigned]
  dsimp only at hP
  split at hP
  · next hreset =>
      obtain ⟨⟨rfl, rfl⟩, hkeep⟩ := hreset
      cases hP
      refine ⟨Piece.shaped_new _ _ _, ?_⟩
      cases hassign : assigns s t j with
      | true =>
          rw [if_pos ⟨⟨rfl, rfl⟩, hkeep, rfl⟩]
          apply Piece.covers_new
          intro x hlow hhigh
          exact absurd hhigh (Nat.not_lt.mpr hlow)
      | false =>
          rw [if_neg (by simp)]
          apply Piece.covers_new
          intro x hlow hhigh hlen
          -- the peer has the piece, and the new start lies in the gapless part
          cases hresp : s.response t.peer j with
          | none =>
              unfold assigns at hassign
              split at hassign <;> simp_all
          | some P₀ =>
              obtain ⟨hs, hc⟩ := hR t.peer j P₀ hresp
              rcases hback hassign P₀ hresp with hk | hle
              · rw [hkeep] at hk
                cases hk
              · exact hc.gapless x hlow (lt_of_lt_of_le hhigh hle) (hs.pieceLength ▸ hlen)
  · next hreset =>
      rw [if_neg (fun hall => hreset ⟨hall.1, hall.2.1⟩)]
      exact hR p j P hP

theorem Received.mark (hfit : ∀ i, C.pieceLength i + 8 * C.blockSize ≤ 2 ^ 32)
    (hR : Received C s h) {m : Msg} {start : ℕ}
    (hw : Written (h t.peer m.pieceIdx).time (h t.peer m.pieceIdx).since m start
      (C.blocksLength m))
    (hok : ∀ P ∈ s.response t.peer m.pieceIdx, P.finish = true ∨
      MarkOk C (h t.peer m.pieceIdx).time P m start) :
    Received C ((Effect.updateResponse t.peer m.pieceIdx m.blockOffset).exec C s)
      (assigned.onRun s t (.updateResponse t.peer m.pieceIdx m.blockOffset) ts h) := by
  intro p i P hP
  obtain ⟨horigin, -, hsub⟩ := assigned_onRun s t ts h
    (e := .updateResponse t.peer m.pieceIdx m.blockOffset) (by simp) p i
  rw [horigin]
  rw [Effect.exec_response] at hP
  dsimp only at hP
  split at hP
  · next heq =>
      obtain ⟨rfl, rfl⟩ := heq
      obtain ⟨P₀, hP₀, rfl⟩ := Option.map_eq_some_iff.mp hP
      obtain ⟨hs, hc⟩ := hR _ _ P₀ hP₀
      have hmark : P₀.finish = false →
          P₀.Markable m.blockOffset (h t.peer m.pieceIdx).since := by
        intro hopen
        rcases hok P₀ hP₀ with hfin | hok
        · rw [hopen] at hfin
          cases hfin
        · exact markable_of_markOk hw hok
      have hadd := hc.addFinish C.blockSize_pos hs (hfit _) hmark
      exact ⟨hs.addFinish _, hadd.mono hsub⟩
  · obtain ⟨hs, hc⟩ := hR p i P hP
    exact ⟨hs, hc.mono hsub⟩

/-- What a `write_file` has stored stays stored, unless its piece is assigned anew. -/
theorem Written.exec {p start n : ℕ} {m : Msg} (hstart : start ≤ s.clock)
    (hw : Written (h p m.pieceIdx).time (h p m.pieceIdx).since m start n) :
    Written (assigned.onRun s t e ts h p m.pieceIdx).time
      (assigned.onRun s t e ts h p m.pieceIdx).since m start n := by
  by_cases hreset : ∃ q j offset, e = .resetOrigin q j offset
  · obtain ⟨q, j, offset, rfl⟩ := hreset
    simp only [assigned]
    split
    · -- an assignment made after the start of the write
      intro htime
      simp only at htime
      omega
    · exact hw
  · push Not at hreset
    obtain ⟨-, ht, hsub⟩ := assigned_onRun s t ts h hreset p m.pieceIdx
    rw [ht]
    exact hw.mono hsub

theorem ReceivedTask.exec {t' : Task} (ht : ReceivedTask C s h t') :
    ReceivedTask C (e.exec C s) (assigned.onRun s t e ts h) t' := by
  obtain ⟨p, pc⟩ := t'
  cases pc with
  | write m realOffset start blocks pos => exact ⟨by simpa using ht.1, ht.2.1, ht.2.2.exec ht.1⟩
  | offset m realOffset start => exact ⟨by simpa using ht.1, ht.2.exec ht.1⟩
  | mark m start => exact ⟨by simpa using ht.1, ht.2.exec ht.1⟩
  | _ => trivial

/-- One step of a task. -/
theorem Received.next (hfit : ∀ i, C.pieceLength i + 8 * C.blockSize ≤ 2 ^ 32)
    (hR : Received C s h) (ht : ReceivedTask C s h t) (hok : ReceptionOk C s h t)
    (hnext : Next C s t.peer t.pc e ts) :
    Received C (e.exec C s) (assigned.onRun s t e ts h) ∧
      ∀ t' ∈ ts, ReceivedTask C (e.exec C s) (assigned.onRun s t e ts h) t' := by
  obtain ⟨p, pc⟩ := t
  cases hnext with
  | applied =>
      refine ⟨hR.resetOrigin ?_, List.forall_mem_singleton.mpr trivial⟩
      intro hassign
      simp [assigns] at hassign
  | give =>
      refine ⟨hR.resetOrigin ?_, List.forall_mem_singleton.mpr trivial⟩
      intro hassign
      simp [assigns] at hassign
  | relist => exact ⟨hR.resetOrigin fun _ => hok, List.forall_mem_singleton.mpr trivial⟩
  | failed => exact ⟨hR.resetOrigin fun _ => hok, by simp⟩
  | mark => exact ⟨hR.mark hfit ht.2 hok, List.forall_mem_singleton.mpr trivial⟩
  | markPanic _ => exact ⟨hR.mark hfit ht.2 hok, List.forall_mem_singleton.mpr trivial⟩
  | begin hP =>
      refine ⟨hR.frame rfl, ?_⟩
      intro t' ht'
      cases List.mem_singleton.mp ht'
      refine ⟨by simp, by simp [Config.blocksLength], ?_⟩
      intro _
      simp
  | writeEnd =>
      refine ⟨hR.frame rfl, ?_⟩
      intro t' ht'
      cases List.mem_singleton.mp ht'
      have hpos : _ = C.blocksLength _ := ht.2.1
      rw [List.map_nil, List.sum_nil, Nat.add_zero] at hpos
      exact ⟨by simpa using ht.1, hpos ▸ ht.2.2.exec ht.1⟩
  | write _ _ =>
      refine ⟨hR.frame rfl, ?_⟩
      intro t' ht'
      cases List.mem_singleton.mp ht'
      refine ⟨by simpa using ht.1, ?_, ?_⟩
      · have hsum := ht.2.1
        rw [List.map_cons, List.sum_cons] at hsum
        omega
      · simpa only [assigned, writes, and_self, if_true, storedBy] using ht.2.2.write
  | offset =>
      refine ⟨hR.frame rfl, ?_⟩
      intro t' ht'
      cases List.mem_singleton.mp ht'
      exact ⟨by simpa using ht.1, ht.2.exec ht.1⟩
  | requestChoked _ => exact ⟨hR.frame rfl, forall_mem_returns fun _ _ => trivial⟩
  | findFull => exact ⟨hR.frame rfl, forall_mem_returns fun _ _ => trivial⟩
  | lootNone => exact ⟨hR.frame rfl, forall_mem_returns fun _ _ => trivial⟩
  | leaveLost _ => exact ⟨hR.frame rfl, forall_mem_returns fun _ _ => trivial⟩
  | leave _ =>
      refine ⟨hR.frame rfl, ?_⟩
      intro t' ht'
      rcases List.mem_cons.mp ht' with rfl | ht'
      · trivial
      · exact forall_mem_returns (fun _ _ => trivial) t' ht'
  | finishEnded _ =>
      exact ⟨hR.frame rfl, forall_mem_pcs (fun _ _ => trivial) trivial⟩
  | saveRow => exact ⟨hR.frame rfl, forall_mem_pcs (fun _ _ => trivial) trivial⟩
  | lootExitDropNext _ =>
      exact ⟨hR.frame rfl, List.forall_mem_cons.mpr
        ⟨trivial, List.forall_mem_singleton.mpr trivial⟩⟩
  | lootExitDropGive _ =>
      exact ⟨hR.frame rfl, List.forall_mem_cons.mpr
        ⟨trivial, List.forall_mem_singleton.mpr trivial⟩⟩
  | _ =>
      -- the task ends, or goes on where it relies on nothing
      first
      | exact ⟨hR.frame rfl, List.forall_mem_singleton.mpr trivial⟩
      | exact ⟨hR.frame rfl, List.forall_mem_nil _⟩

/-- **One action keeps the receptions backed.** -/
theorem Received.step (hfit : ∀ i, C.pieceLength i + 8 * C.blockSize ≤ 2 ^ 32)
    (hR : Received C s h) (ht : ∀ t ∈ s.tasks, ReceivedTask C s h t)
    (hg : ReceptionGuard C (s, h) a) (hstep : assigned.step C (s, h) a = some (s', h')) :
    Received C s' h' ∧ ∀ t ∈ s'.tasks, ReceivedTask C s' h' t := by
  refine assigned.step_invariant hstep hR ht ?_ ?_ ?_ ?_ ?_
  · intro s s' h hd hR p i P hP
    rcases hd.response p i with heq | hnone
    · exact hR p i P (heq ▸ hP)
    · rw [hnone] at hP
      cases hP
  · intro s s' h t hd _ ht
    obtain ⟨p, pc⟩ := t
    cases pc with
    | write m realOffset start blocks pos => exact ⟨ht.1.trans hd.clock, ht.2⟩
    | offset m realOffset start => exact ⟨ht.1.trans hd.clock, ht.2⟩
    | mark m start => exact ⟨ht.1.trans hd.clock, ht.2⟩
    | _ => trivial
  · intro t hstart
    cases hstart <;> trivial
  · rintro k c t e ts rfl htask hmem hnext
    obtain ⟨hR', hts⟩ := hR.next hfit (ht t hmem) (hg t htask) hnext
    exact ⟨hR', fun t' ht' => (ht t' ht').exec, hts⟩
  · rintro rfl _ p i P hP
    cases hP

/-! ## Runs -/

/-- **Reception.**  In every run whose actions meet the condition, from any saved row: when a
peer's reception of a piece is finished, every byte from the offset it was assigned from up to
the end of the piece has been stored by block messages of that peer since the assignment. -/
theorem reception_complete (hfit : C.info.pieceLength + 8 * C.blockSize ≤ 2 ^ 32) {row : Row}
    {disk : Loc → ℕ → Option UInt8} {clock : ℕ} {as : List Act}
    (hrun : Transition.Run (assigned.step C) (ReceptionGuard C)
      (.load row disk clock, fun _ _ => .initial) as (s, h))
    {p i : ℕ} {P : Piece} (hP : s.response p i = some P) (hfin : P.finish = true) :
    ∀ x, (h p i).origin ≤ x → x < C.pieceLength i → x ∈ (h p i).since := by
  have hfit' : ∀ i, C.pieceLength i + 8 * C.blockSize ≤ 2 ^ 32 := by
    intro i
    have hle : C.pieceLength i ≤ C.info.pieceLength :=
      (u32_le _).trans (min_le_left _ _)
    omega
  have hI := hrun.invariant
    (I := fun x => Received C x.1 x.2 ∧ ∀ t ∈ x.1.tasks, ReceivedTask C x.1 x.2 t)
    ⟨(fun p i P hP => by cases hP), fun t ht => by cases ht⟩
    fun x a x' hI hg hstep => hI.1.step hfit' hI.2 hg hstep
  obtain ⟨hs, hc⟩ := hI.1 p i P hP
  intro x hlow hhigh
  rw [← hs.pieceLength] at hhigh
  exact hc.gapless x hlow (lt_of_lt_of_le hhigh (hc.finished hfin)) hhigh

end Received

/-- The four bytes of one piece are stored when its reception finishes. -/
theorem reception_complete_onePiece :
    ∃ (x : State × (ℕ → ℕ → Assigned)) (P : Piece),
      Transition.Run (assigned.step onePiece) (ReceptionGuard onePiece)
        (.load (.added onePiece) (fun _ _ => none) 0, fun _ _ => .initial)
        (onePieceRun.take 21) x ∧
      x.1.response 0 0 = some P ∧ P.finish = true ∧ (x.2 0 0).origin = 0 ∧
      ∀ b, (x.2 0 0).origin ≤ b → b < 4 → b ∈ (x.2 0 0).since := by
  have hexec : (Transition.execIf (assigned.step onePiece) (ReceptionGuard onePiece)
      (.load (.added onePiece) (fun _ _ => none) 0, fun _ _ => .initial)
      (onePieceRun.take 21)).map (fun x => ((x.1.response 0 0).map Piece.finish, (x.2 0 0).origin)) =
        some (some true, 0) := by decide +kernel
  obtain ⟨x, hrun, hview⟩ := Transition.Run.exists_of_execIf hexec
  obtain ⟨hfinish, horigin⟩ := Prod.mk.inj hview
  obtain ⟨P, hP, hfin⟩ := Option.map_eq_some_iff.mp hfinish
  exact ⟨x, P, hrun, hP, hfin, horigin, reception_complete (by decide) hrun hP hfin⟩

/-- A peer that was assigned the piece sends a block message without data. -/
def emptyBlockRun : List Act :=
  onePieceAssigned ++
  ([.piece 0 [0, 0, 0, 0, 0, 0, 0, 0], .run 0 .go, .run 0 .go, .run 0 (.flag false), .run 0 .go,
    .run 0 (.io .ok), .run 0 .go, .run 0 .go, .run 0 .go] : List Act)

/-- An empty block at offset 0 finishes a piece of four bytes: none of them is stored. -/
theorem finished_by_empty_block :
    ∃ (x : State × (ℕ → ℕ → Assigned)) (P : Piece),
      Transition.FreeRun (assigned.step onePiece)
        (.added onePiece fun _ _ => none, fun _ _ => .initial) emptyBlockRun x ∧
      x.1.response 0 0 = some P ∧ P.finish = true ∧
      (x.2 0 0).origin ≤ 0 ∧ 0 < onePiece.pieceLength 0 ∧ 0 ∉ (x.2 0 0).since := by
  have hexec : (Transition.exec (assigned.step onePiece)
      (.added onePiece fun _ _ => none, fun _ _ => .initial) emptyBlockRun).map
        (fun x => ((x.1.response 0 0).map Piece.finish, (x.2 0 0).origin, (x.2 0 0).since)) =
      some (some true, 0, ∅) := by decide +kernel
  obtain ⟨x, hrun, hview⟩ := Transition.Run.exists_of_exec hexec
  simp only [Prod.mk.injEq] at hview
  obtain ⟨hresp, horigin, hsince⟩ := hview
  obtain ⟨P, hP, hfin⟩ := Option.map_eq_some_iff.mp hresp
  refine ⟨x, P, hrun, hP, hfin, by omega, by decide, ?_⟩
  rw [hsince]
  exact Finset.notMem_empty 0

end Swarm
