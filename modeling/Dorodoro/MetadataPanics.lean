/-
# Panics and errors of metadata messages

`set_metadata_piece` and `handle_ut_metadata_data` with every slice, index and `unwrap` checked.

* `PeerMetadata.Sized` is the invariant of the buffer of a peer in every run (`sized_of_run`);
* `DataMessage.Harmless` says of a message that handling it panics nowhere, and changes nothing
  when it returns an error;
* `metadata_safe_iff`: the condition is exact.  The range check looks at bytes, the bitmap has one
  bit for every started piece, so that an empty payload behind the last piece passes the check
  without having a bit.
-/
import Dorodoro.Checked
import Dorodoro.MetadataAssembly

open Checked Transition

namespace MagnetMetadata

/-! ## The checked handler -/

/-- `Peer::set_metadata_piece`: the metadata of the peer afterwards, and whether the call
returned `Ok`. -/
def PeerMetadata.setMetadataPieceChecked (p : PeerMetadata) (pieceIdx : ℕ) (data : Bytes) :
    Except Fault (PeerMetadata × Bool) :=
  (unwrap p.metadata).bind fun metadata =>
    let first := pieceIdx * metadataPieceSize
    if metadata.length < first + data.length then .ok (p, false)
    else
      (slice metadata first (first + data.length)).bind fun _ =>
      (unwrap p.bitfield).bind fun bitfield =>
      (index bitfield (pieceIdx / 8)).bind fun _ =>
      let bitfield := Bitmap.set bitfield pieceIdx
      (slice bitfield (u32 p.pieceIdx / 8) bitfield.length).map fun _ =>
        (⟨some (writeAt metadata first data), some bitfield,
          p.pieceIdx + Bitmap.ones bitfield (u32 p.pieceIdx)⟩, true)

/-- `Peer::is_metadata_complete`. -/
def PeerMetadata.isMetadataCompleteChecked (p : PeerMetadata) : Except Fault Bool :=
  (unwrap p.metadata).map fun metadata =>
    decide (divCeil metadata.length metadataPieceSize ≤ p.pieceIdx)

/-- `handle_ut_metadata_data`.  A complete buffer is passed to `on_metadata_complete`, any other
one to `on_metadata_piece_write`; `callback` says whether this call returns `Ok`. -/
def PeerMetadata.handleUtMetadataDataChecked (limit : ℕ) (p : PeerMetadata) (m : DataMessage)
    (callback : Bool) : Except Fault (PeerMetadata × Bool) :=
  if limit < m.totalSize then .ok (p, false)
  else
    ((p.initMetadataPiece m.totalSize).setMetadataPieceChecked m.piece m.payload).bind
      fun (p', ok) =>
        if ok then p'.isMetadataCompleteChecked.map fun _ => (p', callback) else .ok (p', false)

/-! ## The states of a buffer -/

/-- The buffer is not there yet, or has its bitmap, and the counter is at the first clear bit. -/
def PeerMetadata.Sized (p : PeerMetadata) : Prop :=
  p = .new ∨ ∃ buf bf, p.metadata = some buf ∧ p.bitfield = some bf ∧ buf.length < 2 ^ 32 ∧
    bf.length = bitmapLen buf.length ∧ (∀ k < p.pieceIdx, Bitmap.get bf k = true) ∧
      Bitmap.get bf p.pieceIdx = false

section Sized

variable {p p' : PeerMetadata} {limit : ℕ}

theorem PeerMetadata.Sized.initMetadataPiece (h : p.Sized) {size : ℕ} (hsize : size < 2 ^ 32) :
    (p.initMetadataPiece size).Sized := by
  rcases h with rfl | ⟨buf, bf, hbuf, hbf, hrest⟩
  · refine Or.inr ⟨_, _, rfl, rfl, ?_, ?_, fun k hk => ?_, Bitmap.get_replicate_zero _ _⟩
    · simpa [PeerMetadata.new] using hsize
    · simp [PeerMetadata.new, bitmapLen]
    · cases hk
  · refine Or.inr ⟨buf, bf, ?_, ?_, hrest⟩
    · rw [PeerMetadata.initMetadataPiece, hbuf, Option.getD_some]
    · rw [PeerMetadata.initMetadataPiece, hbf, Option.getD_some]

theorem PeerMetadata.Sized.writeMetadataPiece (h : p.Sized) {piece : ℕ} {data : Bytes}
    (hw : p.writeMetadataPiece piece data = some p') : p'.Sized := by
  rcases h with rfl | ⟨buf, bf, hbuf, hbf, hlt, hlen, hrest⟩
  · cases hw
  · simp only [PeerMetadata.writeMetadataPiece, hbuf, Option.ite_none_left_eq_some,
      Option.some.injEq] at hw
    obtain ⟨hfit, rfl⟩ := hw
    have hlen' := length_writeAt (not_lt.mp hfit)
    exact Or.inr ⟨_, bf, rfl, hbf, by rwa [hlen'], by rw [hlen', hlen], hrest⟩

theorem PeerMetadata.Sized.markMetadataPiece (h : p.Sized) {piece : ℕ}
    (hm : p.markMetadataPiece piece = some p') : p'.Sized := by
  rcases h with rfl | ⟨buf, bf, hbuf, hbf, hlt, hlen, hbefore, hat⟩
  · cases hm
  · simp only [PeerMetadata.markMetadataPiece, hbf, Option.ite_none_left_eq_some,
      Option.some.injEq] at hm
    obtain ⟨hfit, rfl⟩ := hm
    exact Or.inr ⟨buf, _, hbuf, rfl, hlt, by rw [Bitmap.length_set, hlen],
      leading_set hbefore piece, Bitmap.get_add_ones _ _⟩

/-- The buffers of all peers. -/
def State.Sized (s : State) : Prop := ∀ peer, (s.peers peer).Sized

theorem State.Sized.setPeer {s : State} (h : s.Sized) {peer : ℕ} (hp : p.Sized) :
    (s.setPeer peer p).Sized := by
  intro q
  by_cases hq : q = peer
  · subst hq
    simpa [State.setPeer] using hp
  · simpa [State.setPeer, Function.update_of_ne hq] using h q

theorem State.Sized.setTask {s : State} (h : s.Sized) (k peer : ℕ) (pc : Option Pc) :
    (s.setTask k peer pc).Sized := by
  cases pc with
  | none => exact h
  | some pc => exact h

/-- One move of a task. -/
theorem State.Sized.runTask {s : State} (h : s.Sized) (hlimit : limit < 2 ^ 32) (magnet : Magnet)
    (k : ℕ) (t : ℕ × Pc) : (s.runTask magnet limit k t).Sized := by
  obtain ⟨peer, pc⟩ := t
  cases pc with
  | received payload =>
      simp only [State.runTask, State.handleUtMetadata]
      split
      · split
        · exact h.setTask k peer none
        · next hle =>
            exact (h.setPeer ((h peer).initMetadataPiece (by omega))).setTask k peer _
      · exact h.setTask k peer none
  | initialized piece data =>
      simp only [State.runTask]
      split
      · next hw => exact (h.setPeer ((h peer).writeMetadataPiece hw)).setTask k peer _
      · exact h.setTask k peer none
  | written piece =>
      simp only [State.runTask]
      split
      · next hm => exact (h.setPeer ((h peer).markMetadataPiece hm)).setTask k peer _
      · exact h.setTask k peer none
  | marked => exact h.setTask k peer _
  | complete =>
      simp only [State.runTask]
      split
      · exact h
      · exact h.setTask k peer none

/-- **Every state of a run.** -/
theorem sized_of_run {magnet : Magnet} {as : List Act} {s : State} (hlimit : limit < 2 ^ 32)
    (h : FreeRun (step magnet limit) .init as s) : s.Sized := by
  refine h.invariant (fun peer => Or.inl rfl) fun s a s' hs _ hstep => ?_
  cases a with
  | receive peer payload =>
      obtain rfl := Option.some.inj hstep
      exact hs
  | run k =>
      obtain ⟨t, -, rfl⟩ := Option.map_eq_some_iff.mp hstep
      exact hs.runTask hlimit magnet k t
  | abort k =>
      obtain ⟨t, -, rfl⟩ := Option.map_eq_some_iff.mp hstep
      exact hs

/-- The counter lies in the bitmap, or right behind it. -/
theorem pieceIdx_le {bf : Bytes} {idx : ℕ} (h : ∀ k < idx, Bitmap.get bf k = true) :
    idx ≤ 8 * bf.length := by
  by_contra hlt
  have hset := h (8 * bf.length) (by omega)
  rw [Bitmap.get_of_length_le le_rfl] at hset
  cases hset

end Sized

/-! ## Harmless messages -/

/-- No panic, and no change with an error. -/
def SafeResult (p : PeerMetadata) (x : Except Fault (PeerMetadata × Bool)) : Prop :=
  Ensures (fun r => r.2 = false → r.1 = p) x

/-- The end of the data in the buffer. -/
def DataMessage.last (m : DataMessage) : ℕ := m.piece * metadataPieceSize + m.payload.length

/-- The data passes the check against a buffer of `size` bytes, and its piece has a bit. -/
def DataMessage.Placed (size : ℕ) (m : DataMessage) : Prop :=
  m.last ≤ size ∧ m.piece / 8 < bitmapLen size

/-- The length of the buffer that the message is copied to. -/
def PeerMetadata.bufferLen (p : PeerMetadata) (m : DataMessage) : ℕ :=
  (p.metadata.map List.length).getD m.totalSize

/-- The buffer has the data already, and the bitmap the piece. -/
def PeerMetadata.Knows (p : PeerMetadata) (m : DataMessage) : Prop :=
  ∃ buf bf, p.metadata = some buf ∧ p.bitfield = some bf ∧
    (buf.drop (m.piece * metadataPieceSize)).take m.payload.length = m.payload ∧
    Bitmap.get bf m.piece = true

/-- The message is too large for the limit, or it is rejected by a buffer that exists, or its piece
has a place and a bit; then the callback succeeds, or the message brings nothing new. -/
def DataMessage.Harmless (limit : ℕ) (p : PeerMetadata) (callback : Bool) (m : DataMessage) : Prop :=
  limit < m.totalSize ∨ (p.metadata ≠ none ∧ p.bufferLen m < m.last) ∨
    (m.Placed (p.bufferLen m) ∧ (callback = true ∨ p.Knows m))

section Safety

variable {p : PeerMetadata} {m : DataMessage} {buf bf : Bytes} {limit : ℕ} {callback : Bool}

/-- **`set_metadata_piece` on a buffer with its bitmap.** -/
theorem ensures_setMetadataPiece {post : PeerMetadata × Bool → Prop}
    (hbuf : p.metadata = some buf) (hbf : p.bitfield = some bf)
    (hlt : buf.length < 2 ^ 32) (hlen : bf.length = bitmapLen buf.length)
    (hbefore : ∀ k < p.pieceIdx, Bitmap.get bf k = true) :
    Ensures post (p.setMetadataPieceChecked m.piece m.payload) ↔
      (buf.length < m.last ∧ post (p, false)) ∨
        (m.Placed buf.length ∧ post (⟨some (writeAt buf (m.piece * metadataPieceSize) m.payload),
          some (Bitmap.set bf m.piece),
          p.pieceIdx + Bitmap.ones (Bitmap.set bf m.piece) p.pieceIdx⟩, true)) := by
  have hidx := pieceIdx_le hbefore
  have hbits : bitmapLen buf.length < 2 ^ 28 := by
    unfold bitmapLen divCeil metadataPieceSize
    split <;> omega
  have hcast : u32 p.pieceIdx = p.pieceIdx := Nat.mod_eq_of_lt (by omega)
  rw [PeerMetadata.setMetadataPieceChecked, hbuf, hbf, hcast]
  simp only [ensures_bind, ensures_unwrap, Option.some.injEq, exists_eq_left']
  unfold DataMessage.Placed DataMessage.last
  split
  · next hout =>
      rw [ensures_ok]
      constructor
      · exact fun hpost => Or.inl ⟨hout, hpost⟩
      · rintro (⟨-, hpost⟩ | ⟨hin, -⟩)
        · exact hpost
        · omega
  · next hin =>
      simp only [ensures_bind, ensures_slice, ensures_unwrap, Option.some.injEq, exists_eq_left',
        ensures_index, ensures_map, Bitmap.length_set, List.getElem?_eq_some_iff]
      constructor
      · rintro ⟨-, _, ⟨hbit, -⟩, -, hpost⟩
        exact Or.inr ⟨⟨by omega, by omega⟩, hpost⟩
      · rintro (⟨hout, -⟩ | ⟨⟨-, hbit⟩, hpost⟩)
        · omega
        · exact ⟨by omega, _, ⟨by omega, rfl⟩, by omega, hpost⟩

/-- **`set_metadata_piece`** is safe on a buffer that exists, if the data is rejected or has a
place and a bit. -/
theorem safe_setMetadataPiece_iff (h : p.Sized) :
    SafeResult p (p.setMetadataPieceChecked m.piece m.payload) ↔
      ∃ buf, p.metadata = some buf ∧ (buf.length < m.last ∨ m.Placed buf.length) := by
  rcases h with rfl | ⟨buf, bf, hbuf, hbf, hlt, hlen, hbefore, -⟩
  · refine iff_of_false ?_ ?_
    · rw [SafeResult, PeerMetadata.setMetadataPieceChecked, ensures_bind, ensures_unwrap]
      rintro ⟨_, hnone, -⟩
      cases hnone
    · rintro ⟨_, hnone, -⟩
      cases hnone
  · rw [SafeResult, ensures_setMetadataPiece hbuf hbf hlt hlen hbefore, hbuf]
    simp

/-- A message brings nothing new exactly when the buffer knows it. -/
theorem unchanged_iff_knows (hbuf : p.metadata = some buf) (hbf : p.bitfield = some bf)
    (hplaced : m.piece / 8 < bf.length) (hat : Bitmap.get bf p.pieceIdx = false) :
    (⟨some (writeAt buf (m.piece * metadataPieceSize) m.payload), some (Bitmap.set bf m.piece),
        p.pieceIdx + Bitmap.ones (Bitmap.set bf m.piece) p.pieceIdx⟩ : PeerMetadata) = p ↔
      p.Knows m := by
  obtain ⟨metadata, bitfield, idx⟩ := p
  obtain rfl : metadata = some buf := hbuf
  obtain rfl : bitfield = some bf := hbf
  rw [PeerMetadata.mk.injEq, Option.some.injEq, Option.some.injEq, writeAt_eq_self_iff]
  constructor
  · rintro ⟨hdata, hset, -⟩
    refine ⟨buf, bf, rfl, rfl, hdata, ?_⟩
    rw [← hset]
    exact Bitmap.get_set_self (by omega)
  · rintro ⟨_, _, ⟨⟩, ⟨⟩, hdata, hbit⟩
    have hset : Bitmap.set bf m.piece = bf := by
      refine Bitmap.ext_get (Bitmap.length_set _ _) fun k _ => ?_
      rw [Bitmap.get_set]
      by_cases hk : m.piece = k
      · rw [← hk, hbit, Bool.true_or]
      · rw [decide_eq_false hk, Bool.false_and, Bool.or_false]
    refine ⟨hdata, hset, ?_⟩
    rw [hset]
    show idx + Bitmap.ones bf idx = idx
    by_contra hne
    have hscan := Bitmap.get_of_lt_ones (show 0 < Bitmap.ones bf idx by omega)
    rw [Nat.add_zero, hat] at hscan
    cases hscan

/-- A buffer that exists is not made again. -/
theorem initMetadataPiece_eq_self_iff (h : p.Sized) (size : ℕ) :
    p.initMetadataPiece size = p ↔ p.metadata ≠ none := by
  rcases h with rfl | ⟨buf, bf, hbuf, hbf, -⟩
  · refine iff_of_false (fun he => ?_) (fun hne => hne rfl)
    cases congrArg PeerMetadata.metadata he
  · refine iff_of_true ?_ (by simp [hbuf])
    simp only [PeerMetadata.initMetadataPiece, hbuf, hbf, Option.getD_some]
    rw [← hbuf, ← hbf]

/-- **`handle_ut_metadata_data`** is safe exactly on harmless messages. -/
theorem safe_handleUtMetadataData_iff (h : p.Sized) (hlimit : limit < 2 ^ 32) :
    SafeResult p (p.handleUtMetadataDataChecked limit m callback) ↔
      m.Harmless limit p callback := by
  unfold DataMessage.Harmless PeerMetadata.handleUtMetadataDataChecked SafeResult
  split
  · next hlarge => simp [hlarge]
  · next hle =>
      rw [or_iff_right hle, ensures_bind]
      -- the buffer that the message meets
      obtain ⟨buf, bf, hbuf, hbf, hlt, hlen, hbefore, hat⟩ :=
        (h.initMetadataPiece (show m.totalSize < 2 ^ 32 by omega)).resolve_left
          fun hnew => by cases congrArg PeerMetadata.metadata hnew
      have hsize : p.bufferLen m = buf.length := by
        rw [← Option.some.inj hbuf, PeerMetadata.bufferLen]
        cases p.metadata with
        | none => simp
        | some b => rfl
      rw [ensures_setMetadataPiece hbuf hbf hlt hlen hbefore, hsize]
      refine or_congr ?_ (and_congr_right fun hplaced => ?_)
      · rw [and_comm]
        refine and_congr_left fun _ => ?_
        show Ensures _ (.ok (p.initMetadataPiece m.totalSize, false)) ↔ _
        rw [ensures_ok, ← initMetadataPiece_eq_self_iff h m.totalSize]
        simp
      · dsimp only
        rw [if_pos rfl, ensures_map, PeerMetadata.isMetadataCompleteChecked, ensures_map,
          ensures_unwrap]
        have hknows := unchanged_iff_knows hbuf hbf (hlen ▸ hplaced.2) hat
        simp only [Option.some.injEq, exists_eq_left']
        cases callback with
        | true => simp
        | false =>
            simp only [true_implies, Bool.false_eq_true, false_or]
            by_cases hexists : p.metadata = none
            · -- the buffer is new
              refine iff_of_false (fun he => ?_) ?_
              · rw [← he] at hexists
                cases hexists
              · rintro ⟨_, _, hsome, -⟩
                rw [hexists] at hsome
                cases hsome
            · rw [(initMetadataPiece_eq_self_iff h m.totalSize).mpr hexists] at hknows ⊢
              exact hknows

end Safety

/-- **Metadata messages.**  In every state of a run, whatever a data message says and whatever the
callback returns: `set_metadata_piece` neither panics nor changes anything with an error if and only
if the buffer exists and rejects the data or has a place and a bit for it, and
`handle_ut_metadata_data` if and only if the message is harmless. -/
theorem metadata_safe_iff {magnet : Magnet} {limit : ℕ} {as : List Act} {s : State}
    (hlimit : limit < 2 ^ 32) (h : FreeRun (step magnet limit) .init as s) (peer : ℕ)
    (m : DataMessage) (callback : Bool) :
    (SafeResult (s.peers peer) ((s.peers peer).setMetadataPieceChecked m.piece m.payload) ↔
      ∃ buf, (s.peers peer).metadata = some buf ∧
        (buf.length < m.last ∨ m.Placed buf.length)) ∧
    (SafeResult (s.peers peer) ((s.peers peer).handleUtMetadataDataChecked limit m callback) ↔
      m.Harmless limit (s.peers peer) callback) :=
  ⟨safe_setMetadataPiece_iff (sized_of_run hlimit h peer),
    safe_handleUtMetadataData_iff (sized_of_run hlimit h peer) hlimit⟩

/-- The first message of a peer, with its only byte. -/
theorem metadata_safe_first : SafeResult .new
    (PeerMetadata.new.handleUtMetadataDataChecked 100 ⟨0, 1, [7]⟩ true) := by
  have hrun : FreeRun (step ⟨[], []⟩ 100) .init [] .init := .refl
  refine (metadata_safe_iff (by decide) hrun 0 ⟨0, 1, [7]⟩ true).2.mpr ?_
  exact Or.inr (Or.inr ⟨by constructor <;> decide, Or.inl rfl⟩)

/-- An empty payload for an empty buffer panics; a message whose data does not fit leaves an empty
buffer behind with its error. -/
theorem metadata_message_harms :
    PeerMetadata.new.handleUtMetadataDataChecked 100 ⟨0, 0, []⟩ true = .error .outOfRange ∧
      PeerMetadata.new.handleUtMetadataDataChecked 100 ⟨0, 0, [7]⟩ true =
        .ok (⟨some [], some [], 0⟩, false) := by
  constructor <;> rfl

end MagnetMetadata
