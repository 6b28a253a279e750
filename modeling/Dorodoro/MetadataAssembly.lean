/-
# Assembling the metadata of one peer

`handle_ut_metadata_data` (`bt/default_servant.rs`) on a sequence of data messages of one
peer, over the buffer of `MagnetMetadata`.

The buffer gets the size that the first message within the limit announces.  Every later
message is accepted if its data fits the buffer behind the start of its piece and its
piece has a bit in the padded bitmap; the bit is set whatever the length of the data.

* `DataMessage.Fits` says, from the messages alone, which of them are accepted
  (`accepts_iff`);
* `Holds` is the invariant of the assembly: the set bits are the pieces of accepted
  messages, and the index is the number of leading set bits;
* `assembled_iff`: a complete buffer has been written everywhere if and only if
  each of its pieces came with a message that carries all of the piece.
-/
import Dorodoro.MagnetMetadata
import Mathlib.Data.List.Induction

open Bendy

namespace MagnetMetadata

/-! ## The handler -/

/-- A `ut_metadata` data message: the header fields that are read, and the data. -/
structure DataMessage where
  piece : ℕ
  totalSize : ℕ
  payload : Bytes
  deriving DecidableEq

/-- `Peer::set_metadata_piece`: the metadata of the peer afterwards, and whether the call
returned `Ok`. -/
def PeerMetadata.setMetadataPiece (p : PeerMetadata) (pieceIdx : ℕ) (data : Bytes) :
    PeerMetadata × Bool :=
  match p.writeMetadataPiece pieceIdx data with
  | none => (p, false)
  | some p' =>
      match p'.markMetadataPiece pieceIdx with
      | none => (p', false)
      | some p'' => (p'', true)

/-- `handle_ut_metadata_data` up to `is_metadata_complete`: the metadata of the peer
afterwards, and whether the message was accepted. -/
def PeerMetadata.handleUtMetadataData (limit : ℕ) (p : PeerMetadata) (m : DataMessage) :
    PeerMetadata × Bool :=
  if limit < m.totalSize then (p, false)
  else (p.initMetadataPiece m.totalSize).setMetadataPiece m.piece m.payload

/-- The metadata of a peer after a sequence of messages. -/
def assemble (limit : ℕ) (ms : List DataMessage) : PeerMetadata :=
  ms.foldl (fun p m => (p.handleUtMetadataData limit m).1) .new

theorem assemble_append (limit : ℕ) (ms : List DataMessage) (m : DataMessage) :
    assemble limit (ms ++ [m]) = ((assemble limit ms).handleUtMetadataData limit m).1 := by
  rw [assemble, List.foldl_append]
  rfl

/-- `Written limit ms pos`: the byte at `pos` was written by an accepted message for the
piece that `pos` belongs to. -/
def Written (limit : ℕ) (ms : List DataMessage) (pos : ℕ) : Prop :=
  ∃ before m after, ms = before ++ m :: after ∧
    ((assemble limit before).handleUtMetadataData limit m).2 = true ∧
    m.piece = pos / metadataPieceSize ∧ pos < m.piece * metadataPieceSize + m.payload.length

/-- **Assembly.**  If the metadata counts as complete, every byte of the buffer was
written by an accepted message for its piece. -/
def Assembled (limit : ℕ) (ms : List DataMessage) : Prop :=
  (assemble limit ms).isMetadataComplete = true →
    ∀ pos < ((assemble limit ms).metadata.getD []).length, Written limit ms pos

/-! ## Which messages are accepted -/

/-- The size the buffer gets: that of the first message within the limit. -/
def bufferSize (limit : ℕ) (ms : List DataMessage) : Option ℕ :=
  (ms.find? fun m => m.totalSize ≤ limit).map DataMessage.totalSize

/-- The number of bytes of the bitmap for a buffer of `size` bytes. -/
def bitmapLen (size : ℕ) : ℕ := (divCeil size metadataPieceSize + 7) / 8

/-- The message is within the limit, its data fits a buffer of `size` bytes, and its piece
has a bit. -/
def DataMessage.Fits (limit size : ℕ) (m : DataMessage) : Prop :=
  m.totalSize ≤ limit ∧ m.piece * metadataPieceSize + m.payload.length ≤ size ∧
    m.piece / 8 < bitmapLen size

theorem bufferSize_append (limit : ℕ) (ms ms' : List DataMessage) :
    bufferSize limit (ms ++ ms') = (bufferSize limit ms).or (bufferSize limit ms') := by
  rw [bufferSize, List.find?_append]
  cases h : ms.find? (fun m => m.totalSize ≤ limit) <;> simp [bufferSize, h]

theorem bufferSize_singleton {limit : ℕ} {m : DataMessage} (h : m.totalSize ≤ limit) :
    bufferSize limit [m] = some m.totalSize := by
  simp [bufferSize, h]

theorem bufferSize_eq_none {limit : ℕ} {ms : List DataMessage} :
    bufferSize limit ms = none ↔ ∀ m ∈ ms, limit < m.totalSize := by
  simp [bufferSize]

/-- The state of the assembly of a buffer of `size` bytes after the messages `ms`. -/
structure Holds (limit size : ℕ) (ms : List DataMessage) (p : PeerMetadata) : Prop where
  metadata : ∃ buf, p.metadata = some buf ∧ buf.length = size
  bitfield : ∃ bf, p.bitfield = some bf ∧ bf.length = bitmapLen size ∧
    (∀ k, Bitmap.get bf k = true ↔ ∃ m ∈ ms, m.Fits limit size ∧ m.piece = k) ∧
    (∀ k < p.pieceIdx, Bitmap.get bf k = true) ∧ Bitmap.get bf p.pieceIdx = false

section Assembly

variable {limit size : ℕ} {ms : List DataMessage} {m : DataMessage} {p : PeerMetadata}

/-- A message that is not accepted changes nothing that the invariant speaks of. -/
theorem Holds.append_of_not_fits (h : Holds limit size ms p) (hm : ¬ m.Fits limit size) :
    Holds limit size (ms ++ [m]) p := by
  obtain ⟨bf, hbf, hlen, hmarks, hbefore, hat⟩ := h.bitfield
  refine ⟨h.metadata, bf, hbf, hlen, fun k => ?_, hbefore, hat⟩
  rw [hmarks k]
  constructor
  · rintro ⟨m', hm', hfits⟩
    exact ⟨m', List.mem_append_left _ hm', hfits⟩
  · rintro ⟨m', hm', hfits, hk⟩
    rcases List.mem_append.mp hm' with hm' | hm'
    · exact ⟨m', hm', hfits, hk⟩
    · rw [List.mem_singleton.mp hm'] at hfits
      exact absurd hfits hm

/-- The first message within the limit makes the buffer. -/
theorem holds_initMetadataPiece (h : ∀ m ∈ ms, limit < m.totalSize) (size : ℕ) :
    Holds limit size ms (PeerMetadata.new.initMetadataPiece size) := by
  refine ⟨⟨List.replicate size 0, rfl, List.length_replicate⟩,
    List.replicate (bitmapLen size) 0, rfl, List.length_replicate, fun k => ?_, fun k hk => ?_,
    Bitmap.get_replicate_zero _ _⟩
  · rw [Bitmap.get_replicate_zero]
    constructor
    · intro hfalse
      cases hfalse
    · rintro ⟨m, hm, hfits, -⟩
      have hlt := h m hm
      have hle := hfits.1
      omega
  · cases hk

/-- Later messages find the buffer made. -/
theorem Holds.initMetadataPiece (h : Holds limit size ms p) (n : ℕ) :
    p.initMetadataPiece n = p := by
  obtain ⟨buf, hbuf, -⟩ := h.metadata
  obtain ⟨bf, hbf, -⟩ := h.bitfield
  simp only [PeerMetadata.initMetadataPiece, hbuf, hbf, Option.getD_some]
  rw [← hbuf, ← hbf]

/-- The scan of `set_metadata_piece` keeps the index at the first clear bit. -/
theorem leading_set {bf : Bytes} {idx : ℕ} (hbefore : ∀ k < idx, Bitmap.get bf k = true)
    (piece : ℕ) : ∀ k < idx + Bitmap.ones (Bitmap.set bf piece) idx,
      Bitmap.get (Bitmap.set bf piece) k = true := by
  intro k hk
  rcases Nat.lt_or_ge k idx with hlt | hge
  · exact Bitmap.get_set_of_get piece (hbefore k hlt)
  · have hscan := Bitmap.get_of_lt_ones (show k - idx < Bitmap.ones (Bitmap.set bf piece) idx by omega)
    rwa [Nat.add_sub_cancel' hge] at hscan

/-- **One message within the limit** is accepted if and only if it fits. -/
theorem Holds.setMetadataPiece (h : Holds limit size ms p) (hm : m.totalSize ≤ limit) :
    Holds limit size (ms ++ [m]) (p.setMetadataPiece m.piece m.payload).1 ∧
      ((p.setMetadataPiece m.piece m.payload).2 = true ↔ m.Fits limit size) := by
  obtain ⟨buf, hbuf, hsize⟩ := h.metadata
  obtain ⟨bf, hbf, hlen, hmarks, hbefore, hat⟩ := h.bitfield
  unfold PeerMetadata.setMetadataPiece
  rw [PeerMetadata.writeMetadataPiece, hbuf]
  simp only
  by_cases hfit : buf.length < m.piece * metadataPieceSize + m.payload.length
  · -- the data does not fit the buffer
    have hnot : ¬ m.Fits limit size := fun hfits => by
      have := hfits.2.1
      omega
    rw [if_pos hfit]
    exact ⟨h.append_of_not_fits hnot, by simp [hnot]⟩
  rw [if_neg hfit]
  simp only [PeerMetadata.markMetadataPiece, hbf]
  have hwritten : (writeAt buf (m.piece * metadataPieceSize) m.payload).length = size :=
    (length_writeAt (by omega)).trans hsize
  by_cases hbit : bf.length ≤ m.piece / 8
  · -- the piece has no bit: only the (empty) data was copied
    have hnot : ¬ m.Fits limit size := fun hfits => by
      have := hfits.2.2
      omega
    rw [if_pos hbit]
    have hcopied : Holds limit size ms
        ⟨some (writeAt buf (m.piece * metadataPieceSize) m.payload), some bf, p.pieceIdx⟩ :=
      ⟨⟨_, rfl, hwritten⟩, bf, rfl, hlen, hmarks, hbefore, hat⟩
    exact ⟨hcopied.append_of_not_fits hnot, by simp [hnot]⟩
  · have hfits : m.Fits limit size := ⟨hm, by omega, by omega⟩
    rw [if_neg hbit]
    refine ⟨⟨⟨_, rfl, hwritten⟩, _, rfl, by rw [Bitmap.length_set, hlen], fun k => ?_,
      leading_set hbefore m.piece, Bitmap.get_add_ones _ _⟩, by simp [hfits]⟩
    constructor
    · intro hk
      rcases Bitmap.eq_or_get_of_get_set hk with rfl | hk
      · exact ⟨m, by simp, hfits, rfl⟩
      · obtain ⟨m', hm', hrest⟩ := (hmarks k).mp hk
        exact ⟨m', List.mem_append_left _ hm', hrest⟩
    · rintro ⟨m', hm', hfits', rfl⟩
      rcases List.mem_append.mp hm' with hm' | hm'
      · exact Bitmap.get_set_of_get _ ((hmarks _).mpr ⟨m', hm', hfits', rfl⟩)
      · rw [List.mem_singleton.mp hm']
        exact Bitmap.get_set_self (by omega)

/-- The assembly after a sequence of messages: nothing happened before the first one
within the limit, and the invariant holds from then on. -/
def Progress (limit : ℕ) (ms : List DataMessage) (p : PeerMetadata) : Prop :=
  match bufferSize limit ms with
  | none => p = .new
  | some size => Holds limit size ms p

/-- **One message.** -/
theorem Progress.handleUtMetadataData (h : Progress limit ms p) (m : DataMessage) :
    Progress limit (ms ++ [m]) (p.handleUtMetadataData limit m).1 ∧
      ((p.handleUtMetadataData limit m).2 = true ↔
        m.Fits limit ((bufferSize limit (ms ++ [m])).getD 0)) := by
  unfold Progress at h ⊢
  rw [PeerMetadata.handleUtMetadataData, bufferSize_append]
  by_cases hlimit : limit < m.totalSize
  · have hnone : bufferSize limit [m] = none := bufferSize_eq_none.mpr (by simpa using hlimit)
    have hnot : ∀ size, ¬ m.Fits limit size := fun size hfits => by
      have := hfits.1
      omega
    rw [if_pos hlimit, hnone, Option.or_none]
    refine ⟨?_, by simp [hnot]⟩
    cases hsize : bufferSize limit ms with
    | none =>
        rw [hsize] at h
        exact h
    | some size =>
        rw [hsize] at h
        exact Holds.append_of_not_fits h (hnot size)
  · rw [if_neg hlimit, bufferSize_singleton (not_lt.mp hlimit)]
    cases hsize : bufferSize limit ms with
    | none =>
        rw [hsize] at h
        simp only at h
        subst h
        exact (holds_initMetadataPiece (bufferSize_eq_none.mp hsize) m.totalSize).setMetadataPiece
          (not_lt.mp hlimit)
    | some size =>
        rw [hsize] at h
        rw [Holds.initMetadataPiece h]
        exact Holds.setMetadataPiece h (not_lt.mp hlimit)

/-- **Every sequence of messages.** -/
theorem progress_assemble (limit : ℕ) (ms : List DataMessage) :
    Progress limit ms (assemble limit ms) := by
  induction ms using List.reverseRecOn with
  | nil => rfl
  | append_singleton ms m ih =>
      rw [assemble_append]
      exact (ih.handleUtMetadataData m).1

/-- Which messages are accepted, from the messages alone. -/
theorem accepts_iff (before after : List DataMessage) (m : DataMessage) :
    ((assemble limit before).handleUtMetadataData limit m).2 = true ↔
      m.Fits limit ((bufferSize limit (before ++ m :: after)).getD 0) := by
  rw [((progress_assemble limit before).handleUtMetadataData m).2]
  have hassoc : before ++ m :: after = before ++ [m] ++ after := by simp
  -- the size is known once a message within the limit was handled
  have hsize : m.totalSize ≤ limit →
      bufferSize limit (before ++ m :: after) = bufferSize limit (before ++ [m]) := by
    intro hm
    rw [hassoc, bufferSize_append, bufferSize_append, bufferSize_singleton hm]
    cases bufferSize limit before <;> rfl
  constructor
  · intro hfits
    rwa [hsize hfits.1]
  · intro hfits
    rwa [hsize hfits.1] at hfits

/-- A byte was written if and only if a message that fits reaches it. -/
theorem written_iff {pos : ℕ} : Written limit ms pos ↔
    ∃ m ∈ ms, m.Fits limit ((bufferSize limit ms).getD 0) ∧ m.piece = pos / metadataPieceSize ∧
      pos < m.piece * metadataPieceSize + m.payload.length := by
  constructor
  · rintro ⟨before, m, after, rfl, hok, hrest⟩
    exact ⟨m, by simp, (accepts_iff before after m).mp hok, hrest⟩
  · rintro ⟨m, hm, hfits, hrest⟩
    obtain ⟨before, after, rfl⟩ := List.append_of_mem hm
    exact ⟨before, m, after, rfl, (accepts_iff before after m).mpr hfits, hrest⟩

/-- The pieces of a buffer of `size` bytes. -/
theorem lt_divCeil_iff {size k : ℕ} :
    k < divCeil size metadataPieceSize ↔ k * metadataPieceSize < size := by
  unfold divCeil metadataPieceSize
  split <;> omega

/-- The metadata counts as complete when a message for every piece was accepted. -/
theorem Holds.isMetadataComplete_iff (h : Holds limit size ms p) :
    p.isMetadataComplete = true ↔ ∀ k < divCeil size metadataPieceSize,
      ∃ m ∈ ms, m.Fits limit size ∧ m.piece = k := by
  obtain ⟨buf, hbuf, hsize⟩ := h.metadata
  obtain ⟨bf, -, -, hmarks, hbefore, hat⟩ := h.bitfield
  rw [PeerMetadata.isMetadataComplete, hbuf, Option.any_some, decide_eq_true_eq, hsize]
  constructor
  · intro hle k hk
    exact (hmarks k).mp (hbefore k (by omega))
  · intro hall
    by_contra hlt
    have hset := (hmarks _).mpr (hall p.pieceIdx (by omega))
    rw [hat] at hset
    cases hset

end Assembly

/-- **Metadata assembly.**  Take any data messages of one peer.  A buffer that counts as
complete has been written everywhere, each byte by an accepted message for its piece, if
and only if some piece of the buffer has no message that fits (the buffer is not
complete) or every piece has one that carries all of the piece. -/
theorem assembled_iff (limit : ℕ) (ms : List DataMessage) :
    Assembled limit ms ↔
      (∃ k, k * metadataPieceSize < (bufferSize limit ms).getD 0 ∧
        ∀ m ∈ ms, m.Fits limit ((bufferSize limit ms).getD 0) → m.piece ≠ k) ∨
      ∀ k, k * metadataPieceSize < (bufferSize limit ms).getD 0 →
        ∃ m ∈ ms, m.Fits limit ((bufferSize limit ms).getD 0) ∧ m.piece = k ∧
          min metadataPieceSize ((bufferSize limit ms).getD 0 - k * metadataPieceSize) ≤
            m.payload.length := by
  have hprogress := progress_assemble limit ms
  unfold Progress at hprogress
  unfold Assembled
  cases hsize : bufferSize limit ms with
  | none =>
      rw [hsize] at hprogress
      simp only at hprogress
      rw [hprogress]
      simp [PeerMetadata.isMetadataComplete, PeerMetadata.new]
  | some size =>
      rw [hsize] at hprogress
      have hholds : Holds limit size ms (assemble limit ms) := hprogress
      obtain ⟨buf, hbuf, hlen⟩ := hholds.metadata
      simp only [hbuf, Option.getD_some, hlen, written_iff, hsize]
      rw [hholds.isMetadataComplete_iff]
      have hpiece : metadataPieceSize = 16384 := rfl
      constructor
      · intro h
        by_cases hall : ∀ k < divCeil size metadataPieceSize,
            ∃ m ∈ ms, m.Fits limit size ∧ m.piece = k
        · -- complete: look at the last byte of each piece
          right
          intro k hk
          rw [hpiece] at hk
          obtain ⟨m, hm, hfits, heq, hlast⟩ :=
            h hall (k * 16384 + min 16384 (size - k * 16384) - 1) (by omega)
          have hk' : m.piece = k := by
            rw [heq, hpiece]
            omega
          refine ⟨m, hm, hfits, hk', ?_⟩
          rw [hk', hpiece] at hlast
          rw [hpiece]
          omega
        · left
          push Not at hall
          obtain ⟨k, hk, hnone⟩ := hall
          exact ⟨k, lt_divCeil_iff.mp hk, hnone⟩
      · rintro (⟨k, hk, hnone⟩ | hfull) hall pos hpos
        · obtain ⟨m, hm, hfits, heq⟩ := hall k (lt_divCeil_iff.mpr hk)
          exact absurd heq (hnone m hm hfits)
        · have hdiv := Nat.div_add_mod pos metadataPieceSize
          have hmod := Nat.mod_lt pos (show 0 < metadataPieceSize by decide)
          obtain ⟨m, hm, hfits, hk, hle⟩ := hfull (pos / metadataPieceSize) (by
            rw [Nat.mul_comm]
            omega)
          refine ⟨m, hm, hfits, hk, ?_⟩
          rw [hk]
          rw [Nat.mul_comm] at hdiv
          omega

/-- A single message with an empty payload for piece 0 of a buffer of one byte: the
metadata counts as complete, and the byte was never written. -/
theorem not_assembled_empty : ¬ Assembled 100 [⟨0, 1, []⟩] := by
  intro h
  obtain ⟨before, m, after, hsplit, -, -, hpos⟩ := h (by decide +kernel) 0 (by decide +kernel)
  have hm : m ∈ [(⟨0, 1, []⟩ : DataMessage)] := by
    rw [hsplit]
    simp
  rw [List.mem_singleton.mp hm] at hpos
  exact absurd hpos (by decide)

end MagnetMetadata
