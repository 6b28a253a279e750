/-
# Metadata of a magnet link

The `ut_metadata` extension as `bt/default_servant.rs`, `bt/base_peer.rs` and
`core/task/magnet.rs` implement it, as a transition system: peers send messages, every
message is handled by its own task, and a task moves from lock to lock.

* `decodeMetadata` and `Metadata.fromBencodeFirst` read the header of a message;
* `PeerMetadata` is the buffer a peer's pieces are assembled in, with
  `initMetadataPiece`, `writeMetadataPiece`, `markMetadataPiece` and
  `isMetadataComplete`;
* `parseTorrentFromMetadata` builds the torrent from the buffer and the magnet link;
* `step` interleaves the tasks; `State.published` records every `Event::ParseSuccess`
  with the bytes its torrent was decoded from.

The hash of these bytes is never compared with the magnet link.  `authentic_of_honest`
states when the published torrents are nevertheless the ones the link names.
-/
import Dorodoro.Bitmap
import Dorodoro.Torrent
import Dorodoro.Transition
import Mathlib.Logic.Function.Basic

open Bendy Transition

namespace MagnetMetadata

/-! ## Messages -/

/-- `MetadataType`. -/
inductive MetadataType where
  | request
  | data
  | reject
  deriving DecidableEq

/-- `Metadata`. -/
structure Metadata where
  msgType : MetadataType
  piece : ℕ
  totalSize : Option ℕ
  deriving DecidableEq

/-- `impl FromBencode for MetadataType`. -/
def decodeMetadataType : Decode MetadataType := fun o d =>
  match decodeUnsigned 8 o d with
  | .error e => .error e
  | .ok (0, d') => .ok (.request, d')
  | .ok (1, d') => .ok (.data, d')
  | .ok (2, d') => .ok (.reject, d')
  | .ok (n, _) => .error (.ofKind (.unexpectedToken "MetadataDataType" (toString n)))

/-- The optional fields collected while decoding a `Metadata`. -/
structure MetadataFields where
  msgType : Option MetadataType
  piece : Option ℕ
  totalSize : Option ℕ

/-- One entry of a `Metadata` dictionary. -/
def metadataEntry (s : MetadataFields) (k : Bytes) : Decode MetadataFields :=
  if k = key "msg_type" then field "msg_type" decodeMetadataType ({ s with msgType := some · })
  else if k = key "piece" then field "piece" (decodeUnsigned 32) ({ s with piece := some · })
  else if k = key "total_size" then
    field "total_size" (decodeUnsigned 32) ({ s with totalSize := some · })
  else unknownField s

/-- `impl FromBencode for Metadata`. -/
def decodeMetadata : Decode Metadata := fun o d => do
  let (s, d') ← dictLoop metadataEntry ⟨none, none, none⟩ o d
  let msgType ← required "msg_type" s.msgType
  let piece ← required "piece" s.piece
  if msgType = .data ∧ s.totalSize = none then .error (.missingField "total_size")
  else return (⟨msgType, piece, s.totalSize⟩, d')

/-- `Metadata::from_bencode_first`. -/
def Metadata.fromBencodeFirst (payload : Bytes) : Except Error (Metadata × ℕ) :=
  Bendy.fromBencodeFirst decodeMetadata expectedRecursionDepth payload

/-! ## The buffer of a peer -/

/-- `METADATA_PIECE_SIZE`. -/
def metadataPieceSize : ℕ := 16384

/-- The metadata fields of a peer. -/
structure PeerMetadata where
  metadata : Option Bytes
  bitfield : Option Bytes
  pieceIdx : ℕ
  deriving DecidableEq

/-- The metadata fields of a new peer. -/
def PeerMetadata.new : PeerMetadata := ⟨none, none, 0⟩

/-- `Peer::init_metadata_piece`. -/
def PeerMetadata.initMetadataPiece (p : PeerMetadata) (size : ℕ) : PeerMetadata :=
  { p with
    metadata := some (p.metadata.getD (List.replicate size 0))
    bitfield := some (p.bitfield.getD
      (List.replicate ((divCeil size metadataPieceSize + 7) / 8) 0)) }

/-- The first half of `Peer::set_metadata_piece`: copy the data into the buffer. -/
def PeerMetadata.writeMetadataPiece (p : PeerMetadata) (pieceIdx : ℕ) (data : Bytes) :
    Option PeerMetadata :=
  match p.metadata with
  | none => none
  | some buf =>
      if buf.length < pieceIdx * metadataPieceSize + data.length then none
      else some { p with metadata := some (writeAt buf (pieceIdx * metadataPieceSize) data) }

/-- The second half of `Peer::set_metadata_piece`: mark the piece and advance the index
of the first missing one.  An index behind the bitmap panics. -/
def PeerMetadata.markMetadataPiece (p : PeerMetadata) (pieceIdx : ℕ) : Option PeerMetadata :=
  match p.bitfield with
  | none => none
  | some bf =>
      if bf.length ≤ pieceIdx / 8 then none
      else
        let bf' := Bitmap.set bf pieceIdx
        some { p with bitfield := some bf', pieceIdx := p.pieceIdx + Bitmap.ones bf' p.pieceIdx }

/-- `Peer::is_metadata_complete`. -/
def PeerMetadata.isMetadataComplete (p : PeerMetadata) : Bool :=
  p.metadata.any fun buf => decide (divCeil buf.length metadataPieceSize ≤ p.pieceIdx)

/-- The fields of `Magnet` that are used. -/
structure Magnet where
  infoHash : Bytes
  trackers : List String
  deriving DecidableEq

/-- `Peer::parse_torrent_from_metadata`. -/
def parseTorrentFromMetadata (p : PeerMetadata) (magnet : Magnet) : Option (Bytes × Torrent) :=
  match p.metadata with
  | none => none
  | some buf =>
      match Info.fromBencode buf with
      | .error _ => none
      | .ok info => some (buf, Torrent.new info magnet.infoHash magnet.trackers)

/-! ## The transition system -/

/-- Where the task that handles a message stands. -/
inductive Pc where
  /-- `handle_ut_metadata` has the payload. -/
  | received (payload : Bytes)
  /-- The buffer is initialised, the data is not yet copied. -/
  | initialized (piece : ℕ) (data : Bytes)
  /-- The data is copied, the piece is not yet marked. -/
  | written (piece : ℕ)
  /-- The piece is marked. -/
  | marked
  /-- `on_metadata_complete` was called. -/
  | complete
  deriving DecidableEq

/-- The state of a magnet task. -/
structure State where
  peers : ℕ → PeerMetadata
  tasks : List (ℕ × Pc)
  published : List (Bytes × Torrent)
  finished : Bool

/-- A magnet task before any message. -/
def State.init : State := ⟨fun _ => .new, [], [], false⟩

/-- What happens next. -/
inductive Act where
  /-- A peer's `ut_metadata` message arrives, and a task is spawned for it. -/
  | receive (peer : ℕ) (payload : Bytes)
  /-- The `k`-th task moves on. -/
  | run (k : ℕ)
  /-- The `k`-th task is aborted. -/
  | abort (k : ℕ)

/-- The `k`-th task goes on at `pc`, or ends. -/
def State.setTask (s : State) (k peer : ℕ) : Option Pc → State
  | some pc => { s with tasks := s.tasks.set k (peer, pc) }
  | none => { s with tasks := s.tasks.eraseIdx k }

/-- Replace the metadata of a peer. -/
def State.setPeer (s : State) (peer : ℕ) (p : PeerMetadata) : State :=
  { s with peers := Function.update s.peers peer p }

/-- `handle_ut_metadata` up to `init_metadata_piece`.  Requests and rejects do nothing. -/
def State.handleUtMetadata (limit : ℕ) (s : State) (k peer : ℕ) (payload : Bytes) : State :=
  match Metadata.fromBencodeFirst payload with
  | .ok (⟨.data, piece, some totalSize⟩, offset) =>
      if limit < totalSize then s.setTask k peer none
      else (s.setPeer peer ((s.peers peer).initMetadataPiece totalSize)).setTask k peer
        (some (.initialized piece (payload.drop offset)))
  | _ => s.setTask k peer none

/-- One move of the `k`-th task. -/
def State.runTask (magnet : Magnet) (limit : ℕ) (s : State) (k : ℕ) : ℕ × Pc → State
  | (peer, .received payload) => s.handleUtMetadata limit k peer payload
  | (peer, .initialized piece data) =>
      match (s.peers peer).writeMetadataPiece piece data with
      | some p => (s.setPeer peer p).setTask k peer (some (.written piece))
      | none => s.setTask k peer none
  | (peer, .written piece) =>
      match (s.peers peer).markMetadataPiece piece with
      | some p => (s.setPeer peer p).setTask k peer (some .marked)
      | none => s.setTask k peer none
  | (peer, .marked) =>
      s.setTask k peer (if (s.peers peer).isMetadataComplete then some .complete else none)
  | (peer, .complete) =>
      match parseTorrentFromMetadata (s.peers peer) magnet with
      | some bt => { s.setTask k peer none with published := s.published ++ [bt], finished := true }
      | none => s.setTask k peer none

/-- One step of the system. -/
def step (magnet : Magnet) (limit : ℕ) (s : State) : Act → Option State
  | .receive peer payload => some { s with tasks := s.tasks ++ [(peer, .received payload)] }
  | .run k => s.tasks[k]?.map (s.runTask magnet limit k)
  | .abort k => s.tasks[k]?.map fun _ => { s with tasks := s.tasks.eraseIdx k }

/-! ## Authenticity -/

/-- **Metadata authenticity.**  Every published torrent was decoded from bytes with the
hash of the magnet link, which is the hash the torrent carries. -/
def State.Authentic (sha1 : Bytes → Bytes) (magnet : Magnet) (s : State) : Prop :=
  ∀ buf torrent, (buf, torrent) ∈ s.published →
    sha1 buf = magnet.infoHash ∧ torrent.infoHash = sha1 buf

/-- A payload that is not a data message, a data message that is refused for its size, or
one with a true piece of `M`. -/
def HonestPayload (limit : ℕ) (M payload : Bytes) : Prop :=
  ∀ piece totalSize offset,
    Metadata.fromBencodeFirst payload = .ok (⟨.data, piece, some totalSize⟩, offset) →
      totalSize ≤ limit → totalSize = M.length ∧ piece * metadataPieceSize < M.length ∧
        payload.drop offset = (M.drop (piece * metadataPieceSize)).take metadataPieceSize

/-- Every message is honest about the metadata `M` of its sender. -/
def Honest (limit : ℕ) (M : ℕ → Bytes) (_ : State) : Act → Prop
  | .receive peer payload => HonestPayload limit (M peer) payload
  | _ => True

section Invariant

variable {limit : ℕ} {M : Bytes} {p p' : PeerMetadata}

/-- The `k`-th piece of the buffer is the `k`-th piece of `M`. -/
def Right (M buf : Bytes) (k : ℕ) : Prop :=
  ∀ pos, pos / metadataPieceSize = k → buf[pos]? = M[pos]?

/-- The buffer has the size of `M`, marked pieces are right, and every piece before the
index is marked. -/
def PeerInv (M : Bytes) (p : PeerMetadata) : Prop :=
  p = .new ∨ ∃ buf bf, p.metadata = some buf ∧ p.bitfield = some bf ∧ buf.length = M.length ∧
    (∀ k, Bitmap.get bf k = true → Right M buf k) ∧ ∀ k < p.pieceIdx, Bitmap.get bf k = true

/-- What a task that handles a message of an honest peer knows. -/
def PcInv (limit : ℕ) (M : Bytes) (p : PeerMetadata) : Pc → Prop
  | .received payload => HonestPayload limit M payload
  | .initialized piece data => p.metadata.isSome = true ∧ piece * metadataPieceSize < M.length ∧
      data = (M.drop (piece * metadataPieceSize)).take metadataPieceSize
  | .written piece => ∃ buf, p.metadata = some buf ∧ Right M buf piece
  | .marked => True
  | .complete => p.isMetadataComplete = true

/-- A later state of the same buffer: pieces that are right stay right. -/
structure Grows (M : Bytes) (p p' : PeerMetadata) : Prop where
  inv : PeerInv M p'
  metadata : ∀ buf, p.metadata = some buf →
    ∃ buf', p'.metadata = some buf' ∧ buf'.length = buf.length ∧
      ∀ k, Right M buf k → Right M buf' k
  pieceIdx : p.pieceIdx ≤ p'.pieceIdx

/-- What a task knows stays true while the buffer grows. -/
theorem PcInv.grows {pc : Pc} (h : PcInv limit M p pc) (hg : Grows M p p') :
    PcInv limit M p' pc := by
  cases pc with
  | received payload => exact h
  | initialized piece data =>
      obtain ⟨hsome, hrest⟩ := h
      obtain ⟨buf, hbuf⟩ := Option.isSome_iff_exists.mp hsome
      obtain ⟨buf', hbuf', -⟩ := hg.metadata buf hbuf
      exact ⟨by rw [hbuf']; rfl, hrest⟩
  | written piece =>
      obtain ⟨buf, hbuf, hright⟩ := h
      obtain ⟨buf', hbuf', -, hkeep⟩ := hg.metadata buf hbuf
      exact ⟨buf', hbuf', hkeep piece hright⟩
  | marked => trivial
  | complete =>
      simp only [PcInv, PeerMetadata.isMetadataComplete, Option.any_eq_true,
        decide_eq_true_eq] at h ⊢
      obtain ⟨buf, hbuf, hle⟩ := h
      obtain ⟨buf', hbuf', hlen, -⟩ := hg.metadata buf hbuf
      exact ⟨buf', hbuf', by rw [hlen]; exact hle.trans hg.pieceIdx⟩

/-- `init_metadata_piece` with the true size. -/
theorem PeerInv.initMetadataPiece (h : PeerInv M p) :
    Grows M p (p.initMetadataPiece M.length) ∧
      (p.initMetadataPiece M.length).metadata.isSome = true := by
  refine ⟨?_, rfl⟩
  rcases h with rfl | ⟨buf, bf, hbuf, hbf, hlen, hmark, hidx⟩
  · refine ⟨Or.inr ⟨_, _, rfl, rfl, by simp [PeerMetadata.new], fun k hk => ?_,
      fun k hk => ?_⟩, fun buf hbuf => (by cases hbuf), le_rfl⟩
    · simp [PeerMetadata.new, Bitmap.get_replicate_zero] at hk
    · cases hk
  · have heq : p.initMetadataPiece M.length = p := by
      simp only [PeerMetadata.initMetadataPiece, hbuf, hbf, Option.getD_some]
      rw [← hbuf, ← hbf]
    rw [heq]
    exact ⟨Or.inr ⟨buf, bf, hbuf, hbf, hlen, hmark, hidx⟩,
      fun b hb => ⟨b, hb, rfl, fun k hk => hk⟩, le_rfl⟩

/-- Copying a true piece keeps right pieces right and makes its own piece right. -/
theorem right_writeAt {buf : Bytes} {piece : ℕ} (hlen : buf.length = M.length)
    (hpiece : piece * metadataPieceSize < M.length) :
    let data := (M.drop (piece * metadataPieceSize)).take metadataPieceSize
    piece * metadataPieceSize + data.length ≤ buf.length ∧
      Right M (writeAt buf (piece * metadataPieceSize) data) piece ∧
      ∀ k, Right M buf k → Right M (writeAt buf (piece * metadataPieceSize) data) k := by
  intro data
  have hdata : data.length = min metadataPieceSize (M.length - piece * metadataPieceSize) := by
    simp [data]
  have hsize : metadataPieceSize = 16384 := rfl
  have hfit : piece * metadataPieceSize + data.length ≤ buf.length := by omega
  have hin : ∀ pos, piece * metadataPieceSize ≤ pos →
      pos < piece * metadataPieceSize + data.length →
      (writeAt buf (piece * metadataPieceSize) data)[pos]? = M[pos]? := by
    intro pos h₁ h₂
    rw [getElem?_writeAt hfit, if_pos ⟨h₁, h₂⟩, List.getElem?_take_of_lt (by omega),
      List.getElem?_drop, Nat.add_sub_cancel' h₁]
  have hlast : M.length ≤ buf.length := hlen.ge
  refine ⟨hfit, fun pos hpos => ?_, fun k hk pos hpos => ?_⟩
  · by_cases hin' : pos < piece * metadataPieceSize + data.length
    · exact hin pos (by rw [hsize] at hpos ⊢; omega) hin'
    · -- the last piece is shorter: nothing lies behind it
      have hend : M.length ≤ pos := by rw [hsize] at hpos hdata hin'; omega
      rw [List.getElem?_eq_none hend,
        List.getElem?_eq_none (by rw [length_writeAt hfit, hlen]; exact hend)]
  · by_cases hin' : piece * metadataPieceSize ≤ pos ∧
        pos < piece * metadataPieceSize + data.length
    · exact hin pos hin'.1 hin'.2
    · rw [getElem?_writeAt hfit, if_neg hin']
      exact hk pos hpos

/-- A true piece is written: the buffer grows, and the piece is right in it. -/
theorem PeerInv.writeMetadataPiece (h : PeerInv M p) {piece : ℕ} {data : Bytes}
    (hpc : PcInv limit M p (.initialized piece data))
    (hw : p.writeMetadataPiece piece data = some p') :
    Grows M p p' ∧ PcInv limit M p' (.written piece) := by
  obtain ⟨hsome, hpiece, rfl⟩ := hpc
  rcases h with rfl | ⟨buf, bf, hbuf, hbf, hlen, hmark, hidx⟩
  · cases hsome
  obtain ⟨-, hright, hkeep⟩ := right_writeAt hlen hpiece
  simp only [PeerMetadata.writeMetadataPiece, hbuf, Option.ite_none_left_eq_some,
    Option.some.injEq] at hw
  obtain ⟨hfit, rfl⟩ := hw
  have hlen' : (writeAt buf (piece * metadataPieceSize)
      ((M.drop (piece * metadataPieceSize)).take metadataPieceSize)).length = buf.length :=
    length_writeAt (by omega)
  refine ⟨⟨Or.inr ⟨_, bf, rfl, hbf, hlen'.trans hlen, fun k hk => hkeep k (hmark k hk), hidx⟩,
    fun b hb => ?_, le_rfl⟩, _, rfl, hright⟩
  rw [hbuf, Option.some.injEq] at hb
  subst hb
  exact ⟨_, rfl, hlen', hkeep⟩

/-- Only a right piece is marked, and the index moves over marked pieces only. -/
theorem PeerInv.markMetadataPiece (h : PeerInv M p) {piece : ℕ}
    (hpc : PcInv limit M p (.written piece)) (hm : p.markMetadataPiece piece = some p') :
    Grows M p p' := by
  obtain ⟨buf, hbuf, hright⟩ := hpc
  rcases h with rfl | ⟨buf', bf, hbuf', hbf, hlen, hmark, hidx⟩
  · cases hbuf
  rw [hbuf', Option.some.injEq] at hbuf
  subst hbuf
  simp only [PeerMetadata.markMetadataPiece, hbf, Option.ite_none_left_eq_some,
    Option.some.injEq] at hm
  obtain ⟨hfit, rfl⟩ := hm
  refine ⟨Or.inr ⟨buf', _, hbuf', rfl, hlen, fun k hk => ?_, fun k hk => ?_⟩,
    fun b hb => ⟨b, hb, rfl, fun k hk => hk⟩, Nat.le_add_right _ _⟩
  · rcases Bitmap.eq_or_get_of_get_set hk with rfl | hk
    · exact hright
    · exact hmark k hk
  · -- bits before the old index were set, the scan has seen the rest
    rcases Nat.lt_or_ge k p.pieceIdx with hlt | hge
    · exact Bitmap.get_set_of_get piece (hidx k hlt)
    · have hscan : Bitmap.get (Bitmap.set bf piece) (p.pieceIdx + (k - p.pieceIdx)) = true :=
        Bitmap.get_of_lt_ones (by simp only at hk; omega)
      rwa [Nat.add_sub_cancel' hge] at hscan

/-- **A complete buffer is the metadata.** -/
theorem PeerInv.eq_of_complete (h : PeerInv M p) {buf : Bytes} (hbuf : p.metadata = some buf)
    (hc : p.isMetadataComplete = true) : buf = M := by
  rcases h with rfl | ⟨buf', bf, hbuf', hbf, hlen, hmark, hidx⟩
  · cases hbuf
  rw [hbuf, Option.some.injEq] at hbuf'
  subst hbuf'
  simp only [PeerMetadata.isMetadataComplete, hbuf, Option.any_some, decide_eq_true_eq] at hc
  refine List.ext_getElem? fun pos => ?_
  rcases Nat.lt_or_ge pos buf.length with hlt | hge
  · refine hmark (pos / metadataPieceSize) (hidx _ (lt_of_lt_of_le ?_ hc)) pos rfl
    have hpos : 0 < metadataPieceSize := by decide
    by_contra hge
    have hle := Nat.mul_le_mul_right metadataPieceSize (not_lt.mp hge)
    have hceil : buf.length ≤ divCeil buf.length metadataPieceSize * metadataPieceSize := by
      unfold divCeil metadataPieceSize
      split <;> omega
    have := Nat.div_mul_le_self pos metadataPieceSize
    omega
  · rw [List.getElem?_eq_none hge, List.getElem?_eq_none (by omega)]

end Invariant

/-- The invariant of a run with honest peers. -/
structure State.Inv (sha1 : Bytes → Bytes) (magnet : Magnet) (limit : ℕ) (M : ℕ → Bytes)
    (s : State) : Prop where
  peers : ∀ peer, PeerInv (M peer) (s.peers peer)
  tasks : ∀ peer pc, (peer, pc) ∈ s.tasks → PcInv limit (M peer) (s.peers peer) pc
  authentic : s.Authentic sha1 magnet

section Run

variable {sha1 : Bytes → Bytes} {magnet : Magnet} {limit : ℕ} {M : ℕ → Bytes} {s s' : State}

/-- A task ends. -/
theorem State.Inv.endTask (h : s.Inv sha1 magnet limit M) (k peer : ℕ) :
    (s.setTask k peer none).Inv sha1 magnet limit M :=
  ⟨h.peers, fun q pc hm => h.tasks q pc (List.mem_of_mem_eraseIdx hm), h.authentic⟩

/-- A task moves on without touching the buffers. -/
theorem State.Inv.setTask (h : s.Inv sha1 magnet limit M) (k peer : ℕ) {pc : Pc}
    (hpc : PcInv limit (M peer) (s.peers peer) pc) :
    (s.setTask k peer (some pc)).Inv sha1 magnet limit M := by
  refine ⟨h.peers, fun q pc' hm => ?_, h.authentic⟩
  rcases List.mem_or_eq_of_mem_set hm with hm | heq
  · exact h.tasks q pc' hm
  · simp only [Prod.mk.injEq] at heq
    obtain ⟨rfl, rfl⟩ := heq
    exact hpc

/-- The buffer of one peer grows. -/
theorem State.Inv.setPeer (h : s.Inv sha1 magnet limit M) {peer : ℕ} {p : PeerMetadata}
    (hg : Grows (M peer) (s.peers peer) p) : (s.setPeer peer p).Inv sha1 magnet limit M := by
  refine ⟨fun q => ?_, fun q pc hm => ?_, h.authentic⟩
  · by_cases hq : q = peer
    · subst hq
      simpa [State.setPeer] using hg.inv
    · simpa [State.setPeer, Function.update_of_ne hq] using h.peers q
  · by_cases hq : q = peer
    · subst hq
      simpa [State.setPeer] using (h.tasks q pc hm).grows hg
    · simpa [State.setPeer, Function.update_of_ne hq] using h.tasks q pc hm

/-- An admissible message of an honest peer initializes the buffer with the true size. -/
theorem State.Inv.handleUtMetadata (h : s.Inv sha1 magnet limit M) (k : ℕ) {peer : ℕ}
    {payload : Bytes} (hpc : HonestPayload limit (M peer) payload) :
    (s.handleUtMetadata limit k peer payload).Inv sha1 magnet limit M := by
  unfold State.handleUtMetadata
  split
  · next piece totalSize offset hdec =>
      split
      · exact h.endTask k peer
      · next hle =>
          obtain ⟨rfl, hpiece, hdata⟩ := hpc piece totalSize offset hdec (not_lt.mp hle)
          obtain ⟨hg, hsome⟩ := (h.peers peer).initMetadataPiece
          refine (h.setPeer hg).setTask k peer ?_
          simpa [State.setPeer] using ⟨hsome, hpiece, hdata⟩
  · exact h.endTask k peer

/-- **Every move of a task keeps the invariant.** -/
theorem State.Inv.runTask (h : s.Inv sha1 magnet limit M)
    (hM : ∀ peer, sha1 (M peer) = magnet.infoHash) (k : ℕ) {t : ℕ × Pc} (ht : t ∈ s.tasks) :
    (s.runTask magnet limit k t).Inv sha1 magnet limit M := by
  obtain ⟨peer, pc⟩ := t
  have hpc := h.tasks peer pc ht
  have hp := h.peers peer
  cases pc with
  | received payload => exact h.handleUtMetadata k hpc
  | initialized piece data =>
      simp only [State.runTask]
      split
      · next p hw =>
          obtain ⟨hg, hpc'⟩ := hp.writeMetadataPiece hpc hw
          exact (h.setPeer hg).setTask k peer (by simpa [State.setPeer] using hpc')
      · exact h.endTask k peer
  | written piece =>
      simp only [State.runTask]
      split
      · next p hm =>
          exact (h.setPeer (hp.markMetadataPiece hpc hm)).setTask k peer trivial
      · exact h.endTask k peer
  | marked =>
      simp only [State.runTask]
      split
      · next hc => exact h.setTask k peer hc
      · exact h.endTask k peer
  | complete =>
      simp only [State.runTask]
      split
      · next bt hparse =>
          refine ⟨(h.endTask k peer).peers, (h.endTask k peer).tasks, fun buf torrent hm => ?_⟩
          rw [List.mem_append, List.mem_singleton] at hm
          rcases hm with hm | rfl
          · exact h.authentic buf torrent hm
          · unfold parseTorrentFromMetadata at hparse
            split at hparse
            · cases hparse
            · next buf' hbuf =>
                split at hparse
                · cases hparse
                · simp only [Option.some.injEq, Prod.mk.injEq] at hparse
                  obtain ⟨rfl, rfl⟩ := hparse
                  rw [hp.eq_of_complete hbuf hpc]
                  exact ⟨hM peer, (hM peer).symm⟩
      · exact h.endTask k peer

/-- **Every honest step keeps the invariant.** -/
theorem State.Inv.step (h : s.Inv sha1 magnet limit M)
    (hM : ∀ peer, sha1 (M peer) = magnet.infoHash) {a : Act} (ha : Honest limit M s a)
    (hstep : step magnet limit s a = some s') : s'.Inv sha1 magnet limit M := by
  cases a with
  | receive peer payload =>
      simp only [MagnetMetadata.step, Option.some.injEq] at hstep
      subst hstep
      refine ⟨h.peers, fun q pc hm => ?_, h.authentic⟩
      rw [List.mem_append, List.mem_singleton] at hm
      rcases hm with hm | heq
      · exact h.tasks q pc hm
      · simp only [Prod.mk.injEq] at heq
        obtain ⟨rfl, rfl⟩ := heq
        exact ha
  | run k =>
      simp only [MagnetMetadata.step, Option.map_eq_some_iff] at hstep
      obtain ⟨t, ht, rfl⟩ := hstep
      exact h.runTask hM k (List.mem_of_getElem? ht)
  | abort k =>
      simp only [MagnetMetadata.step, Option.map_eq_some_iff] at hstep
      obtain ⟨t, -, rfl⟩ := hstep
      exact h.endTask k 0

end Run

/-- **Honest pieces give authentic torrents.**  In every run in which every data message
of an admissible size carries a true piece of a metadata whose hash is the one of the
magnet link, every published torrent was decoded from bytes with that hash. -/
theorem authentic_of_honest (sha1 : Bytes → Bytes) (magnet : Magnet) (limit : ℕ) (M : ℕ → Bytes)
    (hM : ∀ peer, sha1 (M peer) = magnet.infoHash) (as : List Act) (s : State)
    (hrun : Run (step magnet limit) (Honest limit M) State.init as s) :
    s.Authentic sha1 magnet := by
  have hinit : State.init.Inv sha1 magnet limit M :=
    ⟨fun _ => Or.inl rfl, fun _ _ hm => (by cases hm), fun _ _ hm => (by cases hm)⟩
  have hinv : s.Inv sha1 magnet limit M :=
    hrun.invariant hinit fun _ _ _ hi ha hs => hi.step hM ha hs
  exact hinv.authentic

/-- The metadata of a small torrent. -/
def movieDict : Bytes :=
  key "d6:lengthi4e4:name5:movie12:piece lengthi4e6:pieces20:aaaaaaaaaaaaaaaaaaaae"

/-- The SHA-1 digest of `movieDict`. -/
def movieDigest : Bytes :=
  [10, 106, 205, 67, 226, 68, 7, 54, 156, 169, 107, 56, 243, 42, 115, 128, 48, 44, 75, 216]

/-- The data message with the only piece of `movieDict`. -/
def moviePayload : Bytes := key "d8:msg_typei1e5:piecei0e10:total_sizei75ee" ++ movieDict

/-- One message, handled to the end. -/
def movieActs : List Act := [.receive 1 moviePayload, .run 0, .run 0, .run 0, .run 0, .run 0]

theorem moviePayload_decoded :
    Metadata.fromBencodeFirst moviePayload = .ok (⟨.data, 0, some 75⟩, 42) := by
  decide +kernel

/-- An honest peer delivers the metadata, and its torrent is published with the right
hash. -/
theorem authentic_movie :
    ∃ s, Run (step ⟨movieDigest, []⟩ 10485760) (Honest 10485760 fun _ => movieDict) State.init
        movieActs s ∧
      s.published.length = 1 ∧ s.Authentic (fun _ => movieDigest) ⟨movieDigest, []⟩ := by
  have hhonest : HonestPayload 10485760 movieDict moviePayload := by
    intro piece totalSize offset hdec _
    rw [moviePayload_decoded] at hdec
    simp only [Except.ok.injEq, Prod.mk.injEq, Metadata.mk.injEq, Option.some.injEq,
      true_and] at hdec
    obtain ⟨⟨rfl, rfl⟩, rfl⟩ := hdec
    decide +kernel
  have hlen : (exec (step ⟨movieDigest, []⟩ 10485760) State.init movieActs).map
      (fun s => s.published.length) = some 1 := by decide +kernel
  obtain ⟨s, hs, hpub⟩ := Option.map_eq_some_iff.mp hlen
  have hrun : Run (step ⟨movieDigest, []⟩ 10485760) (Honest 10485760 fun _ => movieDict) State.init
      movieActs s := Run.of_exec_guard hs fun s a ha => by
    simp only [movieActs, List.mem_cons, List.not_mem_nil, or_false] at ha
    rcases ha with rfl | rfl | rfl | rfl | rfl | rfl
    · exact hhonest
    all_goals trivial
  exact ⟨s, hrun, hpub, authentic_of_honest (fun _ => movieDigest) ⟨movieDigest, []⟩ 10485760
    (fun _ => movieDict) (fun _ => rfl) movieActs s hrun⟩

/-- **Unauthenticated metadata is published.**  Whatever the hash function is, some magnet
link and some message make the task publish a torrent decoded from bytes with another
hash. -/
theorem published_without_hash_check :
    ¬ ∃ sha1 : Bytes → Bytes, ∀ (magnet : Magnet) (as : List Act) (s : State),
      magnet.infoHash.length = 20 → FreeRun (step magnet 10485760) State.init as s →
        s.Authentic sha1 magnet := by
  rintro ⟨sha1, hall⟩
  -- a magnet link that does not name `movieDict`
  obtain ⟨b, hb01, hb⟩ : ∃ b : UInt8, (b = 0 ∨ b = 1) ∧ sha1 movieDict ≠ List.replicate 20 b := by
    by_cases h : sha1 movieDict = List.replicate 20 0
    · exact ⟨1, Or.inr rfl, by rw [h]; decide⟩
    · exact ⟨0, Or.inl rfl, h⟩
  have hpub : (exec (step ⟨List.replicate 20 b, []⟩ 10485760) State.init movieActs).map
      (fun s => s.published.map Prod.fst) = some [movieDict] := by
    rcases hb01 with rfl | rfl <;> decide +kernel
  obtain ⟨s, hs, hbufs⟩ := Option.map_eq_some_iff.mp hpub
  obtain ⟨⟨buf, torrent⟩, hm, hbuf⟩ : ∃ bt ∈ s.published, bt.1 = movieDict := by
    rw [← List.mem_map, hbufs]
    exact List.mem_singleton.mpr rfl
  have hauth := hall ⟨List.replicate 20 b, []⟩ movieActs s (by simp) (Run.of_exec hs) buf torrent hm
  simp only at hbuf
  rw [hbuf] at hauth
  exact hb hauth.1

end MagnetMetadata
