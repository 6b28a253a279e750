/-
# The pieces and the bytes of a torrent

`Torrent::piece_num` counts the hashes, `Torrent::piece_length` cuts the length of the resource
into pieces, and nothing compares the two.

* `Info.Covered`: no piece is empty or too long, the pieces add up to the resource, and every byte
  lies in one of them;
* `Info.FieldsAgree`: the length, the piece length and the number of hashes belong together, and
  pieces and their numbers fit a `u32`;
* `covered_iff`: for an accepted torrent the two are the same.
-/
import Dorodoro.HashPairing
import Dorodoro.TorrentArithmetic
import Mathlib.Algebra.BigOperators.Intervals
import Mathlib.Algebra.Order.BigOperators.Group.Finset
import Mathlib.Order.Interval.Finset.Nat

/-! ## Sums over intervals -/

/-- The parts of the pieces add up to what they cover. -/
theorem sum_min_sub (pl length n : ℕ) :
    ∑ i ∈ Finset.range n, min pl (length - i * pl) = min length (n * pl) := by
  induction n with
  | zero => simp
  | succ n ih =>
      rw [Finset.sum_range_succ, ih, Nat.succ_mul]
      omega

/-- Intervals that cover `n` bytes are at least `n` bytes long. -/
theorem le_sum_of_cover {s : Finset ℕ} (start : ℕ → ℕ) {len : ℕ → ℕ} {n : ℕ}
    (h : ∀ g < n, ∃ i ∈ s, start i ≤ g ∧ g < start i + len i) : n ≤ ∑ i ∈ s, len i := by
  have hsub : Finset.range n ⊆ s.biUnion fun i => Finset.Ico (start i) (start i + len i) := by
    intro g hg
    obtain ⟨i, hi, hle, hlt⟩ := h g (Finset.mem_range.mp hg)
    exact Finset.mem_biUnion.mpr ⟨i, hi, Finset.mem_Ico.mpr ⟨hle, hlt⟩⟩
  calc n = (Finset.range n).card := (Finset.card_range n).symm
    _ ≤ (s.biUnion fun i => Finset.Ico (start i) (start i + len i)).card :=
        Finset.card_le_card hsub
    _ ≤ ∑ i ∈ s, (Finset.Ico (start i) (start i + len i)).card := Finset.card_biUnion_le
    _ = ∑ i ∈ s, len i := by simp

/-! ## The geometry -/

/-- **The pieces are the resource.**  The number of a piece is a `u32`. -/
structure Info.Covered (info : Info) : Prop where
  sum : ∑ i ∈ Finset.range info.pieceNum, info.pieceLengthOf (u32 i) = info.length
  pos : ∀ i < info.pieceNum, 0 < info.pieceLengthOf (u32 i)
  le : ∀ i < info.pieceNum, info.pieceLengthOf (u32 i) ≤ info.pieceLength
  byte : ∀ g < info.length, ∃ i < info.pieceNum, u32 i * info.pieceLength ≤ g ∧
    g < u32 i * info.pieceLength + info.pieceLengthOf (u32 i)

/-- The three fields agree: there are enough hashes, the last one is needed, and neither the
pieces nor their numbers are cut to a `u32`. -/
structure Info.FieldsAgree (info : Info) : Prop where
  length_le : info.length ≤ info.pieceNum * info.pieceLength
  last_lt : 0 < info.pieceNum → (info.pieceNum - 1) * info.pieceLength < info.length
  piece_lt : min info.pieceLength info.length < 2 ^ 32
  num_le : info.pieceNum ≤ 2 ^ 32

section Geometry

variable {info : Info}

theorem u32_eq {n : ℕ} (h : n < 2 ^ 32) : u32 n = n := Nat.mod_eq_of_lt h

theorem u32_lt (n : ℕ) : u32 n < 2 ^ 32 := Nat.mod_lt _ (Nat.two_pow_pos 32)

/-- The number of pieces of a covered resource fits: piece numbers that come again would add
bytes to the sum and cover nothing new. -/
theorem Info.Covered.num_le (h : info.Covered) : info.pieceNum ≤ 2 ^ 32 := by
  by_contra hlt
  rw [not_le] at hlt
  have hcover : info.length ≤ ∑ i ∈ Finset.range (2 ^ 32), info.pieceLengthOf i := by
    refine le_sum_of_cover (· * info.pieceLength) fun g hg => ?_
    obtain ⟨i, -, hle, hend⟩ := h.byte g hg
    exact ⟨u32 i, Finset.mem_range.mpr (u32_lt i), hle, hend⟩
  have hsum : ∑ i ∈ Finset.range (2 ^ 32 + 1), info.pieceLengthOf (u32 i) ≤ info.length := by
    rw [← h.sum]
    exact Finset.sum_le_sum_of_subset (Finset.range_subset_range.mpr hlt)
  have hfirst : ∑ i ∈ Finset.range (2 ^ 32), info.pieceLengthOf (u32 i) =
      ∑ i ∈ Finset.range (2 ^ 32), info.pieceLengthOf i :=
    Finset.sum_congr rfl fun i hi => by rw [u32_eq (Finset.mem_range.mp hi)]
  have hpos := h.pos (2 ^ 32) hlt
  rw [Finset.sum_range_succ, hfirst] at hsum
  omega

/-- The first piece shows that no piece was cut, and the last one that it is needed. -/
theorem Info.Covered.fieldsAgree (h : info.Covered) : info.FieldsAgree := by
  have hnum := h.num_le
  have hnumber : ∀ i < info.pieceNum, u32 i = i := fun i hi => u32_eq (by omega)
  refine ⟨?_, fun hpos => ?_, ?_, hnum⟩
  · -- the last byte lies in a piece
    rcases Nat.eq_zero_or_pos info.length with hzero | hpos
    · rw [hzero]
      exact Nat.zero_le _
    · obtain ⟨i, hi, -, hend⟩ := h.byte (info.length - 1) (by omega)
      have hle := h.le i hi
      rw [hnumber i hi] at hend hle
      calc info.length ≤ i * info.pieceLength + info.pieceLength := by omega
        _ = (i + 1) * info.pieceLength := (Nat.succ_mul _ _).symm
        _ ≤ info.pieceNum * info.pieceLength := Nat.mul_le_mul_right _ hi
  · -- otherwise the other pieces would cover everything
    by_contra hge
    rw [not_lt] at hge
    have hcover : info.length ≤
        ∑ i ∈ Finset.range (info.pieceNum - 1), info.pieceLengthOf (u32 i) := by
      refine le_sum_of_cover (fun i => u32 i * info.pieceLength) fun g hg => ?_
      obtain ⟨i, hi, hle, hend⟩ := h.byte g hg
      have hne : i ≠ info.pieceNum - 1 := by
        rintro rfl
        rw [hnumber _ hi] at hle
        omega
      exact ⟨i, Finset.mem_range.mpr (by omega), hle, hend⟩
    have hsum := h.sum
    have hlast := h.pos (info.pieceNum - 1) (by omega)
    have hpred : info.pieceNum = info.pieceNum - 1 + 1 := by omega
    rw [hpred, Finset.sum_range_succ] at hsum
    omega
  · by_contra hge
    rw [not_lt] at hge
    have hfirst : info.pieceLengthOf 0 < 2 ^ 32 := u32_lt _
    obtain ⟨i, hi, hle, hend⟩ := h.byte (info.pieceLengthOf 0) (by omega)
    rw [hnumber i hi] at hle hend
    rcases Nat.eq_zero_or_pos i with rfl | hipos
    · omega
    · have hmul := Nat.le_mul_of_pos_left info.pieceLength hipos
      omega

/-- Where the fields agree, a piece is the rest of the resource or a whole piece length. -/
theorem Info.FieldsAgree.pieceLengthOf_eq (h : info.FieldsAgree) (hb : info.Bounded) {i : ℕ}
    (hi : i < info.pieceNum) :
    i * info.pieceLength < info.length ∧
      info.pieceLengthOf (u32 i) =
        min info.pieceLength (info.length - i * info.pieceLength) := by
  have hnum := h.num_le
  have hlast := h.last_lt (by omega)
  have hlength := hb.length_lt
  have hpiece := h.piece_lt
  have hstart : i * info.pieceLength < info.length :=
    lt_of_le_of_lt (Nat.mul_le_mul_right _ (by omega)) hlast
  refine ⟨hstart, ?_⟩
  rw [u32_eq (by omega), Info.pieceLengthOf, u64_eq (by omega), u32_eq (by omega)]

theorem Info.FieldsAgree.covered (h : info.FieldsAgree) (hb : info.Bounded) : info.Covered := by
  have hnum := h.num_le
  have hle := h.length_le
  have hpl : 0 < info.pieceNum → 0 < info.pieceLength := by
    intro hpos
    by_contra hzero
    have hlast := h.last_lt hpos
    rw [show info.pieceLength = 0 by omega] at hle hlast
    omega
  refine ⟨?_, fun i hi => ?_, fun i hi => ?_, fun g hg => ?_⟩
  · calc ∑ i ∈ Finset.range info.pieceNum, info.pieceLengthOf (u32 i)
        = ∑ i ∈ Finset.range info.pieceNum,
            min info.pieceLength (info.length - i * info.pieceLength) :=
          Finset.sum_congr rfl fun i hi => (h.pieceLengthOf_eq hb (Finset.mem_range.mp hi)).2
      _ = min info.length (info.pieceNum * info.pieceLength) := sum_min_sub _ _ _
      _ = info.length := min_eq_left hle
  · obtain ⟨hstart, heq⟩ := h.pieceLengthOf_eq hb hi
    have := hpl (by omega)
    omega
  · rw [(h.pieceLengthOf_eq hb hi).2]
    exact min_le_left _ _
  · -- the piece of a byte is the quotient
    have hpos : 0 < info.pieceLength := by
      refine hpl (Nat.pos_of_ne_zero fun hzero => ?_)
      rw [hzero, Nat.zero_mul] at hle
      omega
    have hi : g / info.pieceLength < info.pieceNum :=
      (Nat.div_lt_iff_lt_mul hpos).mpr (by omega)
    have hstart := Nat.div_mul_le_self g info.pieceLength
    have hend := Nat.lt_div_mul_add hpos (a := g)
    refine ⟨g / info.pieceLength, hi, ?_⟩
    rw [(h.pieceLengthOf_eq hb hi).2, u32_eq (by omega)]
    omega

end Geometry

/-- The torrents that the client works with: decoded ones, and ones that are built from the
metadata that peers have sent. -/
inductive Torrent.Accepted (sha1 : Bytes → Bytes) : Torrent → Prop
  | decoded {bytes : Bytes} {t : Torrent} : Torrent.fromBencode sha1 bytes = .ok t → Accepted sha1 t
  | built {metadata : Bytes} {info : Info} (infoHash : Bytes) (announces : List String) :
      Info.fromBencode metadata = .ok info → Accepted sha1 (Torrent.new info infoHash announces)

theorem Torrent.Accepted.bounded {sha1 : Bytes → Bytes} {t : Torrent} (h : t.Accepted sha1) :
    t.info.Bounded := by
  cases h with
  | decoded hdec =>
      obtain ⟨_, _, _, -, -, -, hinfo⟩ := hashOf_of_fromBencode hdec
      exact Info.bounded_of_fromBencode hinfo
  | built _ _ hinfo => exact Info.bounded_of_fromBencode hinfo

/-- **Piece geometry.**  The pieces of an accepted torrent are its resource if and only if its
fields agree. -/
theorem covered_iff {sha1 : Bytes → Bytes} {t : Torrent} (h : t.Accepted sha1) :
    t.info.Covered ↔ t.info.FieldsAgree :=
  ⟨Info.Covered.fieldsAgree, fun hagree => hagree.covered h.bounded⟩

/-- A dictionary of a single file of five bytes, with one hash. -/
def oneHashDict (pieceLength : String) : Bytes :=
  key ("d6:lengthi5e4:name1:f12:piece lengthi" ++ pieceLength ++
    "e6:pieces20:aaaaaaaaaaaaaaaaaaaae")

/-- The `Info` of `oneHashDict`. -/
def oneHashInfo (pieceLength : ℕ) : Info :=
  ⟨5, pieceLength, List.replicate 20 97, "f", [], none, none, []⟩

theorem covered_oneHashInfo : (oneHashInfo 5).Covered := by
  have hdec : Info.fromBencode (oneHashDict "5") = .ok (oneHashInfo 5) := by decide +kernel
  have hacc : Torrent.Accepted id (Torrent.new (oneHashInfo 5) [] []) := .built [] [] hdec
  refine (covered_iff hacc).mpr ⟨?_, fun _ => ?_, ?_, ?_⟩ <;> decide

/-- Pieces of two bytes need three hashes: the torrent is accepted with one, which stands for two
of the five bytes. -/
theorem not_covered_oneHashInfo :
    Info.fromBencode (oneHashDict "2") = .ok (oneHashInfo 2) ∧ ¬ (oneHashInfo 2).Covered := by
  refine ⟨by decide +kernel, fun h => ?_⟩
  have hsum := h.sum
  revert hsum
  decide
