/-
# The bytes behind a range of a piece

`Info::find_file_of_piece_index` turns a range of a piece into blocks of files, for
`write_file` and for `checkout_piece_hash`.

* the files are the segments of one long sequence (`Info.segments`), and `Info.Mapped` says that
  the blocks of a range are, byte by byte and in file order, the range they stand for;
* `Info.NumbersFit` and `Info.Addressed` are the conditions on the torrent and on the range;
  under them the write of a block and the check of its piece address the same bytes
  (`Info.Mapped.blockPlaces_eq`);
* `blocks_mapped`: the conditions are exact.
-/
import Dorodoro.Segments
import Dorodoro.TorrentArithmetic
import Dorodoro.WriteConfinement

open Bendy LexicalPath Segments

/-! ## The mapping -/

/-- The files of a torrent in their order, with their lengths. -/
def Info.segments (info : Info) (D : Path) : List (Path × ℕ) :=
  if info.files = [] then [(D.join (.ofString info.name), info.length)]
  else info.files.map fun file => (info.filePath D file, file.length)

/-- A block as a part of its file. -/
def BlockInfo.part (b : BlockInfo) : Segments.Part Path := ⟨b.filepath, b.start, b.len⟩

/-- The places of the blocks of a range, one after the other. -/
def Info.blockPlaces (info : Info) (D : Path) (pieceIndex offset len : ℕ) :
    List (Option (Path × ℕ)) :=
  places ((info.findFileOfPieceIndex D pieceIndex offset len).map BlockInfo.part)

/-- **The blocks of a range are the range**: they are in file order, lie inside their files, add
up to the length of the range, and their bytes are those of the range. -/
structure Info.Mapped (info : Info) (D : Path) (pieceIndex offset len : ℕ) : Prop where
  inOrder : ((info.findFileOfPieceIndex D pieceIndex offset len).map fun b =>
    (b.filepath, b.fileLen)).Sublist (info.segments D)
  inFile : ∀ b ∈ info.findFileOfPieceIndex D pieceIndex offset len, b.start + b.len ≤ b.fileLen
  sum : ((info.findFileOfPieceIndex D pieceIndex offset len).map BlockInfo.len).sum = len
  bytes : info.blockPlaces D pieceIndex offset len =
    range (info.segments D) (pieceIndex * info.pieceLength + offset) len

/-- The number of pieces that the files take fits a `u32`. -/
def Info.NumbersFit (info : Info) : Prop :=
  info.files ≠ [] → divCeil (filesLength info.files) info.pieceLength < 2 ^ 32

/-- The start of the piece fits a `u64`; an empty range of a single file starts in the file. -/
structure Info.Addressed (info : Info) (pieceIndex offset len : ℕ) : Prop where
  start_lt : 0 < len → pieceIndex * info.pieceLength < 2 ^ 64
  empty_le : info.files = [] → len = 0 →
    u64 (pieceIndex * info.pieceLength + offset) ≤ info.length

section Mapping

variable {info : Info} {D : Path} {pieceIndex offset len : ℕ}

theorem Info.segments_single (hnil : info.files = []) :
    info.segments D = [(D.join (.ofString info.name), info.length)] := if_pos hnil

theorem Info.segments_multi (hne : info.files ≠ []) :
    info.segments D = info.files.map fun file => (info.filePath D file, file.length) := if_neg hne

theorem total_segments (files : List File) :
    total (files.map fun file => (info.filePath D file, file.length)) = filesLength files := by
  simp [total, filesLength, Function.comp_def]

/-- The first byte of a range that is not empty exists. -/
theorem Info.Mapped.lt_total (h : info.Mapped D pieceIndex offset len) (hlen : 0 < len) :
    pieceIndex * info.pieceLength + offset < total (info.segments D) := by
  rw [← locate_isSome_iff]
  have hmem : locate (info.segments D) (pieceIndex * info.pieceLength + offset) ∈
      range (info.segments D) (pieceIndex * info.pieceLength + offset) len :=
    List.mem_map_of_mem (List.mem_range'_1.mpr ⟨le_rfl, by omega⟩)
  rw [← h.bytes] at hmem
  obtain ⟨p, -, hp⟩ := List.mem_flatMap.mp hmem
  obtain ⟨n, -, hn⟩ := List.mem_map.mp hp
  rw [← hn]
  rfl

/-- The write of a range and the check of the whole piece address the same bytes. -/
theorem Info.Mapped.blockPlaces_eq (h : info.Mapped D pieceIndex offset len)
    (hpiece : info.Mapped D pieceIndex 0 (info.pieceLengthOf pieceIndex))
    (hle : offset + len ≤ info.pieceLengthOf pieceIndex) :
    info.blockPlaces D pieceIndex offset len =
      ((info.blockPlaces D pieceIndex 0 (info.pieceLengthOf pieceIndex)).drop offset).take len := by
  rw [h.bytes, hpiece.bytes, range_slice _ hle, Nat.add_zero]

/-! ## A single file -/

/-- The only block of a single file. -/
theorem Info.findFileOfPieceIndex_single (hwf : info.WellFormed) (hnil : info.files = []) :
    info.findFileOfPieceIndex D pieceIndex offset len =
      [⟨D.join (.ofString info.name), u64 (pieceIndex * info.pieceLength + offset), len,
        info.length⟩] := by
  simp only [findFileOfPieceIndex]
  rw [if_pos (hwf.filePiece_eq_nil.mpr hnil)]

/-- The length of a piece, bounded by what is behind its start. -/
theorem Info.pieceLengthOf_le (info : Info) (i : ℕ) :
    info.pieceLengthOf i ≤ info.length - u64 (i * info.pieceLength) :=
  (Nat.mod_le _ _).trans (min_le_right _ _)

theorem Info.mapped_single_iff (hwf : info.WellFormed) (hb : info.Bounded) (hnil : info.files = [])
    (hle : offset + len ≤ info.pieceLengthOf pieceIndex) :
    info.Mapped D pieceIndex offset len ↔ info.Addressed pieceIndex offset len := by
  have hlength := hb.length_lt
  have hpiece := info.pieceLengthOf_le pieceIndex
  have hblocks : info.findFileOfPieceIndex D pieceIndex offset len = _ :=
    info.findFileOfPieceIndex_single hwf hnil
  have htotal : total (info.segments D) = info.length := by
    rw [info.segments_single hnil]
    simp [total]
  constructor
  · intro h
    refine ⟨fun hlen => ?_, fun _ hlen => ?_⟩
    · have := h.lt_total hlen
      omega
    · have := h.inFile _ (by rw [hblocks]; exact List.mem_singleton_self _)
      exact (Nat.le_add_right _ _).trans this
  · intro h
    -- where the block starts, and that it ends inside the file
    have hstart : (0 < len → u64 (pieceIndex * info.pieceLength + offset) =
        pieceIndex * info.pieceLength + offset) ∧
          u64 (pieceIndex * info.pieceLength + offset) + len ≤ info.length := by
      rcases Nat.eq_zero_or_pos len with rfl | hlen
      · exact ⟨fun hlt => absurd hlt (by omega), h.empty_le hnil rfl⟩
      · rw [u64_eq (h.start_lt hlen)] at hpiece
        rw [u64_eq (by omega)]
        exact ⟨fun _ => rfl, by omega⟩
    refine ⟨?_, ?_, ?_, ?_⟩
    · rw [hblocks, info.segments_single hnil]
      exact List.Sublist.refl _
    · rw [hblocks]
      exact List.forall_mem_singleton.mpr hstart.2
    · rw [hblocks]
      simp
    · rw [Info.blockPlaces, hblocks, info.segments_single hnil]
      rcases Nat.eq_zero_or_pos len with rfl | hlen
      · rfl
      · have hcut : range [(D.join (.ofString info.name), info.length)]
            (pieceIndex * info.pieceLength + offset) (len + 0) = _ :=
          range_cons (Or.inr (hstart.1 hlen ▸ hstart.2)) (Or.inl rfl)
        rw [range_zero, List.append_nil, Nat.add_zero] at hcut
        rw [hcut, List.map_singleton, BlockInfo.part, hstart.1 hlen]
        simp

/-! ## Several files -/

/-- The blocks are in file order. -/
theorem Info.findBlocks_inOrder (first last : ℕ) (files : List File) : ∀ left,
    ((info.findBlocks D first last left files).map fun b => (b.filepath, b.fileLen)).Sublist
      (files.map fun file => (info.filePath D file, file.length)) := by
  induction files with
  | nil => intro left; exact List.Sublist.refl _
  | cons file files ih =>
      intro left
      rw [Info.findBlocks]
      split
      · next b hb =>
          simp only [Info.blockOf, Option.ite_none_right_eq_some, Option.some.injEq] at hb
          obtain ⟨-, rfl⟩ := hb
          exact (ih _).cons_cons _
      · exact (ih left).cons _

/-- An interval from `first` to `last`, cut behind the next `n` places. -/
theorem cut_interval (first last base n m : ℕ) :
    min last (base + n) - max first base + (min last (base + n + m) - max first (base + n)) =
      min last (base + n + m) - max first base := by
  rcases le_total last (base + n) with hlast | hlast
  · have hnone : min last (base + n + m) - max first (base + n) = 0 :=
      Nat.sub_eq_zero_of_le ((min_le_left _ _).trans (hlast.trans (le_max_right _ _)))
    rw [hnone, Nat.add_zero, min_eq_left hlast, min_eq_left (hlast.trans (Nat.le_add_right _ m))]
  · have hle : base + n ≤ min last (base + n + m) := le_min hlast (Nat.le_add_right _ m)
    rw [min_eq_right hlast]
    rcases le_total first (base + n) with hfirst | hfirst
    · have hmax : max first base ≤ base + n := max_le hfirst (Nat.le_add_right _ n)
      rw [max_eq_right hfirst]
      omega
    · rw [max_eq_left hfirst, max_eq_left ((Nat.le_add_right _ n).trans hfirst),
        Nat.sub_eq_zero_of_le hfirst, Nat.zero_add]

/-- **The loop cuts the range along the files**, from the first file that it reads on. -/
theorem Info.places_findBlocks {first last : ℕ} (hle : first ≤ last) (files : List File) :
    ∀ base, base + filesLength files < 2 ^ 64 → PrefixSums base files →
      places ((info.findBlocks D first last (last - max first base) files).map BlockInfo.part) =
        range (files.map fun file => (info.filePath D file, file.length)) (max first base - base)
          (min last (base + filesLength files) - max first base) := by
  induction files with
  | nil =>
      intro base _ _
      have hzero : min last (base + filesLength []) - max first base = 0 := by
        simp only [filesLength, List.map_nil, List.sum_nil]
        omega
      rw [hzero]
      rfl
  | cons f files ih =>
      intro base hsum hlps
      rw [filesLength_cons, ← Nat.add_assoc] at hsum ⊢
      have hrest := ih (base + f.length) hsum hlps.tail
      -- the places in the first file, and those behind it
      have hcut : range ((info.filePath D f, f.length) ::
            files.map fun file => (info.filePath D file, file.length)) (max first base - base)
          (min last (base + f.length) - max first base +
            (min last (base + f.length + filesLength files) - max first (base + f.length))) = _ :=
        range_cons (by omega) (by omega)
      rw [cut_interval] at hcut
      rw [List.map_cons, hcut, Info.findBlocks, Info.blockOf_eq hle hlps.head (by omega)]
      by_cases hsel : first ≤ base + f.length ∧ base < last
      · have hleft : last - max first base - (info.part D first last base f).len =
            last - max first (base + f.length) := by
          have hpart : max first base ≤ min last (base + f.length) :=
            le_min (max_le hle hsel.2.le) (max_le hsel.1 (Nat.le_add_right _ _))
          rw [Info.part, Nat.sub_sub, Nat.add_sub_of_le hpart, max_eq_right hsel.1]
          omega
        rw [if_pos hsel]
        simp only [List.map_cons, places_cons, hleft, hrest]
        congr 2
        -- the part ends with the file at the latest
        have hend : min last (base + f.length) ≤ base + f.length := min_le_right _ _
        have hstart : base ≤ max first base := le_max_right _ _
        rw [max_eq_right hsel.1, Nat.sub_self]
        omega
      · have hleft : last - max first base = last - max first (base + f.length) := by omega
        rw [if_neg hsel]
        simp only [hleft, hrest]
        have hnone : min last (base + f.length) - max first base = 0 := by omega
        rw [hnone]
        show _ = [] ++ _
        rcases Nat.eq_zero_or_pos
          (min last (base + f.length + filesLength files) - max first (base + f.length)) with hk | hk
        · rw [hk, range_zero, range_zero]
          rfl
        · rw [List.nil_append]
          congr 1
          omega

/-- The files that the searches select: they begin at the piece or before, and reach its end or
that of the torrent. -/
theorem Info.Regular.searches (hr : info.Regular) (hwf : info.WellFormed) (hne : info.files ≠ [])
    (pieceIndex : ℕ) :
    ∃ low high, low ≤ high ∧ high ≤ info.files.length ∧
      partitionPoint (fun lr => decide (lr.2 < pieceIndex)) info.filePiece = low ∧
      partitionPoint (fun lr => decide (lr.1 ≤ pieceIndex)) info.filePiece = high ∧
      fileStart info.files low ≤ pieceIndex * info.pieceLength ∧
      min (filesLength info.files) ((pieceIndex + 1) * info.pieceLength) ≤
        fileStart info.files high := by
  have hlow := fun k hk => hr.lt_low_iff hwf pieceIndex (k := k) hk
  have hhigh := fun k hk => hr.noOverflow.lt_high_iff hwf pieceIndex (k := k) hk
  have hlow_le := partitionPoint_le_length (fun lr => decide (lr.2 < pieceIndex)) info.filePiece
  have hhigh_le := partitionPoint_le_length (fun lr => decide (lr.1 ≤ pieceIndex)) info.filePiece
  rw [hwf.length_filePiece] at hlow_le hhigh_le
  generalize partitionPoint (fun lr => decide (lr.2 < pieceIndex)) info.filePiece = low
    at hlow hlow_le
  generalize partitionPoint (fun lr => decide (lr.1 ≤ pieceIndex)) info.filePiece = high
    at hhigh hhigh_le
  have hstart : fileStart info.files low ≤ pieceIndex * info.pieceLength := by
    cases low with
    | zero => simp
    | succ low => exact (hlow low (by omega)).mp (Nat.lt_succ_self low)
  have hend : high < info.files.length →
      (pieceIndex + 1) * info.pieceLength ≤ fileStart info.files high := by
    intro hlt
    by_contra hnot
    exact absurd ((hhigh high hlt).mpr (by omega)) (lt_irrefl high)
  refine ⟨low, high, ?_, hhigh_le, rfl, rfl, hstart, ?_⟩
  · by_contra hlt
    have hbefore := (hlow (low - 1) (by omega)).mp (by omega)
    have hbehind := hend (by omega)
    have hmono := fileStart_mono info.files (show high ≤ low - 1 + 1 by omega)
    have hpl := hr.pos hne
    rw [Nat.add_mul, Nat.one_mul] at hbehind
    omega
  · rcases hhigh_le.lt_or_eq with hlt | rfl
    · exact (min_le_right _ _).trans (hend hlt)
    · refine (min_le_left _ _).trans (le_of_eq ?_)
      rw [fileStart, List.take_length]

/-- **The blocks of a range inside its piece and inside the torrent are the range.** -/
theorem Info.Regular.mapped (hr : info.Regular) (hwf : info.WellFormed) (hne : info.files ≠ [])
    (hpiece : offset + len ≤ info.pieceLength)
    (hend : pieceIndex * info.pieceLength + offset + len ≤ filesLength info.files) :
    info.Mapped D pieceIndex offset len := by
  have hsum := hr.sum_lt
  have hwrap : pieceIndex * info.pieceLength + offset + len < 2 ^ 64 := by omega
  obtain ⟨low, high, hle, hlen, hlow, hhigh, hstart, hreach⟩ := hr.searches hwf hne pieceIndex
  have hblocks := Info.findFileOfPieceIndex_eq (D := D) hwf hne hwrap
  have hslice := hr.noOverflow.prefixSum_slice hwf low high
  rw [hlow, hhigh] at hblocks
  have hfiles : info.files.take low ++ ((info.files.take high).drop low ++ info.files.drop high) =
      info.files := by
    rw [← List.append_assoc]
    have htake : (info.files.take high).take low = info.files.take low := by
      rw [List.take_take, Nat.min_eq_left hle]
    rw [← htake, List.take_append_drop, List.take_append_drop]
  -- the slice holds the whole range
  have hcover : pieceIndex * info.pieceLength + offset + len ≤
      fileStart info.files low + filesLength ((info.files.take high).drop low) := by
    have hadd : fileStart info.files low +
        fileStart ((info.files.take high).drop low) (high - low) = _ :=
      fileStart_add_slice info.files (by omega)
    have hsub := fileStart_length_le ((info.files.take high).drop low) (high - low)
    rw [Nat.add_sub_cancel' hle] at hadd
    rw [Nat.add_mul, Nat.one_mul] at hreach
    omega
  have hbytes : info.blockPlaces D pieceIndex offset len =
      range (info.segments D) (pieceIndex * info.pieceLength + offset) len := by
    have hleft : pieceIndex * info.pieceLength + offset + len -
        max (pieceIndex * info.pieceLength + offset) (fileStart info.files low) = len := by omega
    have hplaces : places ((info.findBlocks D _ _ _ _).map BlockInfo.part) = _ :=
      Info.places_findBlocks (Nat.le_add_right (pieceIndex * info.pieceLength + offset) len)
        ((info.files.take high).drop low) (fileStart info.files low)
        (lt_of_le_of_lt (fileStart_add_filesLength_slice _ _ _) hsum) hslice
    rw [hleft, max_eq_left (by omega), min_eq_left hcover, Nat.add_sub_cancel_left] at hplaces
    rw [Info.blockPlaces, hblocks, hplaces, info.segments_multi hne]
    conv_rhs => rw [← hfiles, List.map_append, List.map_append]
    have hbase : pieceIndex * info.pieceLength + offset =
        total ((info.files.take low).map fun file => (info.filePath D file, file.length)) +
          (pieceIndex * info.pieceLength + offset - fileStart info.files low) := by
      rw [total_segments]
      show _ = fileStart info.files low + _
      omega
    conv_rhs => rw [hbase]
    rw [range_append_right, range_append_left (by rw [total_segments]; omega)]
  refine ⟨?_, ?_, ?_, hbytes⟩
  · rw [hblocks, info.segments_multi hne]
    refine (Info.findBlocks_inOrder _ _ _ _).trans (List.Sublist.map _ ?_)
    exact (List.drop_sublist _ _).trans (List.take_sublist _ _)
  · intro b hb
    obtain ⟨k, file, -, -, hin⟩ := hr.noOverflow.inPart_of_mem hwf hne hwrap hb
    rw [hin.fileLen]
    exact hin.le_file
  · have hcount := congrArg List.length hbytes
    rw [Info.blockPlaces, length_places, length_range, List.map_map] at hcount
    exact hcount

/-- **An empty range** has empty blocks only, wherever it starts. -/
theorem Info.NoOverflow.mapped_empty (hno : info.NoOverflow) (hwf : info.WellFormed)
    (hne : info.files ≠ []) : info.Mapped D pieceIndex offset 0 := by
  have hpiece : info.filePiece ≠ [] := fun h => hne (hwf.filePiece_eq_nil.mp h)
  obtain ⟨first, low, high, hblocks⟩ : ∃ first low high,
      info.findFileOfPieceIndex D pieceIndex offset 0 =
        info.findBlocks D first first 0 ((info.files.take high).drop low) := by
    refine ⟨u64 (pieceIndex * info.pieceLength + offset),
      partitionPoint (fun lr => decide (lr.2 < pieceIndex)) info.filePiece,
      partitionPoint (fun lr => decide (lr.1 ≤ pieceIndex)) info.filePiece, ?_⟩
    have hmod : ∀ n, u64 (u64 n) = u64 n := fun n => Nat.mod_mod _ _
    simp only [Info.findFileOfPieceIndex, if_neg hpiece, Nat.add_zero, hmod]
  have hsum : ((info.findFileOfPieceIndex D pieceIndex offset 0).map BlockInfo.len).sum = 0 := by
    rw [hblocks]
    exact Nat.le_zero.mp (sum_findBlocks_le _ _)
  refine ⟨?_, ?_, hsum, ?_⟩
  · rw [hblocks, info.segments_multi hne]
    refine (Info.findBlocks_inOrder _ _ _ _).trans (List.Sublist.map _ ?_)
    exact (List.drop_sublist _ _).trans (List.take_sublist _ _)
  · intro b hb
    rw [hblocks] at hb
    obtain ⟨j, file, -, hin⟩ := inPart_of_mem_findBlocks le_rfl _ (fileStart info.files low) _
      (lt_of_le_of_lt (fileStart_add_filesLength_slice _ _ _) hno.sum_lt) (Nat.zero_le _)
      (hno.prefixSum_slice hwf _ _) hb
    rw [hin.fileLen]
    exact hin.le_file
  · rw [range_zero]
    refine List.eq_nil_of_length_eq_zero ?_
    rw [Info.blockPlaces, length_places, List.map_map]
    exact hsum

theorem Info.Regular.mapped_iff (hr : info.Regular) (hwf : info.WellFormed)
    (hne : info.files ≠ []) (hle : offset + len ≤ info.pieceLengthOf pieceIndex) :
    info.Mapped D pieceIndex offset len ↔ info.Addressed pieceIndex offset len := by
  have hlength : info.length = filesLength info.files := by
    rw [hwf.length hne, u64_eq hr.sum_lt]
  have hsum := hr.sum_lt
  have hpiece := info.pieceLengthOf_le pieceIndex
  constructor
  · intro h
    refine ⟨fun hlen => ?_, fun hnil => absurd hnil hne⟩
    have hlt := h.lt_total hlen
    rw [info.segments_multi hne, total_segments] at hlt
    omega
  · intro h
    rcases Nat.eq_zero_or_pos len with rfl | hlen
    · exact hr.noOverflow.mapped_empty hwf hne
    · have hmin : info.pieceLengthOf pieceIndex ≤ info.pieceLength :=
        (Nat.mod_le _ _).trans (min_le_left _ _)
      rw [u64_eq (h.start_lt hlen)] at hpiece
      exact hr.mapped hwf hne (hle.trans hmin) (by omega)

/-! ## Truncated piece numbers -/

/-- The last piece of a file is never the last `u32`: it is a `u32` minus one. -/
theorem calculateFilePieceLoop_last_lt {pieceLength : ℕ} (files : List File) :
    ∀ sum prev, (∀ (k : ℕ) (file : File), files[k]? = some file →
        FileFits false pieceLength (sum + fileStart files k) file.length) →
      ∀ entry ∈ calculateFilePieceLoop pieceLength sum prev files, entry.2.2 < 2 ^ 32 - 1 := by
  induction files with
  | nil =>
      intro sum prev _ entry hentry
      cases hentry
  | cons f files ih =>
      intro sum prev hfits
      have hf : FileFits false pieceLength sum f.length := hfits 0 f rfl
      rw [calculateFilePieceLoop, u64_eq hf.sum_lt]
      intro entry hentry
      rcases List.mem_cons.mp hentry with rfl | hrest
      · have hpos := hf.last.2
        show u32Pred _ < _
        unfold u32Pred
        unfold u32 at hpos ⊢
        omega
      · refine ih _ _ (fun k file hk => ?_) entry hrest
        rw [Nat.add_assoc, ← fileStart_cons_succ]
        exact hfits (k + 1) file hk

/-- **A torrent whose piece numbers were truncated** has a piece without blocks. -/
theorem Info.Completes.not_mapped (hc : info.Completes false) (hwf : info.WellFormed)
    (hfit : ¬ info.NumbersFit) :
    1 ≤ info.pieceLengthOf (2 ^ 32 - 1) ∧ ¬ info.Mapped D (2 ^ 32 - 1) 0 1 := by
  obtain ⟨hne, hge⟩ : info.files ≠ [] ∧
      2 ^ 32 ≤ divCeil (filesLength info.files) info.pieceLength := by
    simpa [Info.NumbersFit] using hfit
  have hpl := hc.pos hne
  have hsum := hc.sum_lt
  have hlength : info.length = filesLength info.files := by rw [hwf.length hne, u64_eq hsum]
  constructor
  · have hlt : (2 ^ 32 - 1) * info.pieceLength < filesLength info.files :=
      (lt_divCeil_iff hpl).mp (by omega)
    unfold Info.pieceLengthOf
    rw [u64_eq (hlt.trans hsum), hlength]
    unfold u32
    omega
  · -- every file ends before the last `u32`
    have hlast : ∀ lr ∈ info.filePiece, lr.2 < 2 ^ 32 - 1 := by
      intro lr hlr
      rw [← hwf.filePiece, calculateFilePiece, List.unzip_eq_map] at hlr
      obtain ⟨entry, hentry, rfl⟩ := List.mem_map.mp hlr
      refine calculateFilePieceLoop_last_lt info.files 0 0 (fun k file hk => ?_) entry hentry
      rw [Nat.zero_add]
      exact hc.fits k file hk
    have hlow : info.files.length ≤
        partitionPoint (fun lr => decide (lr.2 < 2 ^ 32 - 1)) info.filePiece := by
      by_contra hlt
      rw [not_le] at hlt
      have hall : ∀ i, i < info.files.length →
          info.filePiece[i]?.any (fun lr => decide (lr.2 < 2 ^ 32 - 1)) = true := by
        intro i hi
        have hi' : i < info.filePiece.length := by rwa [hwf.length_filePiece]
        rw [List.getElem?_eq_getElem hi', Option.any_some, decide_eq_true_eq]
        exact hlast _ (List.getElem_mem hi')
      have hpart : Partitioned (fun lr => decide (lr.2 < 2 ^ 32 - 1)) info.filePiece := by
        intro i j hij hj
        by_cases hlen : j < info.files.length
        · exact hall i (by omega)
        · rw [List.getElem?_eq_none (by rw [hwf.length_filePiece]; omega)] at hj
          cases hj
      exact lt_irrefl _ ((lt_partitionPoint_iff hpart _).mpr (hall _ hlt))
    have hblocks : info.findFileOfPieceIndex D (2 ^ 32 - 1) 0 1 = [] := by
      have hpiece : info.filePiece ≠ [] := fun h => hne (hwf.filePiece_eq_nil.mp h)
      have hslice : ∀ high, (info.files.take high).drop
          (partitionPoint (fun lr => decide (lr.2 < 2 ^ 32 - 1)) info.filePiece) = [] :=
        fun high => List.drop_eq_nil_of_le ((List.length_take_le' _ _).trans hlow)
      simp only [Info.findFileOfPieceIndex, if_neg hpiece, hslice]
      rfl
    intro h
    have hzero := h.sum
    rw [hblocks] at hzero
    cases hzero

end Mapping

/-! ## The condition -/

/-- **Block mapping.**  In a torrent whose piece numbers fit, the blocks of a range of a piece are
the range if and only if the range is `Addressed`, and then the write of the range and the check
of its piece address the same bytes; in any other torrent the last `u32` numbers a piece that has
bytes but no blocks. -/
theorem blocks_mapped {bytes : Bytes} {info : Info}
    (h : Info.fromBencodeChecked false bytes = .ok (.ok info)) (D : Path) :
    (info.NumbersFit → ∀ pieceIndex offset len, offset + len ≤ info.pieceLengthOf pieceIndex →
      (info.Mapped D pieceIndex offset len ↔ info.Addressed pieceIndex offset len) ∧
      (info.Addressed pieceIndex offset len →
        info.blockPlaces D pieceIndex offset len =
          ((info.blockPlaces D pieceIndex 0 (info.pieceLengthOf pieceIndex)).drop offset).take
            len)) ∧
    (¬ info.NumbersFit →
      1 ≤ info.pieceLengthOf (2 ^ 32 - 1) ∧ ¬ info.Mapped D (2 ^ 32 - 1) 0 1) := by
  have hdec := fromBencodeChecked_eq h
  have hwf := wellFormed_of_fromBencode hdec
  have hc := completes_of_fromBencodeChecked h
  refine ⟨fun hfit pieceIndex offset len hle => ?_, hc.not_mapped hwf⟩
  have hiff : ∀ offset len, offset + len ≤ info.pieceLengthOf pieceIndex →
      (info.Mapped D pieceIndex offset len ↔ info.Addressed pieceIndex offset len) := by
    intro offset len hle
    by_cases hnil : info.files = []
    · exact Info.mapped_single_iff hwf (Info.bounded_of_fromBencode hdec) hnil hle
    · exact (hc.regular (hfit hnil)).mapped_iff hwf hnil hle
  refine ⟨hiff offset len hle, fun haddr => ?_⟩
  have hmapped := (hiff offset len hle).mpr haddr
  rcases Nat.eq_zero_or_pos len with rfl | hlen
  · rw [hmapped.bytes, range_zero, List.take_zero]
  · refine hmapped.blockPlaces_eq ((hiff 0 _ (Nat.zero_add _).le).mpr ?_) hle
    exact ⟨fun _ => haddr.start_lt hlen, fun _ hzero => absurd hzero (by omega)⟩

/-- Three files over pieces of four bytes, the middle one empty: the last three bytes of the first
piece are two of the first file and one of the third. -/
theorem blocks_mapped_of_filesDict : ∃ info,
    Info.fromBencodeChecked false (filesDict [3, 0, 4] 4) = .ok (.ok info) ∧
      info.pieceLengthOf 0 = 4 ∧
      (info.findFileOfPieceIndex (.ofString "d") 0 1 3).map (fun b => (b.start, b.len)) =
        [(1, 2), (0, 0), (0, 1)] ∧
      info.Addressed 0 1 3 ∧ info.Mapped (.ofString "d") 0 1 3 := by
  obtain ⟨info, hinfo, hnonempty, hcount, hlen, hblocks⟩ : ∃ info,
      Info.fromBencodeChecked false (filesDict [3, 0, 4] 4) = .ok (.ok info) ∧
        info.files ≠ [] ∧ divCeil (filesLength info.files) info.pieceLength < 2 ^ 32 ∧
        info.pieceLengthOf 0 = 4 ∧
        (info.findFileOfPieceIndex (.ofString "d") 0 1 3).map (fun b => (b.start, b.len)) =
          [(1, 2), (0, 0), (0, 1)] := by
    refine ⟨((Info.fromBencodeChecked false (filesDict [3, 0, 4] 4)).toOption.bind
      Except.toOption).getD ⟨0, 0, [], "", [], none, none, []⟩, ?_, ?_, ?_, ?_, ?_⟩ <;>
      decide +kernel
  have haddr : info.Addressed 0 1 3 :=
    ⟨fun _ => by rw [Nat.zero_mul]; norm_num, fun hnil => absurd hnil hnonempty⟩
  have hiff := ((blocks_mapped hinfo (.ofString "d")).1 (fun _ => hcount) 0 1 3 (by omega)).1
  exact ⟨info, hinfo, hlen, hblocks, haddr, hiff.mpr haddr⟩

/-- The dictionary of a single file of five bytes with a piece length of `2 ^ 63` and three
pieces. -/
def wrappingDict : Bytes :=
  key "d6:lengthi5e4:name1:f12:piece lengthi9223372036854775808e6:pieces60:" ++
    List.replicate 60 0 ++ key "e"

/-- The start of the third piece wraps around to the start of the file: the blocks of its five
bytes are not bytes of the piece. -/
theorem wrapped : ∃ info, Info.fromBencodeChecked false wrappingDict = .ok (.ok info) ∧
    2 < info.pieceNum ∧ 0 + 5 ≤ info.pieceLengthOf 2 ∧
      ¬ info.Mapped (.ofString "d") 2 0 5 := by
  obtain ⟨info, hinfo, hnum, hpiece, hnil, hlength, hpl⟩ : ∃ info,
      Info.fromBencodeChecked false wrappingDict = .ok (.ok info) ∧ 2 < info.pieceNum ∧
        0 + 5 ≤ info.pieceLengthOf 2 ∧ info.files = [] ∧ info.length = 5 ∧
        info.pieceLength = 2 ^ 63 := by
    refine ⟨((Info.fromBencodeChecked false wrappingDict).toOption.bind
      Except.toOption).getD ⟨0, 0, [], "", [], none, none, []⟩, ?_, ?_, ?_, ?_, ?_, ?_⟩ <;>
      decide +kernel
  refine ⟨info, hinfo, hnum, hpiece, fun h => ?_⟩
  have hlt := h.lt_total (by decide)
  rw [info.segments_single hnil, hlength, hpl] at hlt
  simp [total] at hlt
