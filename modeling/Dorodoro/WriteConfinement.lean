/-
# Where the bytes of a block go

A `Piece` message carries its own offset and length.  `write_file` cuts the range it names
along the files of the piece and copies each part; the only check behind it is that a part
ends inside its file.

* `Info.NoOverflow.inPart_of_mem` and `Info.Regular.part_mem` say where the blocks of a range
  lie, and that they cover it;
* `Config.Confined` says that everything copied for a message lies in its piece, and
  `Config.Fits` is the condition on the message for that (`confined_of_fits`,
  `fits_of_confined`);
* `WriteTask` carries the messages through the handlers: in a run whose blocks fit, a step
  changes the disk only inside the piece of the block it writes (`confined_step`).

Without the condition a block of one piece overwrites the next one (`overwritten`).
-/
import Dorodoro.PathConfinement
import Dorodoro.SwarmStep
import Mathlib.Data.Finset.Lattice.Fold
import Mathlib.Order.Lattice.Nat

open LexicalPath Bitmap

/-! ## The parts of a range -/

section Parts

variable {info : Info} {D : Path}

/-- The part of the range from `first` to `last` in a file that starts at `base`. -/
def Info.part (info : Info) (D : Path) (first last base : ℕ) (file : File) : BlockInfo :=
  ⟨info.filePath D file, max first base - base, min last (base + file.length) - max first base,
    file.length⟩

/-- The lengths of the parts add up to at most what is left of the range. -/
theorem sum_findBlocks_le {first last : ℕ} (files : List File) :
    ∀ left, ((info.findBlocks D first last left files).map BlockInfo.len).sum ≤ left := by
  induction files with
  | nil => intro left; simp [Info.findBlocks]
  | cons file files ih =>
      intro left
      rw [Info.findBlocks]
      split
      · next b hb =>
          have hlen : b.len ≤ left := by
            simp only [Info.blockOf, Option.ite_none_right_eq_some, Option.some.injEq] at hb
            obtain ⟨-, rfl⟩ := hb
            exact min_le_right _ _
          have hrest := ih (left - b.len)
          rw [List.map_cons, List.sum_cons]
          omega
      · exact ih left

/-- A block lies inside the part of its file. -/
structure Info.InPart (info : Info) (D : Path) (first last base : ℕ) (file : File)
    (b : BlockInfo) : Prop where
  filepath : b.filepath = info.filePath D file
  fileLen : b.fileLen = file.length
  first_le : first ≤ base + b.start
  le_last : base + b.start + b.len ≤ last
  le_file : b.start + b.len ≤ file.length

/-- Where a file starts, computed from its prefix sum. -/
theorem u64Sub_prefixSum {base length : ℕ} (hsum : base + length < 2 ^ 64) :
    u64Sub (base + length) length = base := by
  rw [u64Sub_eq hsum (by omega)]
  omega

/-- One turn of the loop: the block lies inside the part of the file. -/
theorem Info.inPart_of_blockOf {first last left base : ℕ} {file : File} {b : BlockInfo}
    (hle : first ≤ last) (hleft : left ≤ last - first)
    (hlps : file.lengthPrefixSum = base + file.length) (hsum : base + file.length < 2 ^ 64)
    (hb : info.blockOf D first last left file = some b) :
    info.InPart D first last base file b := by
  simp only [Info.blockOf, hlps, u64Sub_prefixSum hsum, Option.ite_none_right_eq_some,
    Option.some.injEq] at hb
  obtain ⟨hsel, rfl⟩ := hb
  refine ⟨rfl, rfl, ?_, ?_, ?_⟩
  · simp only
    split <;> omega
  · simp only
    split <;> split <;> omega
  · simp only
    split <;> split <;> omega

/-- The prefix sums of files that follow `base` bytes. -/
def PrefixSums (base : ℕ) (files : List File) : Prop :=
  ∀ (j : ℕ) (file : File), files[j]? = some file →
    file.lengthPrefixSum = base + fileStart files (j + 1)

theorem PrefixSums.head {base : ℕ} {f : File} {files : List File}
    (h : PrefixSums base (f :: files)) : f.lengthPrefixSum = base + f.length := by
  have hf := h 0 f rfl
  rwa [fileStart_cons_succ, fileStart_zero, Nat.add_zero] at hf

theorem PrefixSums.tail {base : ℕ} {f : File} {files : List File}
    (h : PrefixSums base (f :: files)) : PrefixSums (base + f.length) files := by
  intro j file hj
  rw [h (j + 1) file hj, fileStart_cons_succ, Nat.add_assoc]

/-- Every block lies inside the part of a file. -/
theorem inPart_of_mem_findBlocks {first last : ℕ} (hle : first ≤ last) {b : BlockInfo}
    (files : List File) : ∀ base left, base + filesLength files < 2 ^ 64 → left ≤ last - first →
      PrefixSums base files →
      b ∈ info.findBlocks D first last left files →
      ∃ (j : ℕ) (file : File), files[j]? = some file ∧
        info.InPart D first last (base + fileStart files j) file b := by
  induction files with
  | nil =>
      intro base left _ _ _ hb
      cases hb
  | cons f files ih =>
      intro base left hsum hleft hlps hb
      rw [filesLength_cons] at hsum
      have hf := hlps.head
      have hrest : ∀ left', left' ≤ left → b ∈ info.findBlocks D first last left' files →
          ∃ (j : ℕ) (file : File), (f :: files)[j]? = some file ∧
            info.InPart D first last (base + fileStart (f :: files) j) file b := by
        intro left' hle' hb'
        obtain ⟨j, file, hj, hin⟩ := ih (base + f.length) left' (by omega) (by omega)
          hlps.tail hb'
        refine ⟨j + 1, file, hj, ?_⟩
        rw [fileStart_cons_succ, ← Nat.add_assoc]
        exact hin
      rw [Info.findBlocks] at hb
      split at hb
      · next b' hb' =>
          rcases List.mem_cons.mp hb with rfl | hb
          · refine ⟨0, f, rfl, ?_⟩
            rw [fileStart_zero, Nat.add_zero]
            exact Info.inPart_of_blockOf hle hleft hf (by omega) hb'
          · exact hrest _ (Nat.sub_le _ _) hb
      · exact hrest left le_rfl hb

/-- One turn of the loop with the right rest: the block is the whole part of the file. -/
theorem Info.blockOf_eq {first last base : ℕ} {file : File} (hle : first ≤ last)
    (hlps : file.lengthPrefixSum = base + file.length) (hsum : base + file.length < 2 ^ 64) :
    info.blockOf D first last (last - max first base) file =
      if first ≤ base + file.length ∧ base < last then some (info.part D first last base file)
      else none := by
  simp only [Info.blockOf, hlps, u64Sub_prefixSum hsum]
  by_cases hsel : first ≤ base + file.length ∧ base < last
  · rw [if_pos hsel, if_pos hsel, Info.part, Option.some.injEq, BlockInfo.mk.injEq]
    refine ⟨rfl, ?_, ?_, rfl⟩
    · split <;> omega
    · split
      · omega
      · split <;> omega
  · rw [if_neg hsel, if_neg hsel]

/-- **The loop cuts the range along the files**: when the range starts in the first file or
behind, every file that touches it gets its part. -/
theorem part_mem_findBlocks {first last : ℕ} (hle : first ≤ last) (files : List File) :
    ∀ base, base + filesLength files < 2 ^ 64 →
      PrefixSums base files →
      ∀ (j : ℕ) (file : File), files[j]? = some file →
        first ≤ base + fileStart files (j + 1) → base + fileStart files j < last →
        info.part D first last (base + fileStart files j) file ∈
          info.findBlocks D first last (last - max first base) files := by
  induction files with
  | nil =>
      intro base _ _ j file hj
      cases hj
  | cons f files ih =>
      intro base hsum hlps j file hj h₁ h₂
      rw [filesLength_cons] at hsum
      have hf := hlps.head
      rw [Info.findBlocks, Info.blockOf_eq hle hf (by omega)]
      cases j with
      | zero =>
          cases hj
          rw [fileStart_cons_succ, fileStart_zero, Nat.add_zero] at h₁
          rw [fileStart_zero, Nat.add_zero] at h₂ ⊢
          rw [if_pos ⟨h₁, h₂⟩]
          exact List.mem_cons_self
      | succ j =>
          rw [fileStart_cons_succ, ← Nat.add_assoc] at h₁ h₂ ⊢
          have hmem := ih (base + f.length) (by omega) hlps.tail j file hj h₁ h₂
          by_cases hsel : first ≤ base + f.length ∧ base < last
          · -- the rest of the range behind the file
            have hrest : last - max first base - (info.part D first last base f).len =
                last - max first (base + f.length) := by
              simp only [Info.part]
              omega
            rw [if_pos hsel]
            refine List.mem_cons_of_mem _ ?_
            rw [hrest]
            exact hmem
          · have hrest : last - max first base = last - max first (base + f.length) := by omega
            rw [if_neg hsel]
            simp only [hrest]
            exact hmem

/-- The start of a file of a slice, counted from the start of the slice. -/
theorem fileStart_add_slice (files : List File) {low high j : ℕ} (h : low + j ≤ high) :
    fileStart files low + fileStart ((files.take high).drop low) j = fileStart files (low + j) := by
  unfold fileStart filesLength
  rw [List.drop_take, List.take_take, Nat.min_eq_left (by omega), List.take_add, List.map_append,
    List.sum_append]

/-- The total length of a slice. -/
theorem fileStart_add_filesLength_slice (files : List File) (low high : ℕ) :
    fileStart files low + filesLength ((files.take high).drop low) ≤ filesLength files := by
  have hle : filesLength ((files.take high).drop low) ≤ filesLength (files.drop low) := by
    rw [List.drop_take]
    exact fileStart_length_le (files.drop low) (high - low)
  have hsplit : fileStart files low + filesLength (files.drop low) = filesLength files := by
    unfold fileStart filesLength
    rw [← List.sum_append, ← List.map_append, List.take_append_drop]
  omega

/-- The files of a slice. -/
theorem getElem?_slice {files : List File} {low high j : ℕ} {file : File} :
    ((files.take high).drop low)[j]? = some file ↔
      low + j < high ∧ files[low + j]? = some file := by
  rw [List.getElem?_drop, List.getElem?_take]
  split
  · next hlt => simp [hlt]
  · next hge => simp [hge]

/-- The prefix sums of a slice. -/
theorem Info.NoOverflow.prefixSum_slice (hno : info.NoOverflow) (hwf : info.WellFormed)
    (low high : ℕ) :
    ∀ (j : ℕ) (file : File), ((info.files.take high).drop low)[j]? = some file →
      file.lengthPrefixSum = fileStart info.files low +
        fileStart ((info.files.take high).drop low) (j + 1) := by
  intro j file hj
  obtain ⟨hlt, hk⟩ := getElem?_slice.mp hj
  rw [fileStart_add_slice info.files (by omega), (hno.filePiece hwf hk).1]
  rfl

section Range

variable {pieceIndex offset len : ℕ}

/-- The loop of `find_file_of_piece_index`, when nothing overflows. -/
theorem Info.findFileOfPieceIndex_eq (hwf : info.WellFormed) (hne : info.files ≠ [])
    (hwrap : pieceIndex * info.pieceLength + offset + len < 2 ^ 64) :
    info.findFileOfPieceIndex D pieceIndex offset len =
      info.findBlocks D (pieceIndex * info.pieceLength + offset)
        (pieceIndex * info.pieceLength + offset + len) len
        ((info.files.take
          (partitionPoint (fun lr => decide (lr.1 ≤ pieceIndex)) info.filePiece)).drop
          (partitionPoint (fun lr => decide (lr.2 < pieceIndex)) info.filePiece)) := by
  have hpiece : info.filePiece ≠ [] := fun h => hne (hwf.filePiece_eq_nil.mp h)
  have hfirst : u64 (pieceIndex * info.pieceLength + offset) =
      pieceIndex * info.pieceLength + offset := u64_eq (by omega)
  simp only [Info.findFileOfPieceIndex, if_neg hpiece, hfirst, u64_eq hwrap]

/-- **Where the blocks of a range lie**: inside the part of a file that starts before the end
of the piece. -/
theorem Info.NoOverflow.inPart_of_mem (hno : info.NoOverflow) (hwf : info.WellFormed)
    (hne : info.files ≠ []) (hwrap : pieceIndex * info.pieceLength + offset + len < 2 ^ 64)
    {b : BlockInfo} (hb : b ∈ info.findFileOfPieceIndex D pieceIndex offset len) :
    ∃ (k : ℕ) (file : File), info.files[k]? = some file ∧
      fileStart info.files k < (pieceIndex + 1) * info.pieceLength ∧
      info.InPart D (pieceIndex * info.pieceLength + offset)
        (pieceIndex * info.pieceLength + offset + len) (fileStart info.files k) file b := by
  rw [Info.findFileOfPieceIndex_eq hwf hne hwrap] at hb
  obtain ⟨j, file, hj, hin⟩ := inPart_of_mem_findBlocks (Nat.le_add_right _ _) _ _ _
    (lt_of_le_of_lt (fileStart_add_filesLength_slice _ _ _) hno.sum_lt) (by omega)
    (hno.prefixSum_slice hwf _ _) hb
  obtain ⟨hlt, hk⟩ := getElem?_slice.mp hj
  rw [fileStart_add_slice info.files (by omega)] at hin
  have hlen := (List.getElem?_eq_some_iff.mp hk).1
  exact ⟨_, file, hk, (hno.lt_high_iff hwf pieceIndex hlen).mp hlt, hin⟩

/-- **The blocks cover the range**: in a regular torrent every file that overlaps the piece
and touches the range has its whole part among them. -/
theorem Info.Regular.part_mem (hr : info.Regular) (hwf : info.WellFormed) (hne : info.files ≠ [])
    (hwrap : pieceIndex * info.pieceLength + offset + len < 2 ^ 64) {k : ℕ} {file : File}
    (hk : info.files[k]? = some file)
    (hend : pieceIndex * info.pieceLength < fileStart info.files (k + 1))
    (hbegin : fileStart info.files k < (pieceIndex + 1) * info.pieceLength)
    (h₁ : pieceIndex * info.pieceLength + offset ≤ fileStart info.files (k + 1))
    (h₂ : fileStart info.files k < pieceIndex * info.pieceLength + offset + len) :
    info.part D (pieceIndex * info.pieceLength + offset)
      (pieceIndex * info.pieceLength + offset + len) (fileStart info.files k) file ∈
        info.findFileOfPieceIndex D pieceIndex offset len := by
  rw [Info.findFileOfPieceIndex_eq hwf hne hwrap]
  have hlen := (List.getElem?_eq_some_iff.mp hk).1
  have hhigh := (hr.noOverflow.lt_high_iff hwf pieceIndex hlen).mpr hbegin
  have hlow := (not_congr (hr.lt_low_iff hwf pieceIndex hlen)).mpr (by omega)
  have hlow_iff := fun k (hk : k < info.files.length) => hr.lt_low_iff hwf pieceIndex hk
  generalize partitionPoint (fun lr => decide (lr.1 ≤ pieceIndex)) info.filePiece = high at hhigh ⊢
  generalize partitionPoint (fun lr => decide (lr.2 < pieceIndex)) info.filePiece = low
    at hlow hlow_iff ⊢
  -- the slice starts at the piece or before
  have hstart : fileStart info.files low ≤ pieceIndex * info.pieceLength := by
    cases low with
    | zero => simp
    | succ low => exact (hlow_iff low (by omega)).mp (Nat.lt_succ_self low)
  have hleft : pieceIndex * info.pieceLength + offset + len -
      max (pieceIndex * info.pieceLength + offset) (fileStart info.files low) = len := by omega
  obtain ⟨j, rfl⟩ := Nat.exists_eq_add_of_le (not_lt.mp hlow)
  have hmem := @part_mem_findBlocks info D _ _
    (Nat.le_add_right (pieceIndex * info.pieceLength + offset) len)
    ((info.files.take high).drop low) (fileStart info.files low)
    (lt_of_le_of_lt (fileStart_add_filesLength_slice _ _ _) hr.sum_lt)
    (hr.noOverflow.prefixSum_slice hwf _ _) j file (getElem?_slice.mpr ⟨hhigh, hk⟩)
  rw [fileStart_add_slice info.files (by omega), fileStart_add_slice info.files (by omega),
    hleft] at hmem
  exact hmem h₁ h₂

end Range

end Parts

namespace Swarm

/-! ## What is stored for a message -/

/-- What `write_file` copies for the blocks, from position `pos` of the message on, when no
mapping and no flush fails. -/
def storesOf (m : Msg) : List BlockInfo → ℕ → List Effect
  | [], _ => []
  | b :: blocks, pos =>
      let data := (m.blockData.drop pos).take b.len
      let last := u64 (b.start + data.length)
      if b.fileLen < last ∨ last < b.start then []
      else .store b.filepath b.start data :: storesOf m blocks (pos + b.len)

/-- What `write_file` copies for a message. -/
def Config.stores (C : Config) (m : Msg) : List Effect :=
  storesOf m
    (C.info.findFileOfPieceIndex C.savePath m.pieceIdx m.blockOffset m.blockData.length) 0

/-- Byte `n` of the file at `l` is byte `g` of the concatenated files. -/
def Config.Holds (C : Config) (l : Loc) (n g : ℕ) : Prop :=
  (C.info.files = [] ∧ l = (C.savePath.join (.ofString C.info.name)).normalize ∧
      n < C.info.length ∧ g = n) ∨
    ∃ (k : ℕ) (file : File), C.info.files[k]? = some file ∧
      l = (C.info.filePath C.savePath file).normalize ∧ n < file.length ∧
      g = fileStart C.info.files k + n

/-- Where a piece starts in the concatenated files. -/
def Config.pieceStart (C : Config) (i : ℕ) : ℕ := i * C.info.pieceLength

/-- Byte `g` of the concatenated files is in piece `i`. -/
def Config.InPiece (C : Config) (i g : ℕ) : Prop :=
  C.pieceStart i ≤ g ∧ g < C.pieceStart i + C.pieceLength i

/-- Everything copied for a message lies in its piece. -/
def Config.Confined (C : Config) (m : Msg) : Prop :=
  ∀ path start data, .store path start data ∈ C.stores m → ∀ n, start ≤ n →
    n < start + data.length → ∃ g, C.Holds path.normalize n g ∧ C.InPiece m.pieceIdx g

/-! ## The condition -/

/-- The end of the last file that starts before the end of the piece. -/
def Config.reach (C : Config) (i : ℕ) : ℕ :=
  {k ∈ Finset.range C.info.files.length | fileStart C.info.files k < C.pieceStart (i + 1)}.sup
    fun k => fileStart C.info.files (k + 1)

/-- Where the range of a message starts. -/
def Config.first (C : Config) (m : Msg) : ℕ := C.pieceStart m.pieceIdx + m.blockOffset

/-- Where the range of a message ends. -/
def Config.last (C : Config) (m : Msg) : ℕ := C.first m + m.blockData.length

/-- Where the stored part of the range ends: a block that ends behind a single file is
rejected, and the range is cut behind the last file of the piece. -/
def Config.storedEnd (C : Config) (m : Msg) : ℕ :=
  if C.info.files = [] then if C.last m ≤ C.info.length then C.last m else C.first m
  else min (C.last m) (C.reach m.pieceIdx)

/-- The stored part of the range is empty or ends inside the piece. -/
def Config.Fits (C : Config) (m : Msg) : Prop :=
  C.storedEnd m ≤ C.first m ∨ C.storedEnd m ≤ C.pieceStart m.pieceIdx + C.pieceLength m.pieceIdx

/-- The range of the message is computed without overflow. -/
def Config.NoWrap (C : Config) (m : Msg) : Prop := C.last m < 2 ^ 64

instance (C : Config) (m : Msg) : Decidable (C.Fits m) := by
  unfold Config.Fits
  infer_instance

instance (C : Config) (m : Msg) : Decidable (C.NoWrap m) := by
  unfold Config.NoWrap
  infer_instance

/-- Two files with bytes are never the same file of the disk. -/
def Config.DistinctFiles (C : Config) : Prop :=
  ∀ (k k' : ℕ) (file file' : File), C.info.files[k]? = some file → C.info.files[k']? = some file' →
    0 < file.length → 0 < file'.length →
    (C.info.filePath C.savePath file).normalize = (C.info.filePath C.savePath file').normalize →
    k = k'

variable {C : Config} {m : Msg}

theorem Config.first_le_last (C : Config) (m : Msg) : C.first m ≤ C.last m := Nat.le_add_right _ _

theorem Config.pieceStart_le_first (C : Config) (m : Msg) :
    C.pieceStart m.pieceIdx ≤ C.first m := Nat.le_add_right _ _

theorem Config.lt_reach_iff {i g : ℕ} : g < C.reach i ↔
    ∃ k < C.info.files.length, fileStart C.info.files k < C.pieceStart (i + 1) ∧
      g < fileStart C.info.files (k + 1) := by
  simp only [Config.reach, Finset.lt_sup_iff, Finset.mem_filter, Finset.mem_range, and_assoc]

/-- The file a place before the reach of the piece lies in. -/
theorem Config.exists_file_of_lt_reach {i g : ℕ} (h : g < C.reach i) :
    ∃ (k : ℕ) (file : File), C.info.files[k]? = some file ∧
      fileStart C.info.files k < C.pieceStart (i + 1) ∧ fileStart C.info.files k ≤ g ∧
      g < fileStart C.info.files (k + 1) := by
  obtain ⟨k₀, hk₀, hbegin, hend⟩ := Config.lt_reach_iff.mp h
  -- the first file that ends behind the place
  have hex : ∃ k, g < fileStart C.info.files (k + 1) := ⟨k₀, hend⟩
  have hle : Nat.find hex ≤ k₀ := Nat.find_min' hex hend
  have hlen : Nat.find hex < C.info.files.length := by omega
  refine ⟨Nat.find hex, C.info.files[Nat.find hex], List.getElem?_eq_getElem hlen, ?_, ?_,
    Nat.find_spec hex⟩
  · exact lt_of_le_of_lt (fileStart_mono C.info.files hle) hbegin
  · cases hfind : Nat.find hex with
    | zero => exact Nat.zero_le g
    | succ k =>
        have := Nat.find_min hex (show k < Nat.find hex by omega)
        omega

/-- A place in the concatenated files belongs to one byte of the disk. -/
theorem Config.Holds.unique (hd : C.DistinctFiles) {l : Loc} {n g g' : ℕ} (h : C.Holds l n g)
    (h' : C.Holds l n g') : g = g' := by
  rcases h with ⟨hnil, -, -, rfl⟩ | ⟨k, file, hk, rfl, hn, rfl⟩
  · rcases h' with ⟨-, -, -, rfl⟩ | ⟨k', file', hk', -⟩
    · rfl
    · rw [hnil] at hk'
      cases hk'
  · rcases h' with ⟨hnil, -⟩ | ⟨k', file', hk', hl, hn', rfl⟩
    · rw [hnil] at hk
      cases hk
    · rw [hd k k' file file' hk hk' (by omega) (by omega) hl]

/-- The pieces do not overlap. -/
theorem Config.InPiece.unique {i j g : ℕ} (hi : C.InPiece i g) (hj : C.InPiece j g) : i = j := by
  have hle : ∀ k, C.pieceLength k ≤ C.info.pieceLength := by
    intro k
    exact (u32_le _).trans (min_le_left _ _)
  have hlt : ∀ {i j}, C.InPiece i g → C.InPiece j g → ¬ i < j := by
    intro i j hi hj hij
    have hstep : C.pieceStart (i + 1) ≤ C.pieceStart j := Nat.mul_le_mul_right _ hij
    have hsucc : C.pieceStart (i + 1) = C.pieceStart i + C.info.pieceLength := Nat.succ_mul _ _
    have := hle i
    have := hi.2
    have := hj.1
    omega
  have h₁ := hlt hi hj
  have h₂ := hlt hj hi
  omega

/-! ## The condition is exact -/

/-- When every block ends in its file and the message is long enough, what is copied are the
blocks. -/
theorem mem_storesOf {blocks : List BlockInfo} : ∀ {pos : ℕ},
    (∀ b ∈ blocks, b.start + b.len ≤ b.fileLen ∧ b.fileLen < 2 ^ 64) →
    pos + (blocks.map BlockInfo.len).sum ≤ m.blockData.length →
    (∀ path start data, .store path start data ∈ storesOf m blocks pos →
      ∃ b ∈ blocks, path = b.filepath ∧ start = b.start ∧ data.length = b.len) ∧
    ∀ b ∈ blocks, ∃ data, data.length = b.len ∧
      .store b.filepath b.start data ∈ storesOf m blocks pos := by
  induction blocks with
  | nil =>
      intro pos _ _
      refine ⟨fun path start data h => ?_, fun b hb => ?_⟩
      · cases h
      · cases hb
  | cons b blocks ih =>
      intro pos hin hsum
      rw [List.map_cons, List.sum_cons] at hsum
      obtain ⟨hb, hlt⟩ := hin b List.mem_cons_self
      have hdata : ((m.blockData.drop pos).take b.len).length = b.len := by
        rw [List.length_take, List.length_drop]
        omega
      have hlast : u64 (b.start + b.len) = b.start + b.len := u64_eq (by omega)
      have hok : ¬ (b.fileLen < b.start + b.len ∨ b.start + b.len < b.start) := by omega
      obtain ⟨hfrom, hto⟩ := ih (fun b' hb' => hin b' (List.mem_cons_of_mem _ hb'))
        (show pos + b.len + (blocks.map BlockInfo.len).sum ≤ _ by omega)
      simp only [storesOf, hdata, hlast, if_neg hok]
      constructor
      · intro path start data h
        rcases List.mem_cons.mp h with h | h
        · cases h
          exact ⟨b, List.mem_cons_self, rfl, rfl, hdata⟩
        · obtain ⟨b', hb', hrest⟩ := hfrom path start data h
          exact ⟨b', List.mem_cons_of_mem _ hb', hrest⟩
      · intro b' hb'
        rcases List.mem_cons.mp hb' with rfl | hb'
        · exact ⟨_, hdata, List.mem_cons_self⟩
        · obtain ⟨data, hlen, hmem⟩ := hto b' hb'
          exact ⟨data, hlen, List.mem_cons_of_mem _ hmem⟩

/-- A single file: the block is rejected, or lies where its offset says. -/
theorem stores_single (hwf : C.info.WellFormed) (hnil : C.info.files = []) (hwrap : C.NoWrap m) :
    C.stores m = if C.last m ≤ C.info.length then
      [.store (C.savePath.join (.ofString C.info.name)) (C.first m) m.blockData] else [] := by
  have hpiece : C.info.filePiece = [] := hwf.filePiece_eq_nil.mpr hnil
  have hle := C.first_le_last m
  have hwrap' : C.last m < 2 ^ 64 := hwrap
  have hfirst : u64 (m.pieceIdx * C.info.pieceLength + m.blockOffset) = C.first m :=
    u64_eq (lt_of_le_of_lt hle hwrap)
  have hlast : u64 (C.first m + m.blockData.length) = C.last m := u64_eq hwrap
  simp only [Config.stores, Info.findFileOfPieceIndex, if_pos hpiece, storesOf, List.drop_zero,
    List.take_length, hfirst, hlast]
  by_cases hin : C.last m ≤ C.info.length
  · rw [if_pos hin, if_neg (by omega)]
  · rw [if_neg hin, if_pos (by omega)]

theorem confined_iff_fits_single (hwf : C.info.WellFormed) (hnil : C.info.files = [])
    (hwrap : C.NoWrap m) : C.Confined m ↔ C.Fits m := by
  have hle := C.first_le_last m
  have hstart := C.pieceStart_le_first m
  unfold Config.Confined Config.Fits Config.storedEnd
  rw [stores_single hwf hnil hwrap, if_pos hnil]
  by_cases hin : C.last m ≤ C.info.length
  · rw [if_pos hin, if_pos hin]
    constructor
    · intro h
      by_contra hnot
      rw [not_or, not_le, not_le] at hnot
      have hlast : C.last m = C.first m + m.blockData.length := rfl
      -- the last byte of the block is behind the piece
      obtain ⟨g, hg, hpiece⟩ := h _ _ _ List.mem_cons_self (C.last m - 1) (by omega) (by omega)
      rcases hg with ⟨-, -, -, rfl⟩ | ⟨k, file, hk, -⟩
      · have := hpiece.2
        omega
      · rw [hnil] at hk
        cases hk
    · intro h path start data hmem n hn₁ hn₂
      cases List.mem_singleton.mp hmem
      have hlast : n < C.last m := hn₂
      refine ⟨n, Or.inl ⟨hnil, rfl, by omega, rfl⟩, by omega, ?_⟩
      omega
  · rw [if_neg hin, if_neg hin]
    constructor
    · intro _
      exact Or.inl le_rfl
    · intro _ path start data hmem
      cases hmem

/-- Several files: what is copied are the blocks. -/
theorem mem_stores_multi (hwf : C.info.WellFormed) (hno : C.info.NoOverflow)
    (hne : C.info.files ≠ []) (hwrap : C.NoWrap m) :
    (∀ path start data, .store path start data ∈ C.stores m →
      ∃ b ∈ C.info.findFileOfPieceIndex C.savePath m.pieceIdx m.blockOffset m.blockData.length,
        path = b.filepath ∧ start = b.start ∧ data.length = b.len) ∧
    ∀ b ∈ C.info.findFileOfPieceIndex C.savePath m.pieceIdx m.blockOffset m.blockData.length,
      ∃ data, data.length = b.len ∧ .store b.filepath b.start data ∈ C.stores m := by
  refine mem_storesOf ?_ ?_
  · intro b hb
    obtain ⟨k, file, hk, -, hin⟩ := hno.inPart_of_mem hwf hne hwrap hb
    have hfile := fileStart_length_le C.info.files (k + 1)
    rw [fileStart_succ hk] at hfile
    have hsum := hno.sum_lt
    rw [hin.fileLen]
    exact ⟨hin.le_file, by omega⟩
  · rw [Info.findFileOfPieceIndex_eq hwf hne hwrap, Nat.zero_add]
    exact sum_findBlocks_le _ _

/-- A message that fits is confined. -/
theorem confined_of_fits (hwf : C.info.WellFormed) (hno : C.info.NoOverflow) (hwrap : C.NoWrap m)
    (hfits : C.Fits m) : C.Confined m := by
  by_cases hnil : C.info.files = []
  · exact (confined_iff_fits_single hwf hnil hwrap).mpr hfits
  · have hstart := C.pieceStart_le_first m
    unfold Config.Fits Config.storedEnd at hfits
    rw [if_neg hnil] at hfits
    intro path start data hmem n hn₁ hn₂
    obtain ⟨b, hb, rfl, rfl, hlen⟩ := (mem_stores_multi hwf hno hnil hwrap).1 path start data hmem
    obtain ⟨k, file, hk, hbegin, hin⟩ := hno.inPart_of_mem hwf hnil hwrap hb
    have hsucc := fileStart_succ hk
    have hk' := (List.getElem?_eq_some_iff.mp hk).1
    have hfirst : C.first m ≤ fileStart C.info.files k + b.start := hin.first_le
    have hlast : fileStart C.info.files k + b.start + b.len ≤ C.last m := hin.le_last
    have hfile := hin.le_file
    have hreach : fileStart C.info.files k + n < C.reach m.pieceIdx :=
      Config.lt_reach_iff.mpr ⟨k, hk', hbegin, by omega⟩
    refine ⟨fileStart C.info.files k + n, Or.inr ⟨k, file, hk, ?_, by omega, rfl⟩, by omega, ?_⟩
    · rw [hin.filepath]
    · omega

/-- In a regular torrent a message that is confined fits. -/
theorem fits_of_confined (hwf : C.info.WellFormed) (hr : C.info.Regular) (hd : C.DistinctFiles)
    (hwrap : C.NoWrap m) (hconf : C.Confined m) : C.Fits m := by
  by_cases hnil : C.info.files = []
  · exact (confined_iff_fits_single hwf hnil hwrap).mp hconf
  · have hstart := C.pieceStart_le_first m
    unfold Config.Fits Config.storedEnd
    rw [if_neg hnil]
    by_contra hnot
    rw [not_or, not_le, not_le] at hnot
    -- the last stored byte is behind the piece; look up its file
    obtain ⟨g, hg⟩ : ∃ g, g + 1 = min (C.last m) (C.reach m.pieceIdx) :=
      ⟨min (C.last m) (C.reach m.pieceIdx) - 1, by omega⟩
    obtain ⟨k, file, hk, hbegin, hlow, hhigh⟩ :=
      Config.exists_file_of_lt_reach (show g < C.reach m.pieceIdx by omega)
    have hsucc := fileStart_succ hk
    have hfirst : C.first m ≤ g := by omega
    have hlast : g < C.last m := by omega
    have hmem := hr.part_mem (D := C.savePath) hwf hnil hwrap hk
      (lt_of_le_of_lt (hstart.trans hfirst) hhigh) hbegin (hfirst.trans_lt hhigh).le
      (lt_of_le_of_lt hlow hlast)
    obtain ⟨data, hlen, hstore⟩ := (mem_stores_multi hwf hr.noOverflow hnil hwrap).2 _ hmem
    have hpart : data.length = min (C.last m) (fileStart C.info.files k + file.length) -
      max (C.first m) (fileStart C.info.files k) := hlen
    obtain ⟨g', hg', hpiece⟩ := hconf _ _ _ hstore (g - fileStart C.info.files k)
      (show max (C.first m) (fileStart C.info.files k) - fileStart C.info.files k ≤ _ by omega)
      (show _ < max (C.first m) (fileStart C.info.files k) - fileStart C.info.files k +
        data.length by omega)
    have hholds : C.Holds (C.info.filePath C.savePath file).normalize
        (g - fileStart C.info.files k) g :=
      Or.inr ⟨k, file, hk, rfl, by omega, by omega⟩
    have hsame : g' = g := Config.Holds.unique hd hg' hholds
    have := hpiece.2
    omega

/-! ## Runs -/

/-- The piece whose block an action writes. -/
def State.writing (s : State) (a : Act) : Option ℕ :=
  match s.running a with
  | some ⟨_, .write m _ _ _ _⟩ => some m.pieceIdx
  | _ => none

/-- Every block that `write_file` begins with fits. -/
def FitGuard (C : Config) (s : State) (a : Act) : Prop :=
  match s.running a with
  | some ⟨_, .begin m⟩ => C.NoWrap m ∧ C.Fits m
  | _ => True

instance (C : Config) (s : State) (a : Act) : Decidable (FitGuard C s a) := by
  unfold FitGuard
  split <;> infer_instance

/-- What a task relies on: the message it writes is confined, and what it still has to copy
belongs to that message. -/
def WriteTask (C : Config) (t : Task) : Prop :=
  match t.pc with
  | .write m _ _ blocks pos => C.Confined m ∧ ∀ e ∈ storesOf m blocks pos, e ∈ C.stores m
  | _ => True

variable {s s' : State} {a : Act} {p : ℕ} {pc : Pc} {e : Effect} {ts : List Task}

/-- A block that passes the check is copied, and the rest comes after it. -/
theorem storesOf_cons {b : BlockInfo} {blocks : List BlockInfo} {pos : ℕ}
    (h₁ : u64 (b.start + ((m.blockData.drop pos).take b.len).length) ≤ b.fileLen)
    (h₂ : b.start ≤ u64 (b.start + ((m.blockData.drop pos).take b.len).length)) :
    storesOf m (b :: blocks) pos =
      .store b.filepath b.start ((m.blockData.drop pos).take b.len) ::
        storesOf m blocks (pos + b.len) := by
  simp only [storesOf]
  rw [if_neg (by omega)]

/-- One step of a task keeps what it relies on. -/
theorem WriteTask.next (hg : ∀ m, pc = .begin m → C.Confined m) (ht : WriteTask C ⟨p, pc⟩)
    (hnext : Next C s p pc e ts) : ∀ t ∈ ts, WriteTask C t := by
  cases hnext with
  | begin _ => exact List.forall_mem_singleton.mpr ⟨hg _ rfl, fun e he => he⟩
  | write h₁ h₂ =>
      refine List.forall_mem_singleton.mpr ⟨ht.1, fun e he => ht.2 e ?_⟩
      rw [storesOf_cons h₁ h₂]
      exact List.mem_cons_of_mem _ he
  | requestChoked _ => exact forall_mem_returns fun _ _ => trivial
  | findFull => exact forall_mem_returns fun _ _ => trivial
  | lootNone => exact forall_mem_returns fun _ _ => trivial
  | leaveLost _ => exact forall_mem_returns fun _ _ => trivial
  | leave _ => exact List.forall_mem_cons.mpr ⟨trivial, forall_mem_returns fun _ _ => trivial⟩
  | finishEnded _ => exact forall_mem_pcs (fun _ _ => trivial) trivial
  | saveRow => exact forall_mem_pcs (fun _ _ => trivial) trivial
  | lootExitDropNext _ =>
      exact List.forall_mem_cons.mpr ⟨trivial, List.forall_mem_singleton.mpr trivial⟩
  | lootExitDropGive _ =>
      exact List.forall_mem_cons.mpr ⟨trivial, List.forall_mem_singleton.mpr trivial⟩
  | _ =>
      -- the task ends, or goes on where it relies on nothing
      first
      | exact List.forall_mem_singleton.mpr trivial
      | exact List.forall_mem_nil _

/-- Only `write_file` changes the disk, by one of the copies for its message. -/
theorem disk_next (hnext : Next C s p pc e ts) :
    (e.exec C s).disk = s.disk ∨
      ∃ m realOffset start blocks pos path first data,
        pc = .write m realOffset start blocks pos ∧ e = .store path first data ∧
        e ∈ storesOf m blocks pos := by
  cases hnext with
  | write h₁ h₂ =>
      refine Or.inr ⟨_, _, _, _, _, _, _, _, rfl, rfl, ?_⟩
      rw [storesOf_cons h₁ h₂]
      exact List.mem_cons_self
  | writeUnflushed h₁ h₂ =>
      refine Or.inr ⟨_, _, _, _, _, _, _, _, rfl, rfl, ?_⟩
      rw [storesOf_cons h₁ h₂]
      exact List.mem_cons_self
  | _ => exact Or.inl (Effect.exec_disk ..)

/-- A byte that a copy changes is one of the copied ones. -/
theorem storeAt_ne {disk : Loc → ℕ → Option UInt8} {l l' : Loc} {start n : ℕ} {data : Bytes}
    (h : storeAt disk l start data l' n ≠ disk l' n) :
    l' = l ∧ start ≤ n ∧ n < start + data.length := by
  by_contra hnot
  exact h (if_neg hnot)

/-- **A step changes the disk only inside the piece of the block it writes.** -/
theorem confined_step (hT : ∀ t ∈ s.tasks, WriteTask C t) (hstep : step C s a = some s') {l : Loc}
    {n : ℕ} (hne : s'.disk l n ≠ s.disk l n) :
    ∃ i g, s.writing a = some i ∧ C.Holds l n g ∧ C.InPiece i g := by
  cases step_cases hstep with
  | @run k c t e ts ht hc =>
      have hne' : (e.exec C s).disk l n ≠ s.disk l n := hne
      rcases disk_next (next_of_taskStep hc) with hsame | hwrite
      · rw [hsame] at hne'
        exact absurd rfl hne'
      · obtain ⟨m, realOffset, start, blocks, pos, path, first, data, hpc, rfl, hmem⟩ := hwrite
        have htask := hT t (List.mem_of_getElem? ht)
        obtain ⟨p, pc⟩ := t
        cases hpc
        obtain ⟨rfl, hn₁, hn₂⟩ := storeAt_ne hne'
        obtain ⟨g, hg, hpiece⟩ := htask.1 _ _ _ (htask.2 _ hmem) n hn₁ hn₂
        refine ⟨m.pieceIdx, g, ?_, hg, hpiece⟩
        simp only [State.writing, State.running, ht]
  | _ => exact absurd rfl hne

/-- A guarded action keeps what the tasks rely on. -/
theorem WriteTask.step (hwf : C.info.WellFormed) (hno : C.info.NoOverflow)
    (hT : ∀ t ∈ s.tasks, WriteTask C t) (hg : FitGuard C s a) (hstep : step C s a = some s') :
    ∀ t ∈ s'.tasks, WriteTask C t := by
  refine (Recorder.silent.step_invariant (S := fun _ _ => True) (T := fun _ _ t => WriteTask C t)
    (Recorder.silent_step hstep) trivial hT (fun _ _ => trivial) (fun _ _ ht => ht) ?_ ?_
    (fun _ _ => trivial)).2
  · intro t hstart
    cases hstart <;> trivial
  · rintro k c ⟨p, pc⟩ e ts rfl hk hmem hnext
    refine ⟨trivial, hT, WriteTask.next ?_ (hT _ hmem) hnext⟩
    rintro m rfl
    simp only [FitGuard, State.running, hk] at hg
    exact confined_of_fits hwf hno hg.1 hg.2

theorem WriteTask.run (hwf : C.info.WellFormed) (hno : C.info.NoOverflow)
    {bytefield : Bytes} {row : Row} {disk : Loc → ℕ → Option UInt8} {clock : ℕ} {as : List Act}
    (hrun : Transition.Run (Swarm.step C) (FitGuard C) (.boot bytefield row disk clock) as s) :
    ∀ t ∈ s.tasks, WriteTask C t := by
  refine hrun.invariant (I := fun s => ∀ t ∈ s.tasks, WriteTask C t) ?_ ?_
  · intro t ht
    cases ht
  · intro s a s' hT hg hstep
    exact WriteTask.step hwf hno hT hg hstep

/-- **Write confinement.**  What is stored for a message that fits lies in its piece, and in a
regular torrent only then.  In every run whose blocks fit, a step changes the disk only inside
the piece of the block it writes, and so leaves the bytes of every other piece, checked or
not, as they are. -/
theorem writes_confined (hwf : C.info.WellFormed) (hno : C.info.NoOverflow)
    (hd : C.DistinctFiles) :
    (∀ m, C.NoWrap m → (C.Fits m → C.Confined m) ∧
        (C.info.Regular → C.Confined m → C.Fits m)) ∧
      ∀ (bytefield : Bytes) (row : Row) (disk : Loc → ℕ → Option UInt8) (clock : ℕ)
        (as : List Act) (s : State),
        Transition.Run (step C) (FitGuard C) (.boot bytefield row disk clock) as s →
        ∀ a s', step C s a = some s' →
          (∀ l n, s'.disk l n ≠ s.disk l n →
            ∃ i g, s.writing a = some i ∧ C.Holds l n g ∧ C.InPiece i g) ∧
          ∀ j, s.writing a ≠ some j → ∀ l n g, C.Holds l n g → C.InPiece j g →
            s'.disk l n = s.disk l n := by
  refine ⟨fun m hwrap => ⟨fun hfits => confined_of_fits hwf hno hwrap hfits,
    fun hr hconf => fits_of_confined hwf hr hd hwrap hconf⟩, ?_⟩
  intro bytefield row disk clock as s hrun a s' hstep
  have hT := WriteTask.run hwf hno hrun
  refine ⟨fun l n hne => confined_step hT hstep hne, ?_⟩
  intro j hj l n g hg hpiece
  by_contra hne
  obtain ⟨i, g', hi, hg', hpiece'⟩ := confined_step hT hstep hne
  have hsame : g' = g := Config.Holds.unique hd hg' hg
  subst hsame
  exact hj (hi.trans (congrArg some (hpiece'.unique hpiece)))

/-! ## Two pieces -/

/-- One file of two pieces of four bytes each. -/
def twoPieces : Config := .singleFile 8 4 (List.replicate 40 97) 16383

/-- The file of `twoPieces`. -/
def twoPiecesFile : Loc := (twoPieces.savePath.join (.ofString "f")).normalize

theorem twoPieces_wellFormed : twoPieces.info.WellFormed :=
  ⟨rfl, rfl, fun h => absurd rfl h⟩

theorem twoPieces_noOverflow : twoPieces.info.NoOverflow :=
  ⟨fun h => absurd rfl h, by decide, by decide⟩

theorem twoPieces_distinctFiles : twoPieces.DistinctFiles := by
  intro k k' file file' hk
  cases hk

/-- Peer 0 is assigned both pieces and delivers piece 1; then it sends `data` for piece 0, up
to the copy. -/
def secondBlock (data : Bytes) : List Act :=
  [.connect, .bitfield 0 [192], .run 0 .go, .unChoke 0, .run 0 .go, .run 0 .go,
    .run 0 (.flag true), .run 0 .go, .run 0 .go, .run 0 .go, .run 0 (.flag true),
    .run 0 (.flag true), .run 0 .go, .run 0 .go, .run 0 .go, .run 0 .go, .run 0 (.flag true),
    .run 0 (.flag false),
    .piece 0 [0, 0, 0, 1, 0, 0, 0, 0, 5, 6, 7, 8], .run 0 .go, .run 0 .go, .run 0 (.flag false),
    .run 0 .go, .run 0 (.io .ok), .run 0 .go, .run 0 .go, .run 0 .go, .run 0 .go, .run 0 .go,
    .run 0 .go, .run 0 (.flag true), .run 0 .go, .run 0 .go, .run 0 .go, .run 0 .go, .run 0 .go,
    .run 0 .go, .run 0 .go, .run 0 .go, .run 0 .go,
    .piece 0 ([0, 0, 0, 0, 0, 0, 0, 0] ++ data), .run 0 .go, .run 0 .go, .run 0 (.flag false),
    .run 0 .go]

/-- A block of four bytes for piece 0 leaves piece 1, which has its bit, alone. -/
theorem confined_twoPieces :
    twoPieces.Confined ⟨0, 0, [1, 2, 3, 4]⟩ ∧
      ∃ s s', step twoPieces s (.run 0 (.io .ok)) = some s' ∧
        s.writing (.run 0 (.io .ok)) = some 0 ∧ get s.bytefield 1 = true ∧
        ∀ l n g, twoPieces.Holds l n g → twoPieces.InPiece 1 g → s'.disk l n = s.disk l n := by
  obtain ⟨hfits, hrun⟩ :=
    writes_confined twoPieces_wellFormed twoPieces_noOverflow twoPieces_distinctFiles
  refine ⟨(hfits _ (by decide)).1 (by decide), ?_⟩
  have hexec : (Transition.execIf (step twoPieces) (FitGuard twoPieces)
      (.boot (Row.added twoPieces).bytefield (.added twoPieces) (fun _ _ => none) 0)
      (secondBlock [1, 2, 3, 4])).map (fun s => (s.writing (.run 0 (.io .ok)),
        get s.bytefield 1, (step twoPieces s (.run 0 (.io .ok))).isSome)) =
      some (some 0, true, true) := by decide +kernel
  obtain ⟨s, hs, hview⟩ := Transition.Run.exists_of_execIf hexec
  simp only [Prod.mk.injEq] at hview
  obtain ⟨hwriting, hbit, hsome⟩ := hview
  obtain ⟨s', hstep⟩ := Option.isSome_iff_exists.mp hsome
  refine ⟨s, s', hstep, hwriting, hbit, ?_⟩
  apply (hrun _ _ _ _ _ _ hs _ _ hstep).2 1
  rw [hwriting]
  decide

/-- A block of eight bytes for piece 0 overwrites piece 1, which has its bit. -/
theorem overwritten :
    ∃ s s', Transition.FreeRun (step twoPieces) (.added twoPieces fun _ _ => none)
        (secondBlock [1, 2, 3, 4, 9, 9, 9, 9]) s ∧
      step twoPieces s (.run 0 (.io .ok)) = some s' ∧
      s.writing (.run 0 (.io .ok)) = some 0 ∧ get s.bytefield 1 = true ∧
      twoPieces.Holds twoPiecesFile 4 4 ∧ twoPieces.InPiece 1 4 ∧
      s.disk twoPiecesFile 4 = some 5 ∧ s'.disk twoPiecesFile 4 = some 9 := by
  have hexec : (Transition.exec (step twoPieces) (.added twoPieces fun _ _ => none)
      (secondBlock [1, 2, 3, 4, 9, 9, 9, 9])).map (fun s => (s.writing (.run 0 (.io .ok)),
        get s.bytefield 1, s.disk twoPiecesFile 4,
        (step twoPieces s (.run 0 (.io .ok))).map fun s' => s'.disk twoPiecesFile 4)) =
      some (some 0, true, some 5, some (some 9)) := by decide +kernel
  obtain ⟨s, hs, hview⟩ := Transition.Run.exists_of_exec hexec
  simp only [Prod.mk.injEq] at hview
  obtain ⟨hwriting, hbit, hbefore, hafter⟩ := hview
  obtain ⟨s', hstep, hdisk⟩ := Option.map_eq_some_iff.mp hafter
  refine ⟨s, s', hs, hstep, hwriting, hbit, ?_, ?_, hbefore, hdisk⟩
  · exact Or.inl ⟨rfl, rfl, by decide, rfl⟩
  · exact ⟨by decide, by decide⟩

end Swarm
