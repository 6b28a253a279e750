/-
# Where files and pieces lie in a torrent

The geometry behind `Info::find_file_of_piece_index`.

* `fileStart files k` is where the `k`-th file starts in the concatenation of all files;
* `Info.WellFormed` says that prefix sums and piece intervals are the ones `Info::new`
  computes, which decoding guarantees (`wellFormed_of_fromBencode`);
* `Info.Regular` describes the torrents on which `Info::new` completes without an
  arithmetic error, `Info.NoOverflow` those on which only an empty first file can cause one;
* `Info.Regular.filePiece` gives the interval of pieces of every file, and
  `Info.Regular.lt_low_iff` and `Info.NoOverflow.lt_high_iff` which files the two
  `partition_point`s select.
-/
import Dorodoro.HashPairing

open Bendy LexicalPath

/-! ## `partition_point` on a partitioned list -/

section PartitionPoint

variable {α : Type} {p : α → Bool} {xs : List α}

/-- The predicate holds on an initial segment of the list. -/
def Partitioned (p : α → Bool) (xs : List α) : Prop :=
  ∀ i j : ℕ, i ≤ j → xs[j]?.any p = true → xs[i]?.any p = true

/-- The binary search stops at `0` or at an element that satisfies the predicate, and
nothing behind it does. -/
theorem partitionPointLoop_spec (hp : Partitioned p xs) :
    ∀ (fuel size base : ℕ), size ≤ fuel → 0 < size →
      (base = 0 ∨ xs[base]?.any p = true) → (∀ i, base + size ≤ i → xs[i]?.any p = false) →
      (partitionPointLoop p xs fuel size base = 0 ∨
        xs[partitionPointLoop p xs fuel size base]?.any p = true) ∧
      ∀ i, partitionPointLoop p xs fuel size base < i → xs[i]?.any p = false := by
  intro fuel
  induction fuel with
  | zero => intro size base hf hpos; omega
  | succ fuel ih =>
      intro size base hf hpos hbase hrest
      rw [partitionPointLoop]
      split
      · exact ⟨hbase, fun i hi => hrest i (by omega)⟩
      · refine ih (size - size / 2) _ (by omega) (by omega) ?_ ?_
        · by_cases hmid : xs[base + size / 2]?.any p = true
          · rw [if_pos hmid]
            exact Or.inr hmid
          · rw [if_neg hmid]
            exact hbase
        · intro i hi
          by_cases hmid : xs[base + size / 2]?.any p = true
          · rw [if_pos hmid] at hi
            exact hrest i (by omega)
          · rw [if_neg hmid] at hi
            by_contra hany
            exact hmid (hp _ i (by omega) (by simpa using hany))

/-- The binary search stays inside the list. -/
theorem partitionPointLoop_lt (p : α → Bool) (xs : List α) :
    ∀ (fuel size base : ℕ), 0 < size → partitionPointLoop p xs fuel size base < base + size := by
  intro fuel
  induction fuel with
  | zero =>
      intro size base hpos
      rw [partitionPointLoop]
      omega
  | succ fuel ih =>
      intro size base hpos
      rw [partitionPointLoop]
      split
      · omega
      · refine (ih (size - size / 2) _ (by omega)).trans_le ?_
        split <;> omega

theorem partitionPoint_le_length (p : α → Bool) (xs : List α) :
    partitionPoint p xs ≤ xs.length := by
  unfold partitionPoint
  split
  · omega
  · next hne =>
      have hlt := partitionPointLoop_lt p xs xs.length xs.length 0 (List.length_pos_iff.mpr hne)
      simp only
      split <;> omega

/-- **`partition_point` is the length of the initial segment.** -/
theorem lt_partitionPoint_iff (hp : Partitioned p xs) (i : ℕ) :
    i < partitionPoint p xs ↔ xs[i]?.any p = true := by
  unfold partitionPoint
  split
  · next hnil => simp [hnil]
  · next hne =>
      have hlen : 0 < xs.length := List.length_pos_iff.mpr hne
      have hend : ∀ i, 0 + xs.length ≤ i → xs[i]?.any p = false := by
        intro i hi
        rw [List.getElem?_eq_none (by omega)]
        rfl
      obtain ⟨hbase, hrest⟩ :=
        partitionPointLoop_spec hp xs.length xs.length 0 le_rfl hlen (Or.inl rfl) hend
      simp only
      split
      · next hany =>
          constructor
          · intro hi
            exact hp i _ (by omega) hany
          · intro hi
            by_contra hge
            rw [hrest i (by omega)] at hi
            cases hi
      · next hany =>
          have hzero : partitionPointLoop p xs xs.length xs.length 0 = 0 :=
            hbase.resolve_right hany
          rw [hzero] at hany ⊢
          constructor
          · intro hi
            omega
          · intro hi
            exact absurd (hp 0 i (by omega) hi) hany

end PartitionPoint

/-! ## The start of a file -/

/-- Where the `k`-th file starts in the concatenation of the files. -/
def fileStart (files : List File) (k : ℕ) : ℕ := filesLength (files.take k)

@[simp] theorem fileStart_zero (files : List File) : fileStart files 0 = 0 := rfl

theorem fileStart_succ {files : List File} {k : ℕ} {file : File} (h : files[k]? = some file) :
    fileStart files (k + 1) = fileStart files k + file.length := by
  unfold fileStart filesLength
  rw [List.take_add_one, h]
  simp

theorem filesLength_cons (file : File) (files : List File) :
    filesLength (file :: files) = file.length + filesLength files := by
  simp [filesLength]

theorem fileStart_cons_succ (file : File) (files : List File) (k : ℕ) :
    fileStart (file :: files) (k + 1) = file.length + fileStart files k := by
  simp [fileStart, filesLength]

theorem fileStart_mono (files : List File) {j k : ℕ} (h : j ≤ k) :
    fileStart files j ≤ fileStart files k := by
  induction h with
  | refl => exact le_rfl
  | @step k _ ih =>
      refine ih.trans ?_
      cases hk : files[k]? with
      | none =>
          have hle : files.length ≤ k := List.getElem?_eq_none_iff.mp hk
          rw [fileStart, fileStart, List.take_of_length_le hle, List.take_of_length_le (by omega)]
      | some file =>
          rw [fileStart_succ hk]
          omega

theorem fileStart_length_le (files : List File) (k : ℕ) :
    fileStart files k ≤ filesLength files := by
  rcases Nat.lt_or_ge files.length k with h | h
  · rw [fileStart, List.take_of_length_le (by omega)]
  · calc fileStart files k ≤ fileStart files files.length := fileStart_mono files h
      _ = filesLength files := by rw [fileStart, List.take_length]

/-! ## What decoding guarantees -/

/-- Prefix sums and piece intervals are those computed from the file lengths; the total
length of a multi-file torrent is the sum of its files. -/
structure Info.WellFormed (info : Info) : Prop where
  files : (calculateFilePiece info.files info.pieceLength).1 = info.files
  filePiece : (calculateFilePiece info.files info.pieceLength).2 = info.filePiece
  length : info.files ≠ [] → info.length = u64 (filesLength info.files)

/-- The loop only reads the lengths of the files. -/
theorem calculateFilePieceLoop_idem (pieceLength : ℕ) (files : List File) :
    ∀ sum prev, calculateFilePieceLoop pieceLength sum prev
      ((calculateFilePieceLoop pieceLength sum prev files).map Prod.fst) =
        calculateFilePieceLoop pieceLength sum prev files := by
  induction files with
  | nil => intro sum prev; rfl
  | cons file files ih =>
      intro sum prev
      simp only [calculateFilePieceLoop, List.map_cons, List.cons.injEq, true_and]
      exact ih _ _

theorem calculateFilePieceLoop_lengths (pieceLength : ℕ) (files : List File) :
    ∀ sum prev, ((calculateFilePieceLoop pieceLength sum prev files).map Prod.fst).map
      File.length = files.map File.length := by
  induction files with
  | nil => intro sum prev; rfl
  | cons file files ih =>
      intro sum prev
      simp only [calculateFilePieceLoop, List.map_cons, List.cons.injEq, true_and]
      exact ih _ _

/-- `Info::new` on the sum of the file lengths gives a well-formed `Info`. -/
theorem wellFormed_of_new {name : String} {length pieceLength : ℕ} {pieces : Bytes}
    {files : List File} {md5sum : Option String} {isPrivate : Option ℕ} {info : Info}
    (hlen : files ≠ [] → length = u64 (filesLength files))
    (h : Info.new name length pieceLength pieces files md5sum isPrivate = .ok info) :
    info.WellFormed := by
  unfold Info.new at h
  split at h
  · cases h
  · simp only [calculateFilePiece, List.unzip_eq_map, Except.ok.injEq] at h
    subst h
    refine ⟨?_, ?_, fun hne => ?_⟩
    · simp only [calculateFilePiece, List.unzip_eq_map, calculateFilePieceLoop_idem]
    · simp only [calculateFilePiece, List.unzip_eq_map, calculateFilePieceLoop_idem]
    · have hfiles : files ≠ [] := by
        rintro rfl
        exact hne rfl
      simp only [filesLength, calculateFilePieceLoop_lengths]
      exact hlen hfiles

/-- What a decoded info dictionary was built from. -/
theorem wellFormed_of_decodeInfo {o : Object} {d d' : Decoder} {info : Info}
    (h : decodeInfo o d = .ok (info, d')) : info.WellFormed := by
  unfold decodeInfo at h
  obtain ⟨⟨s, d₁⟩, -, h⟩ := Checked.bind_eq_ok.mp h
  obtain ⟨name, -, h⟩ := Checked.bind_eq_ok.mp h
  obtain ⟨pieceLength, -, h⟩ := Checked.bind_eq_ok.mp h
  obtain ⟨pieces, -, h⟩ := Checked.bind_eq_ok.mp h
  obtain ⟨length, hlen, h⟩ := Checked.bind_eq_ok.mp h
  obtain ⟨info', hnew, h⟩ := Checked.bind_eq_ok.mp h
  have he : (info', d₁) = (info, d') := by simpa [pure, Except.pure] using h
  rw [Prod.mk.injEq] at he
  rw [he.1] at hnew
  refine wellFormed_of_new (fun hne => ?_) hnew
  cases hfiles : s.files with
  | none =>
      rw [hfiles] at hne
      exact absurd rfl hne
  | some files =>
      rw [hfiles, resourceLength, Except.ok.injEq] at hlen
      simpa using hlen.symm

/-- **Every accepted info dictionary is well formed.** -/
theorem wellFormed_of_fromBencode {bytes : Bytes} {info : Info}
    (h : Info.fromBencode bytes = .ok info) : info.WellFormed := by
  unfold Info.fromBencode Bendy.fromBencode at h
  split at h
  · cases h
  · cases h
  · obtain ⟨⟨info', d'⟩, hdec, rfl⟩ := Checked.map_eq_ok.mp h
    exact wellFormed_of_decodeInfo hdec

/-- **The info of every accepted torrent is well formed.** -/
theorem wellFormed_of_torrent {sha1 : Bytes → Bytes} {bytes : Bytes} {t : Torrent}
    (h : Torrent.fromBencode sha1 bytes = .ok t) : t.info.WellFormed := by
  obtain ⟨_, _, _, -, -, -, hinfo⟩ := hashOf_of_fromBencode h
  exact wellFormed_of_fromBencode hinfo

/-! ## Regular torrents -/

/-- `Info::new` completed without an arithmetic error: the piece length is positive, the
sum of the lengths fits a `u64`, the number of pieces a `u32`, and no empty file comes
first. -/
structure Info.Regular (info : Info) : Prop where
  pos : info.files ≠ [] → 0 < info.pieceLength
  sum_lt : filesLength info.files < 2 ^ 64
  pieces_lt : divCeil (filesLength info.files) info.pieceLength < 2 ^ 32
  head : ∀ file, info.files.head? = some file → 0 < file.length

theorem u64_eq {n : ℕ} (h : n < 2 ^ 64) : u64 n = n := Nat.mod_eq_of_lt h

theorem u64Sub_eq {a b : ℕ} (ha : a < 2 ^ 64) (hb : b ≤ a) : u64Sub a b = a - b := by
  unfold u64Sub u64
  omega

theorem u32Pred_eq {a : ℕ} (h₁ : 1 ≤ a) (h₂ : a ≤ 2 ^ 32) : u32Pred a = a - 1 := by
  unfold u32Pred u32
  omega

/-- `div_ceil` is the least multiple from above. -/
theorem divCeil_le_iff {a b n : ℕ} (hb : 0 < b) : divCeil a b ≤ n ↔ a ≤ n * b := by
  have hdiv := Nat.div_add_mod a b
  have hmod := Nat.mod_lt a hb
  unfold divCeil
  split
  · next h0 =>
      rw [h0, Nat.add_zero] at hdiv
      rw [Nat.add_zero]
      constructor
      · intro hle
        calc a = b * (a / b) := hdiv.symm
          _ ≤ b * n := Nat.mul_le_mul_left b hle
          _ = n * b := Nat.mul_comm b n
      · intro hle
        exact Nat.div_le_of_le_mul (by rwa [Nat.mul_comm])
  · next h0 =>
      constructor
      · intro hle
        calc a ≤ b * (a / b) + b := by omega
          _ = b * (a / b + 1) := by ring
          _ ≤ b * n := Nat.mul_le_mul_left b hle
          _ = n * b := Nat.mul_comm b n
      · intro hle
        by_contra hlt
        have hn : n ≤ a / b := by omega
        have : n * b ≤ b * (a / b) := by
          rw [Nat.mul_comm n b]
          exact Nat.mul_le_mul_left b hn
        omega

theorem lt_divCeil_iff {a b n : ℕ} (hb : 0 < b) : n < divCeil a b ↔ n * b < a := by
  rw [← not_le, divCeil_le_iff hb, not_le]

theorem divCeil_mono {a a' b : ℕ} (hb : 0 < b) (h : a ≤ a') : divCeil a b ≤ divCeil a' b :=
  (divCeil_le_iff hb).mpr (h.trans ((divCeil_le_iff hb).mp le_rfl))

/-- The end of the previous file and the start of the next share a piece, or not. -/
theorem divCeil_add_one_of_dvd (sum pieceLength : ℕ) :
    (divCeil sum pieceLength + if sum % pieceLength = 0 then 1 else 0) = sum / pieceLength + 1 := by
  unfold divCeil
  split <;> omega

/-- What `calculate_file_piece` computes for every file when no sum overflows; the last piece
of an empty file at the very start is the predecessor of zero in `u32`. -/
theorem calculateFilePieceLoop_getElem? {pieceLength : ℕ} (hpl : 0 < pieceLength)
    (files : List File) : ∀ sum, sum + filesLength files < 2 ^ 64 →
      divCeil (sum + filesLength files) pieceLength < 2 ^ 32 →
      ∀ (k : ℕ) (file : File), files[k]? = some file →
        (calculateFilePieceLoop pieceLength sum (divCeil sum pieceLength) files)[k]? =
          some ({ file with lengthPrefixSum := sum + fileStart files (k + 1) },
            ((sum + fileStart files k) / pieceLength,
              u32Pred (divCeil (sum + fileStart files (k + 1)) pieceLength))) := by
  induction files with
  | nil => intro sum _ _ k file hk; simp at hk
  | cons f files ih =>
      intro sum hsum hpieces k file hk
      rw [filesLength_cons] at hsum hpieces
      have hsum' : u64 (sum + f.length) = sum + f.length := u64_eq (by omega)
      rw [calculateFilePieceLoop]
      cases k with
      | zero =>
          simp only [List.getElem?_cons_zero, Option.some.injEq] at hk
          subst hk
          have hone : fileStart (f :: files) (0 + 1) = f.length := by
            rw [fileStart_cons_succ, fileStart_zero, Nat.add_zero]
          have hstart : sum / pieceLength < 2 ^ 32 := by
            refine lt_of_le_of_lt ?_ hpieces
            calc sum / pieceLength ≤ divCeil sum pieceLength := by
                  unfold divCeil
                  omega
              _ ≤ _ := divCeil_mono hpl (by omega)
          rw [List.getElem?_cons_zero, hone, fileStart_zero, Nat.add_zero, hsum',
            divCeil_add_one_of_dvd, u64_eq (by omega), u32Pred_eq (Nat.le_add_left _ _) (by omega),
            Nat.add_sub_cancel]
      | succ k =>
          rw [List.getElem?_cons_succ] at hk ⊢
          rw [hsum', ih (sum + f.length) (by omega) (by rwa [Nat.add_assoc]) k file hk,
            fileStart_cons_succ, fileStart_cons_succ]
          simp only [Nat.add_assoc]

/-- The sum of the lengths fits a `u64`, and the number of pieces a `u32`. -/
structure Info.NoOverflow (info : Info) : Prop where
  pos : info.files ≠ [] → 0 < info.pieceLength
  sum_lt : filesLength info.files < 2 ^ 64
  pieces_lt : divCeil (filesLength info.files) info.pieceLength < 2 ^ 32

section Regular

variable {info : Info}

theorem Info.Regular.noOverflow (hr : info.Regular) : info.NoOverflow :=
  ⟨hr.pos, hr.sum_lt, hr.pieces_lt⟩

/-- When no sum overflows, the `k`-th file knows where it ends, and its interval of pieces
starts with the piece of its first byte. -/
theorem Info.NoOverflow.filePiece (hno : info.NoOverflow) (hwf : info.WellFormed) {k : ℕ}
    {file : File} (hk : info.files[k]? = some file) :
    file.lengthPrefixSum = fileStart info.files (k + 1) ∧
      info.filePiece[k]? = some (fileStart info.files k / info.pieceLength,
        u32Pred (divCeil (fileStart info.files (k + 1)) info.pieceLength)) := by
  have hne : info.files ≠ [] := by
    intro hnil
    rw [hnil] at hk
    simp at hk
  have hloop := calculateFilePieceLoop_getElem? (hno.pos hne) info.files 0
    (by simpa using hno.sum_lt) (by simpa using hno.pieces_lt) k file hk
  have hzero : divCeil 0 info.pieceLength = 0 := by simp [divCeil]
  rw [hzero] at hloop
  simp only [Nat.zero_add] at hloop
  constructor
  · have hfile : info.files[k]? =
        some { file with lengthPrefixSum := fileStart info.files (k + 1) } := by
      conv_lhs => rw [← hwf.files]
      simp only [calculateFilePiece, List.unzip_eq_map, List.getElem?_map, hloop, Option.map_some]
    rw [hk, Option.some.injEq] at hfile
    exact congrArg File.lengthPrefixSum hfile
  · rw [← hwf.filePiece]
    simp only [calculateFilePiece, List.unzip_eq_map, List.getElem?_map, hloop, Option.map_some]

/-- In a regular torrent every file ends behind the first byte. -/
theorem Info.Regular.fileStart_pos (hr : info.Regular) {k : ℕ} (hk : k < info.files.length) :
    0 < fileStart info.files (k + 1) := by
  obtain ⟨f, hf⟩ : ∃ f, info.files.head? = some f := by
    cases hfs : info.files with
    | nil => rw [hfs] at hk; simp at hk
    | cons f fs => exact ⟨f, rfl⟩
  have hpos := hr.head f hf
  have h0 : info.files[0]? = some f := by rw [← List.head?_eq_getElem?]; exact hf
  have h1 := fileStart_succ h0
  have h2 := fileStart_mono info.files (show 0 + 1 ≤ k + 1 by omega)
  rw [fileStart_zero] at h1
  omega

/-- **The pieces of a file.**  In a regular torrent the `k`-th file knows where it ends,
and its interval of pieces runs from the piece of its first byte to the piece of its
last. -/
theorem Info.Regular.filePiece (hr : info.Regular) (hwf : info.WellFormed) {k : ℕ} {file : File}
    (hk : info.files[k]? = some file) :
    file.lengthPrefixSum = fileStart info.files (k + 1) ∧
      info.filePiece[k]? = some (fileStart info.files k / info.pieceLength,
        divCeil (fileStart info.files (k + 1)) info.pieceLength - 1) := by
  have hlen := (List.getElem?_eq_some_iff.mp hk).1
  have hpl := hr.pos (by intro h; rw [h] at hlen; simp at hlen)
  have hlast : 0 < divCeil (fileStart info.files (k + 1)) info.pieceLength :=
    (lt_divCeil_iff hpl).mpr (by simpa using hr.fileStart_pos hlen)
  have hle : divCeil (fileStart info.files (k + 1)) info.pieceLength < 2 ^ 32 :=
    lt_of_le_of_lt (divCeil_mono hpl (fileStart_length_le info.files (k + 1))) hr.pieces_lt
  obtain ⟨hlps, hpiece⟩ := hr.noOverflow.filePiece hwf hk
  rw [u32Pred_eq hlast hle.le] at hpiece
  exact ⟨hlps, hpiece⟩

theorem Info.WellFormed.length_filePiece (hwf : info.WellFormed) :
    info.filePiece.length = info.files.length := by
  rw [← hwf.filePiece]
  conv_rhs => rw [← hwf.files]
  simp [calculateFilePiece, List.unzip_eq_map]

theorem Info.WellFormed.filePiece_eq_nil (hwf : info.WellFormed) :
    info.filePiece = [] ↔ info.files = [] := by
  rw [← List.length_eq_zero_iff, hwf.length_filePiece, List.length_eq_zero_iff]

/-- A search in `file_piece` for a property that passes on to the files before. -/
theorem Info.WellFormed.lt_search_iff (hwf : info.WellFormed) {p : ℕ × ℕ → Bool}
    {q : ℕ → Prop} (hq : ∀ i j, i ≤ j → q j → q i)
    (hp : ∀ j file, info.files[j]? = some file → (info.filePiece[j]?.any p = true ↔ q j))
    {k : ℕ} (hk : k < info.files.length) : k < partitionPoint p info.filePiece ↔ q k := by
  have hany : ∀ j, info.filePiece[j]?.any p = true ↔ j < info.files.length ∧ q j := by
    intro j
    cases hj : info.files[j]? with
    | none =>
        have hlen := List.getElem?_eq_none_iff.mp hj
        rw [List.getElem?_eq_none (by rw [hwf.length_filePiece]; exact hlen)]
        simp only [Option.any_none, Bool.false_eq_true, false_iff, not_and]
        omega
    | some file => rw [hp j file hj, and_iff_right (List.getElem?_eq_some_iff.mp hj).1]
  have hpart : Partitioned p info.filePiece := by
    intro i j hij hj
    rw [hany] at hj ⊢
    exact ⟨by omega, hq i j hij hj.2⟩
  rw [lt_partitionPoint_iff hpart, hany]
  exact and_iff_right hk

/-- The files before a piece: those that end at its first byte or before. -/
theorem Info.Regular.lt_low_iff (hr : info.Regular) (hwf : info.WellFormed) (pieceIndex : ℕ)
    {k : ℕ} (hk : k < info.files.length) :
    k < partitionPoint (fun lr => decide (lr.2 < pieceIndex)) info.filePiece ↔
      fileStart info.files (k + 1) ≤ pieceIndex * info.pieceLength := by
  refine hwf.lt_search_iff
    (q := fun j => fileStart info.files (j + 1) ≤ pieceIndex * info.pieceLength)
    (fun i j hij hj => ?_) (fun j file hj => ?_) hk
  · exact (fileStart_mono info.files (by omega)).trans hj
  · have hlen := (List.getElem?_eq_some_iff.mp hj).1
    have hpl := hr.pos (by intro h; rw [h] at hlen; simp at hlen)
    have hd : 0 < divCeil (fileStart info.files (j + 1)) info.pieceLength :=
      (lt_divCeil_iff hpl).mpr (by simpa using hr.fileStart_pos hlen)
    rw [(hr.filePiece hwf hj).2, ← divCeil_le_iff hpl]
    simp only [Option.any_some, decide_eq_true_eq]
    omega

/-- The files that start in a piece or before. -/
theorem Info.NoOverflow.lt_high_iff (hno : info.NoOverflow) (hwf : info.WellFormed)
    (pieceIndex : ℕ) {k : ℕ} (hk : k < info.files.length) :
    k < partitionPoint (fun lr => decide (lr.1 ≤ pieceIndex)) info.filePiece ↔
      fileStart info.files k < (pieceIndex + 1) * info.pieceLength := by
  refine hwf.lt_search_iff
    (q := fun j => fileStart info.files j < (pieceIndex + 1) * info.pieceLength)
    (fun i j hij hj => ?_) (fun j file hj => ?_) hk
  · exact lt_of_le_of_lt (fileStart_mono info.files hij) hj
  · have hlen := (List.getElem?_eq_some_iff.mp hj).1
    have hpl := hno.pos (by intro h; rw [h] at hlen; simp at hlen)
    rw [(hno.filePiece hwf hj).2, ← Nat.div_lt_iff_lt_mul hpl]
    simp only [Option.any_some, decide_eq_true_eq]
    omega

end Regular
