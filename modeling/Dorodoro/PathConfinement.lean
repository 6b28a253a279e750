/-
# Where a torrent may write

The paths `Info::find_file_of_piece_index` produces come from untrusted strings: the
torrent's name and the path components of its files.  Nothing checks them.

* `Info.Confined`: every block of every piece lies lexically inside the save directory;
* `Info.SafePaths`: the name, joined with the path of every file that can be selected,
  is a safe relative path;
* `confined_iff_safePaths`: for accepted torrents the two agree.

An empty file that starts on a piece boundary is never selected, so its path does not
matter.
-/
import Dorodoro.FileLayout

open Bendy LexicalPath

/-! ## Confinement -/

/-- **Path confinement.**  Every block of every range of every piece is inside the save
directory, whatever that directory is. -/
def Info.Confined (info : Info) : Prop :=
  ∀ (D : Path) (pieceIndex offset len : ℕ), pieceIndex < 2 ^ 32 → offset < 2 ^ 32 → len < 2 ^ 64 →
    ∀ b ∈ info.findFileOfPieceIndex D pieceIndex offset len,
      D.normalize.Inside b.filepath.normalize

/-- The path of a file below the save directory. -/
def Info.resourcePath (info : Info) (file : File) : Path :=
  (Path.ofString info.name).join (.collect file.path)

/-- Some range selects the `k`-th file: it is not empty, or it starts inside a piece. -/
def Info.Visited (info : Info) (k : ℕ) (file : File) : Prop :=
  0 < file.length ∨
    (¬ info.pieceLength ∣ fileStart info.files k ∧ fileStart info.files k + 1 < 2 ^ 64)

/-- Every path a block can have is safe. -/
def Info.SafePaths (info : Info) : Prop :=
  (info.files = [] → (Path.ofString info.name).Safe) ∧
    ∀ k file, info.files[k]? = some file → info.Visited k file → (info.resourcePath file).Safe

/-- Every path of the torrent is safe. -/
def Info.AllPathsSafe (info : Info) : Prop :=
  (info.files = [] → (Path.ofString info.name).Safe) ∧
    ∀ file ∈ info.files, (info.resourcePath file).Safe

theorem Info.filePath_eq (info : Info) (D : Path) (file : File) :
    info.filePath D file = D.join (info.resourcePath file) := Path.join_assoc _ _ _

/-! ## The blocks of a range -/

section Blocks

variable {info : Info} {D : Path}

/-- A block belongs to one of the files, and that file was selected. -/
theorem mem_findBlocks {first last : ℕ} {files : List File} :
    ∀ {left : ℕ} {b : BlockInfo}, b ∈ info.findBlocks D first last left files →
      ∃ file ∈ files, (first ≤ file.lengthPrefixSum ∧
        u64Sub file.lengthPrefixSum file.length < last) ∧ b.filepath = info.filePath D file := by
  induction files with
  | nil => intro left b hb; cases hb
  | cons file files ih =>
      intro left b hb
      rw [Info.findBlocks] at hb
      split at hb
      · next b' hb' =>
          rw [List.mem_cons] at hb
          rcases hb with rfl | hb
          · simp only [Info.blockOf, Option.ite_none_right_eq_some, Option.some.injEq] at hb'
            obtain ⟨hsel, rfl⟩ := hb'
            exact ⟨file, List.mem_cons_self, hsel, rfl⟩
          · obtain ⟨f, hf, hsel, hpath⟩ := ih hb
            exact ⟨f, List.mem_cons_of_mem _ hf, hsel, hpath⟩
      · obtain ⟨f, hf, hsel, hpath⟩ := ih hb
        exact ⟨f, List.mem_cons_of_mem _ hf, hsel, hpath⟩

/-- Every selected file has a block. -/
theorem exists_mem_findBlocks {first last : ℕ} {files : List File} {file : File}
    (hfile : file ∈ files) (hfirst : first ≤ file.lengthPrefixSum)
    (hlast : u64Sub file.lengthPrefixSum file.length < last) :
    ∀ left, ∃ b ∈ info.findBlocks D first last left files, b.filepath = info.filePath D file := by
  induction files with
  | nil => cases hfile
  | cons f files ih =>
      intro left
      rw [Info.findBlocks]
      rw [List.mem_cons] at hfile
      rcases hfile with rfl | hfile
      · have hsome : ∃ b, info.blockOf D first last left file = some b ∧
            b.filepath = info.filePath D file := by
          simp only [Info.blockOf, hfirst, hlast, and_self, if_true]
          exact ⟨_, rfl, rfl⟩
        obtain ⟨b, hb, hpath⟩ := hsome
        rw [hb]
        exact ⟨b, List.mem_cons_self, hpath⟩
      · split
        · next b _ =>
            obtain ⟨b', hb', hpath⟩ := ih hfile (left - b.len)
            exact ⟨b', List.mem_cons_of_mem _ hb', hpath⟩
        · exact ih hfile left

/-- The elements of a slice. -/
theorem mem_take_drop {files : List File} {low high : ℕ} {file : File} :
    file ∈ (files.take high).drop low ↔ ∃ k, low ≤ k ∧ k < high ∧ files[k]? = some file := by
  rw [List.mem_iff_getElem?]
  simp only [List.getElem?_drop]
  constructor
  · rintro ⟨i, hi⟩
    have hlt : low + i < high := by
      have := (List.getElem?_eq_some_iff.mp hi).1
      rw [List.length_take] at this
      omega
    rw [List.getElem?_take_of_lt hlt] at hi
    exact ⟨low + i, by omega, hlt, hi⟩
  · rintro ⟨k, hlow, hhigh, hk⟩
    refine ⟨k - low, ?_⟩
    rw [Nat.add_sub_cancel' hlow, List.getElem?_take_of_lt hhigh]
    exact hk

/-- Every block comes from the name alone or from a file between `low` and `high` that is not
wholly before or behind the range. -/
theorem mem_findFileOfPieceIndex {pieceIndex offset len : ℕ} {b : BlockInfo}
    (hwf : info.WellFormed) (hb : b ∈ info.findFileOfPieceIndex D pieceIndex offset len) :
    (info.files = [] ∧ b.filepath = D.join (.ofString info.name)) ∨
      ∃ k file, info.files[k]? = some file ∧
        partitionPoint (fun lr => decide (lr.2 < pieceIndex)) info.filePiece ≤ k ∧
        k < partitionPoint (fun lr => decide (lr.1 ≤ pieceIndex)) info.filePiece ∧
        u64Sub file.lengthPrefixSum file.length <
          u64 (u64 (pieceIndex * info.pieceLength + offset) + len) ∧
        b.filepath = D.join (info.resourcePath file) := by
  simp only [Info.findFileOfPieceIndex] at hb
  split at hb
  · next hnil =>
      rw [List.mem_singleton] at hb
      exact Or.inl ⟨hwf.filePiece_eq_nil.mp hnil, by rw [hb]⟩
  · obtain ⟨file, hfile, hsel, hpath⟩ := mem_findBlocks hb
    obtain ⟨k, hlow, hhigh, hk⟩ := mem_take_drop.mp hfile
    exact Or.inr ⟨k, file, hk, hlow, hhigh, hsel.2, hpath.trans (info.filePath_eq D file)⟩

theorem filepath_of_mem {pieceIndex offset len : ℕ} {b : BlockInfo}
    (hwf : info.WellFormed) (hb : b ∈ info.findFileOfPieceIndex D pieceIndex offset len) :
    (info.files = [] ∧ b.filepath = D.join (.ofString info.name)) ∨
      ∃ file ∈ info.files, b.filepath = D.join (info.resourcePath file) := by
  obtain hname | ⟨k, file, hk, -, -, -, hpath⟩ := mem_findFileOfPieceIndex hwf hb
  · exact Or.inl hname
  · exact Or.inr ⟨file, List.mem_of_getElem? hk, hpath⟩

/-- In a regular torrent only files that can be visited have blocks. -/
theorem visited_of_mem {pieceIndex offset len : ℕ} {b : BlockInfo} (hwf : info.WellFormed)
    (hr : info.Regular) (hb : b ∈ info.findFileOfPieceIndex D pieceIndex offset len) :
    (info.files = [] ∧ b.filepath = D.join (.ofString info.name)) ∨
      ∃ k file, info.files[k]? = some file ∧ info.Visited k file ∧
        b.filepath = D.join (info.resourcePath file) := by
  obtain hname | ⟨k, file, hk, hlow, hhigh, hlast, hpath⟩ := mem_findFileOfPieceIndex hwf hb
  · exact Or.inl hname
  · refine Or.inr ⟨k, file, hk, ?_, hpath⟩
    have hlen := (List.getElem?_eq_some_iff.mp hk).1
    have hsucc := fileStart_succ hk
    have hsum := lt_of_le_of_lt (fileStart_length_le info.files (k + 1)) hr.sum_lt
    by_cases hpos : 0 < file.length
    · exact Or.inl hpos
    · -- an empty file: the piece holds bytes on both sides of its position
      have hzero : file.length = 0 := by omega
      refine Or.inr ⟨?_, ?_⟩
      · rintro ⟨m, hm⟩
        have h₁ := (not_congr (hr.lt_low_iff hwf pieceIndex hlen)).mp (not_lt.mpr hlow)
        have h₂ := (hr.noOverflow.lt_high_iff hwf pieceIndex hlen).mp hhigh
        rw [hsucc, hzero, Nat.add_zero, hm, Nat.mul_comm, not_le] at h₁
        rw [hm, Nat.mul_comm] at h₂
        have := Nat.lt_of_mul_lt_mul_right h₁
        have := Nat.lt_of_mul_lt_mul_right h₂
        omega
      · have hlps := (hr.filePiece hwf hk).1
        rw [hlps, hsucc, hzero, Nat.add_zero, u64Sub_eq (by omega) (by omega)] at hlast
        have : u64 (u64 (pieceIndex * info.pieceLength + offset) + len) < 2 ^ 64 :=
          Nat.mod_lt _ (by decide)
        omega

/-- In a regular torrent every file that can be visited has a block. -/
theorem exists_mem_of_visited (hwf : info.WellFormed) (hr : info.Regular) {k : ℕ} {file : File}
    (hk : info.files[k]? = some file) (hv : info.Visited k file) (D : Path) :
    ∃ pieceIndex len, pieceIndex < 2 ^ 32 ∧ len < 2 ^ 64 ∧
      ∃ b ∈ info.findFileOfPieceIndex D pieceIndex 0 len,
        b.filepath = D.join (info.resourcePath file) := by
  have hlen := (List.getElem?_eq_some_iff.mp hk).1
  have hne : info.files ≠ [] := by
    intro h
    rw [h] at hlen
    simp at hlen
  have hpl := hr.pos hne
  have hsucc := fileStart_succ hk
  have hle := fileStart_length_le info.files (k + 1)
  have hsum := hr.sum_lt
  obtain ⟨S, hS⟩ : ∃ S, S = fileStart info.files k := ⟨_, rfl⟩
  have hdiv := Nat.div_add_mod S info.pieceLength
  have hmod := Nat.mod_lt S hpl
  have hcomm : info.pieceLength * (S / info.pieceLength) = S / info.pieceLength * info.pieceLength :=
    Nat.mul_comm _ _
  -- the piece of the file's first byte, and the range that ends just after that byte
  have hend : S + 1 < 2 ^ 64 := by
    rcases hv with h | h
    · rw [hsucc, ← hS] at hle
      omega
    · exact hS ▸ h.2
  have hbefore : S / info.pieceLength * info.pieceLength < fileStart info.files (k + 1) := by
    rw [hsucc, ← hS]
    rcases hv with h | ⟨h, -⟩
    · omega
    · rw [← hS, Nat.dvd_iff_mod_eq_zero] at h
      omega
  have hafter : fileStart info.files k < (S / info.pieceLength + 1) * info.pieceLength := by
    rw [← hS, Nat.add_mul, Nat.one_mul]
    omega
  have hpiece : S / info.pieceLength < 2 ^ 32 := by
    refine lt_of_le_of_lt ?_ hr.pieces_lt
    exact le_of_lt ((lt_divCeil_iff hpl).mpr (by omega))
  refine ⟨S / info.pieceLength, S % info.pieceLength + 1, hpiece, by omega, ?_⟩
  have hfirst : u64 (S / info.pieceLength * info.pieceLength + 0) =
      S / info.pieceLength * info.pieceLength := u64_eq (by omega)
  simp only [Info.findFileOfPieceIndex]
  rw [if_neg (by rwa [hwf.filePiece_eq_nil]), hfirst, u64_eq (by omega)]
  have hmem : file ∈ (info.files.take
      (partitionPoint (fun lr => decide (lr.1 ≤ S / info.pieceLength)) info.filePiece)).drop
      (partitionPoint (fun lr => decide (lr.2 < S / info.pieceLength)) info.filePiece) := by
    refine mem_take_drop.mpr ⟨k, ?_, (hr.noOverflow.lt_high_iff hwf _ hlen).mpr hafter, hk⟩
    by_contra hlow
    have := (hr.lt_low_iff hwf (S / info.pieceLength) hlen).mp (not_le.mp hlow)
    omega
  have hsel : u64Sub file.lengthPrefixSum file.length <
      S / info.pieceLength * info.pieceLength + (S % info.pieceLength + 1) := by
    rw [(hr.filePiece hwf hk).1, hsucc, u64Sub_eq (by omega) (by omega), ← hS]
    omega
  have hfst : S / info.pieceLength * info.pieceLength ≤ file.lengthPrefixSum := by
    rw [(hr.filePiece hwf hk).1]
    exact hbefore.le
  obtain ⟨b, hb, hpath⟩ := exists_mem_findBlocks hmem hfst hsel (S % info.pieceLength + 1)
  exact ⟨b, hb, hpath.trans (info.filePath_eq D file)⟩

end Blocks

/-! ## Main result -/

/-- Safe paths everywhere are enough for every torrent. -/
theorem confined_of_allPathsSafe {info : Info} (hwf : info.WellFormed) (h : info.AllPathsSafe) :
    info.Confined := by
  intro D pieceIndex offset len _ _ _ b hb
  rcases filepath_of_mem hwf hb with ⟨hnil, hpath⟩ | ⟨file, hfile, hpath⟩
  · rw [hpath]
    exact inside_join_of_safe D (h.1 hnil)
  · rw [hpath]
    exact inside_join_of_safe D (h.2 file hfile)

/-- For regular torrents confinement is the safety of the paths that can be visited. -/
theorem Info.Regular.confined_iff {info : Info} (hr : info.Regular) (hwf : info.WellFormed) :
    info.Confined ↔ info.SafePaths := by
  constructor
  · intro hall
    refine ⟨fun hnil => ?_, fun k file hk hv => ?_⟩
    · refine forall_inside_join_iff.mp fun D => ?_
      refine hall D 0 0 0 (by decide) (by decide) (by decide)
        ⟨D.join (.ofString info.name), u64 (0 * info.pieceLength + 0), 0, info.length⟩ ?_
      simp only [Info.findFileOfPieceIndex]
      rw [if_pos (hwf.filePiece_eq_nil.mpr hnil)]
      exact List.mem_singleton.mpr rfl
    · refine forall_inside_join_iff.mp fun D => ?_
      obtain ⟨pieceIndex, len, hp, hl, b, hb, hpath⟩ := exists_mem_of_visited hwf hr hk hv D
      rw [← hpath]
      exact hall D pieceIndex 0 len hp (by decide) hl b hb
  · intro hsafe D pieceIndex offset len _ _ _ b hb
    rcases visited_of_mem hwf hr hb with ⟨hnil, hpath⟩ | ⟨k, file, hk, hv, hpath⟩
    · rw [hpath]
      exact inside_join_of_safe D (hsafe.1 hnil)
    · rw [hpath]
      exact inside_join_of_safe D (hsafe.2 k file hk hv)

/-- **When a torrent is confined.**  For every byte string accepted as an info dictionary
or as a torrent, safe paths confine it; and where `Info::new` completes without an
arithmetic error it is confined exactly when the paths it can visit are safe. -/
theorem confined_iff_safePaths (sha1 : Bytes → Bytes) (bytes : Bytes) (info : Info)
    (h : Info.fromBencode bytes = .ok info ∨
      ∃ t, Torrent.fromBencode sha1 bytes = .ok t ∧ t.info = info) :
    (info.AllPathsSafe → info.Confined) ∧ (info.Regular → (info.Confined ↔ info.SafePaths)) := by
  have hwf : info.WellFormed := by
    rcases h with h | ⟨t, ht, rfl⟩
    · exact wellFormed_of_fromBencode h
    · exact wellFormed_of_torrent ht
  exact ⟨confined_of_allPathsSafe hwf, fun hr => hr.confined_iff hwf⟩

/-- A single-file info dictionary with the name `name`. -/
def singleFileDict (name : String) : Bytes :=
  key ("d6:lengthi4e4:name" ++ toString name.length ++ ":" ++ name ++
    "12:piece lengthi4e6:pieces20:aaaaaaaaaaaaaaaaaaaae")

/-- The `Info` of `singleFileDict`. -/
def singleFileInfo (name : String) : Info :=
  ⟨4, 4, List.replicate 20 97, name, [], none, none, []⟩

/-- A torrent with a plain name is accepted and confined. -/
theorem confined_plain_name :
    Info.fromBencode (singleFileDict "movie") = .ok (singleFileInfo "movie") ∧
      (singleFileInfo "movie").Confined := by
  have hdec : Info.fromBencode (singleFileDict "movie") = .ok (singleFileInfo "movie") := by
    decide +kernel
  refine ⟨hdec, (confined_iff_safePaths id _ _ (Or.inl hdec)).1 ⟨fun _ => ?_, ?_⟩⟩
  · decide +kernel
  · simp [singleFileInfo]

/-- A torrent named `../evil` is accepted, and writes next to the save directory. -/
theorem not_confined_parent_name :
    ¬ ∀ bytes info, Info.fromBencode bytes = .ok info → info.Confined := by
  intro hall
  have hdec : Info.fromBencode (singleFileDict "../evil") = .ok (singleFileInfo "../evil") := by
    decide +kernel
  have hin := hall _ _ hdec (.ofString "/save") 0 0 4 (by decide) (by decide) (by decide)
    ⟨(Path.ofString "/save").join (.ofString "../evil"), 0, 4, 4⟩
    (by decide +kernel)
  revert hin
  decide +kernel
