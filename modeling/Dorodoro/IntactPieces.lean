/-
# What the bits say about the disk

A piece gets its bit when `Store::checkout` has read its blocks and their hash was the torrent's.
Nothing writes the bit down beside the bytes: whether they are still there depends on what
`write_file` has copied since.

* `Config.contents` are the bytes of the disk behind a range of the torrent, and `Intact` says that
  those of a piece have its hash;
* `CheckReturns` ties the result of a check to the disk: the bytes that `checkout` reads are the
  ones of the piece (`intact_of_check`);
* `Mark` is the history of a piece: never checked, checked, or written to after it was checked;
* `pieces_intact`: in every run whose blocks fit their pieces, a piece that was not written to
  after its check is intact, whatever was written elsewhere and however often the program was
  restarted.
-/
import Dorodoro.BlockMapping
import Dorodoro.Completion
import Dorodoro.PieceHash
import Dorodoro.Reception

open LexicalPath Bitmap Segments

/-! ## A check that has returned -/

namespace PieceHash

variable {H : Digest} {capacity : ℕ} {reads : ℕ → ℕ} {f : Files} {src : List BlockInfo}
  {hash : Bytes}

/-- A check that returned has read all blocks, and compared the hash of their bytes. -/
theorem of_checkout (hcap : 0 < capacity) {fuel : ℕ} {ok : Bool}
    (h : checkout H capacity reads f src hash fuel = some (.ok ok)) :
    (∀ b ∈ src, Present f b) ∧ ok = decide (H.hash (src.flatMap (requested f)) = hash) := by
  rcases all_present_or_first f src with hall | ⟨before, block, after, rfl, hbefore, hblock⟩
  · have hsame := checkout_unique h (checkout_of_present hcap hall)
    exact ⟨hall, Except.ok.inj hsame⟩
  · exfalso
    match haccess : f.access block with
    | none =>
        -- the check ends with an error
        have hrun : checkout H capacity reads f (before ++ block :: after) hash (enough before) =
            some (.error ()) := by
          rw [checkout, hashBlocks_error hcap hbefore haccess le_rfl]
          rfl
        cases checkout_unique h hrun
    | some bytes =>
        -- the check never ends
        have hopen : ∀ b ∈ before, (f.access b).isSome := by
          intro b hb
          obtain ⟨bytes, hb, -⟩ := hbefore b hb
          rw [hb]
          rfl
        rw [checkout, hashBlocks_none haccess hblock hopen] at h
        cases h

end PieceHash

namespace Swarm

/-! ## The bytes on the disk -/

/-- The byte at a place of the files; a file is created with zeros. -/
def byteAt (disk : Loc → ℕ → Option UInt8) : Option (Path × ℕ) → UInt8
  | some (path, n) => (disk path.normalize n).getD 0
  | none => 0

/-- The bytes of the disk behind a range of the concatenated files. -/
def Config.contents (C : Config) (disk : Loc → ℕ → Option UInt8) (first len : ℕ) : Bytes :=
  (range (C.info.segments C.savePath) first len).map (byteAt disk)

/-- The hash of a piece in the torrent. -/
def Config.pieceHash (C : Config) (i : ℕ) : Bytes := (C.info.pieces.drop (i * 20)).take 20

/-- The bytes of a piece on the disk have its hash. -/
def Intact (C : Config) (H : PieceHash.Digest) (disk : Loc → ℕ → Option UInt8) (i : ℕ) : Prop :=
  H.hash (C.contents disk (C.pieceStart i) (C.pieceLength i)) = C.pieceHash i

/-- The blocks that the check of a piece reads. -/
def Config.checkBlocks (C : Config) (i : ℕ) : List BlockInfo :=
  C.info.findFileOfPieceIndex C.savePath i 0 (C.pieceLength i)

/-- What the files show is what is on the disk. -/
def Shows (f : PieceHash.Files) (disk : Loc → ℕ → Option UInt8) : Prop :=
  ∀ path bytes, f.contents path = some bytes → ∀ n b, bytes[n]? = some b →
    b = byteAt disk (some (path, n))

/-- The check of a piece returns `Ok(ok)`: on files that show the disk, for some way to cut the
reads. -/
def CheckReturns (C : Config) (H : PieceHash.Digest) (capacity : ℕ)
    (disk : Loc → ℕ → Option UInt8) (i : ℕ) (ok : Bool) : Prop :=
  ∃ f reads fuel, Shows f disk ∧
    PieceHash.checkout H capacity reads f (C.checkBlocks i) (C.pieceHash i) fuel = some (.ok ok)

/-- A torrent whose pieces have places on the disk of their own. -/
structure Config.Addressable (C : Config) : Prop where
  wellFormed : C.info.WellFormed
  bounded : C.info.Bounded
  regular : C.info.Regular
  distinct : C.DistinctFiles
  start_lt : ∀ i < C.pieceNum, C.pieceStart i < 2 ^ 64

/-- A decoded torrent whose piece numbers fit is addressable when its files are distinct and its
pieces start inside a `u64`. -/
theorem Config.addressable_of_fromBencode {C : Config} {bytes : Bytes}
    (h : Info.fromBencodeChecked false bytes = .ok (.ok C.info)) (hfit : C.info.NumbersFit)
    (hd : C.DistinctFiles) (hstart : ∀ i < C.pieceNum, C.pieceStart i < 2 ^ 64) :
    C.Addressable := by
  have hdec := fromBencodeChecked_eq h
  have hc := completes_of_fromBencodeChecked h
  refine ⟨wellFormed_of_fromBencode hdec, Info.bounded_of_fromBencode hdec, ?_, hd, hstart⟩
  apply hc.regular
  by_cases hnil : C.info.files = []
  · rw [hnil]
    show divCeil (filesLength []) _ < 2 ^ 32
    simp [filesLength, divCeil]
  · exact hfit hnil

section Places

variable {C : Config} {disk disk' : Loc → ℕ → Option UInt8} {i g n : ℕ} {path : Path}

/-- A place of several files. -/
theorem exists_file_of_locate {D : Path} {info : Info} {files : List File} : ∀ {g : ℕ},
    locate (files.map fun file => (info.filePath D file, file.length)) g = some (path, n) →
      ∃ (k : ℕ) (file : File), files[k]? = some file ∧ path = info.filePath D file ∧
        n < file.length ∧ g = fileStart files k + n := by
  induction files with
  | nil =>
      intro g h
      cases h
  | cons file files ih =>
      intro g h
      rw [List.map_cons, locate] at h
      by_cases hlt : g < file.length
      · rw [if_pos hlt, Option.some.injEq, Prod.mk.injEq] at h
        obtain ⟨rfl, rfl⟩ := h
        exact ⟨0, file, rfl, rfl, hlt, (Nat.zero_add _).symm⟩
      · rw [if_neg hlt] at h
        obtain ⟨k, file', hk, hpath, hn, hg⟩ := ih h
        refine ⟨k + 1, file', hk, hpath, hn, ?_⟩
        rw [fileStart_cons_succ]
        omega

/-- The place of byte `g` of the torrent holds byte `g`. -/
theorem Config.holds_of_locate (h : locate (C.info.segments C.savePath) g = some (path, n)) :
    C.Holds path.normalize n g := by
  by_cases hnil : C.info.files = []
  · rw [C.info.segments_single hnil, locate] at h
    by_cases hlt : g < C.info.length
    · rw [if_pos hlt, Option.some.injEq, Prod.mk.injEq] at h
      obtain ⟨rfl, rfl⟩ := h
      exact Or.inl ⟨hnil, rfl, hlt, rfl⟩
    · rw [if_neg hlt] at h
      cases h
  · rw [C.info.segments_multi hnil] at h
    obtain ⟨k, file, hk, rfl, hn, hg⟩ := exists_file_of_locate h
    exact Or.inr ⟨k, file, hk, rfl, hn, hg⟩

/-- The contents of a range depend on its bytes only. -/
theorem Config.contents_congr {first len : ℕ}
    (h : ∀ l n g, C.Holds l n g → first ≤ g → g < first + len → disk' l n = disk l n) :
    C.contents disk' first len = C.contents disk first len := by
  rw [Config.contents, Config.contents, range, List.map_map, List.map_map]
  apply List.map_congr_left
  intro g hg
  obtain ⟨hlow, hhigh⟩ := List.mem_range'_1.mp hg
  show byteAt disk' (locate _ g) = byteAt disk (locate _ g)
  rcases hplace : locate (C.info.segments C.savePath) g with _ | ⟨path, n⟩
  · rfl
  · show (disk' path.normalize n).getD 0 = (disk path.normalize n).getD 0
    rw [h _ _ _ (Config.holds_of_locate hplace) hlow hhigh]

/-- A piece stays intact while its bytes stay. -/
theorem Intact.congr {H : PieceHash.Digest} (hi : Intact C H disk i)
    (h : ∀ l n g, C.Holds l n g → C.InPiece i g → disk' l n = disk l n) :
    Intact C H disk' i := by
  unfold Intact at hi ⊢
  rw [Config.contents_congr fun l n g hg hlow hhigh => h l n g hg ⟨hlow, hhigh⟩]
  exact hi

/-- **The blocks of a range of a piece are the range**, empty ones included. -/
theorem Config.Addressable.blockPlaces (hC : C.Addressable) (hi : i < C.pieceNum) {offset len : ℕ}
    (hle : offset + len ≤ C.pieceLength i) :
    C.info.blockPlaces C.savePath i offset len =
      range (C.info.segments C.savePath) (C.pieceStart i + offset) len := by
  have hstart : i * C.info.pieceLength < 2 ^ 64 := hC.start_lt i hi
  rcases Nat.eq_zero_or_pos len with rfl | hlen
  · by_cases hnil : C.info.files = []
    · rw [Info.blockPlaces, Info.findFileOfPieceIndex_single hC.wellFormed hnil]
      rfl
    · exact (hC.regular.noOverflow.mapped_empty hC.wellFormed hnil).bytes
  · have haddr : C.info.Addressed i offset len :=
      ⟨fun _ => hstart, fun _ hzero => absurd hzero (by omega)⟩
    by_cases hnil : C.info.files = []
    · exact ((Info.mapped_single_iff hC.wellFormed hC.bounded hnil hle).mpr haddr).bytes
    · exact ((hC.regular.mapped_iff hC.wellFormed hnil hle).mpr haddr).bytes

end Places

/-! ## The check of a piece -/

section Check

variable {C : Config} {H : PieceHash.Digest} {capacity i : ℕ} {disk : Loc → ℕ → Option UInt8}
  {f : PieceHash.Files} {ok : Bool}

/-- A block that is there is read as it is on the disk. -/
theorem requested_eq (hf : Shows f disk) {b : BlockInfo} (hb : PieceHash.Present f b) :
    PieceHash.requested f b = b.part.places.map (byteAt disk) := by
  obtain ⟨bytes, haccess, hlen⟩ := hb
  have hcontents : f.contents b.filepath = some bytes := by
    unfold PieceHash.Files.access at haccess
    split at haccess
    · obtain ⟨bytes', hbytes, hseek⟩ := Option.bind_eq_some_iff.mp haccess
      rw [(Transition.of_ite_eq_some hseek).2] at hbytes
      exact hbytes
    · cases haccess
  rw [PieceHash.requested, haccess, Option.getD_some]
  apply List.ext_getElem?
  intro n
  by_cases hn : n < b.len
  · have hlt : b.start + n < bytes.length := by
      have := hlen (by omega)
      omega
    have hbyte := hf _ _ hcontents (b.start + n) bytes[b.start + n] (List.getElem?_eq_getElem hlt)
    rw [List.getElem?_take_of_lt hn, List.getElem?_drop, List.getElem?_eq_getElem hlt, hbyte]
    simp [Part.places, BlockInfo.part, hn]
  · rw [List.getElem?_eq_none (by rw [List.length_take]; omega)]
    symm
    apply List.getElem?_eq_none
    simp [Part.places, BlockInfo.part]
    omega

/-- Blocks that are there are read as they are on the disk. -/
theorem flatMap_requested (hf : Shows f disk) {src : List BlockInfo}
    (hsrc : ∀ b ∈ src, PieceHash.Present f b) :
    src.flatMap (PieceHash.requested f) = (places (src.map BlockInfo.part)).map (byteAt disk) := by
  induction src with
  | nil => rfl
  | cons b src ih =>
      obtain ⟨hb, hsrc⟩ := List.forall_mem_cons.mp hsrc
      rw [List.flatMap_cons, List.map_cons, places_cons, List.map_append, requested_eq hf hb,
        ih hsrc]

/-- **A check says whether the piece is intact.** -/
theorem eq_of_checkReturns (hC : C.Addressable) (hi : i < C.pieceNum) (hcap : 0 < capacity)
    (h : CheckReturns C H capacity disk i ok) : ok = true ↔ Intact C H disk i := by
  obtain ⟨f, reads, fuel, hf, hrun⟩ := h
  obtain ⟨hsrc, rfl⟩ := PieceHash.of_checkout hcap hrun
  have hplaces := hC.blockPlaces hi (Nat.zero_add (C.pieceLength i)).le
  have hbytes : (C.checkBlocks i).flatMap (PieceHash.requested f) =
      C.contents disk (C.pieceStart i) (C.pieceLength i) := by
    rw [flatMap_requested hf hsrc, Config.contents]
    exact congrArg (List.map (byteAt disk)) hplaces
  rw [decide_eq_true_eq, hbytes]
  rfl

end Check

/-! ## The history of a piece -/

/-- What is known about a piece. -/
inductive Mark where
  | unchecked
  /-- Its last check succeeded, and no block of it was written since. -/
  | checked
  /-- A block of it was written after a check that succeeded. -/
  | rewritten
  deriving DecidableEq

/-- The piece whose bytes a step of a task changes. -/
def storesTo (t : Task) : Effect → Option ℕ
  | .store _ _ _ => writes t
  | _ => none

/-- The history notes the checks that succeed and the blocks that are written. -/
def marked : Recorder (ℕ → Mark) where
  onRun _ t e ts marks i :=
    if checkoutOk t ts = some i then .checked
    else if storesTo t e = some i ∧ marks i = .checked then .rewritten
    else marks i
  onRestart _ marks := marks

/-- The pieces whose check has succeeded. -/
def passedOf (marks : ℕ → Mark) (i : ℕ) : Bool := decide (marks i ≠ .unchecked)

/-- Every block that `write_file` begins with fits, and a check that succeeds has read the disk. -/
def IntactGuard (C : Config) (H : PieceHash.Digest) (capacity : ℕ) (s : State) (a : Act) : Prop :=
  FitGuard C s a ∧
    ∀ k p i, a = .run k (.flag true) → s.tasks[k]? = some ⟨p, .verify i⟩ → i < C.pieceNum →
      CheckReturns C H capacity s.disk i true

section History

variable {C : Config} {H : PieceHash.Digest} {capacity : ℕ} {s s' : State} {a : Act} {t : Task}
  {e : Effect} {ts : List Task} {marks marks' : ℕ → Mark} {i : ℕ}

/-- A piece that is checked was checked just now, or before and is not written to. -/
theorem checked_of_onRun (h : marked.onRun s t e ts marks i = .checked) :
    checkoutOk t ts = some i ∨ (marks i = .checked ∧ storesTo t e ≠ some i) := by
  by_cases hok : checkoutOk t ts = some i
  · exact Or.inl hok
  · right
    simp only [marked, if_neg hok] at h
    by_cases hw : storesTo t e = some i ∧ marks i = .checked
    · rw [if_pos hw] at h
      cases h
    · rw [if_neg hw] at h
      exact ⟨h, fun hstores => hw ⟨hstores, h⟩⟩

/-- The marks say which checks have succeeded. -/
theorem passedOf_onRun (marks : ℕ → Mark) :
    passedOf (marked.onRun s t e ts marks) = verified.onRun s t e ts (passedOf marks) := by
  funext i
  rw [Bool.eq_iff_iff]
  simp only [passedOf, verified, Bool.or_eq_true, decide_eq_true_eq]
  show (if checkoutOk t ts = some i then Mark.checked
    else if storesTo t e = some i ∧ marks i = .checked then .rewritten else marks i) ≠ .unchecked ↔ _
  by_cases hok : checkoutOk t ts = some i
  · rw [if_pos hok]
    exact iff_of_true Mark.noConfusion (Or.inr hok)
  · rw [if_neg hok, or_iff_left hok]
    by_cases hw : storesTo t e = some i ∧ marks i = .checked
    · rw [if_pos hw, hw.2]
      exact iff_of_true Mark.noConfusion Mark.noConfusion
    · rw [if_neg hw]

theorem passedOf_record (a : Act) (marks : ℕ → Mark) :
    passedOf (marked.record C s a marks) = verified.record C s a (passedOf marks) := by
  cases a with
  | run k c =>
      rcases ht : s.tasks[k]? with _ | t
      · simp only [Recorder.record, ht]
      · rcases hc : taskStep C s t.peer t.pc c with _ | ⟨e, ts⟩
        · simp only [Recorder.record, ht, hc]
        · rw [Recorder.record_run _ ht hc, Recorder.record_run _ ht hc, passedOf_onRun]
  | _ => rfl

/-- A step whose check succeeds is the return of the check. -/
theorem verify_of_checkoutOk {p : ℕ} {pc : Pc} {c : Choice}
    (hc : taskStep C s p pc c = some (e, ts)) (hok : checkoutOk ⟨p, pc⟩ ts = some i) :
    pc = .verify i ∧ c = .flag true ∧ i < C.pieceNum ∧ e = .nop := by
  unfold checkoutOk at hok
  split at hok
  · next j q k hpc =>
      obtain rfl : j = i := Option.some.inj hok
      obtain rfl : pc = .verify j := hpc
      match c with
      | .flag ok =>
          unfold taskStep at hc
          dsimp only at hc
          by_cases hj : C.pieceNum ≤ j
          · rw [if_pos hj] at hc
            cases hc
          · rw [if_neg hj, Option.some.injEq, Prod.mk.injEq] at hc
            obtain ⟨rfl, hts⟩ := hc
            match ok with
            | true => exact ⟨rfl, rfl, Nat.not_le.mp hj, rfl⟩
            | false => cases hts
      | .go | .entry _ | .order _ | .io _ => cases hc
  · cases hok

/-- **One action leaves the checked pieces intact.** -/
theorem intact_step (hC : C.Addressable) (hcap : 0 < capacity)
    (hT : ∀ t ∈ s.tasks, WriteTask C t)
    (hI : ∀ i < C.pieceNum, marks i = .checked → Intact C H s.disk i)
    (hg : IntactGuard C H capacity s a) (hstep : marked.step C (s, marks) a = some (s', marks')) :
    ∀ i < C.pieceNum, marks' i = .checked → Intact C H s'.disk i := by
  intro i hi hmark
  obtain ⟨hs, hh⟩ := Transition.observe_eq_some.mp hstep
  simp only at hs hh
  subst hh
  -- a piece that no block is written to stays as it is
  have hkeeps : s.writing a ≠ some i → Intact C H s.disk i → Intact C H s'.disk i := by
    intro hw hin
    apply hin.congr
    intro l n g hg hpiece
    by_contra hne
    obtain ⟨j, g', hj, hg', hpiece'⟩ := confined_step hT hs hne
    obtain rfl : g' = g := Config.Holds.unique hC.distinct hg' hg
    rw [hpiece'.unique hpiece] at hj
    exact hw hj
  match a with
  | .run k c =>
      obtain ⟨t, e, ts, ht, hc, rfl⟩ := step_run hs
      rw [Recorder.record_run _ ht hc] at hmark
      rcases checked_of_onRun hmark with hok | ⟨hchecked, hstores⟩
      · -- the check has just returned
        obtain ⟨p, pc⟩ := t
        obtain ⟨rfl, rfl, -, rfl⟩ := verify_of_checkoutOk hc hok
        exact (eq_of_checkReturns hC hi hcap (hg.2 k p i rfl ht hi)).mp rfl
      · rcases disk_next (next_of_taskStep hc) with hsame | hwrite
        · show Intact C H (e.exec C s).disk i
          rw [hsame]
          exact hI i hi hchecked
        · obtain ⟨m, _, _, _, _, _, _, _, hpc, rfl, -⟩ := hwrite
          apply hkeeps ?_ (hI i hi hchecked)
          intro hw
          apply hstores
          obtain ⟨p, pc⟩ := t
          obtain rfl : pc = _ := hpc
          simp only [State.writing, State.running, ht] at hw
          exact hw
  | .restart =>
      exact hkeeps (fun h => by cases h) (hI i hi hmark)
  | .connect | .choke _ | .unChoke _ | .have _ _ | .bitfield _ _ | .piece _ _ | .abort _
  | .peerExit _ | .saveProgress => exact hkeeps (fun h => by cases h) (hI i hi hmark)

end History

/-! ## Runs -/

section Runs

variable {C : Config} {H : PieceHash.Digest} {capacity : ℕ}

/-- A run with marks is a run with the checks that have succeeded. -/
theorem run_passedOf {s₀ : State} {marks₀ : ℕ → Mark} {G : State × (ℕ → Mark) → Act → Prop}
    {as : List Act} {x : State × (ℕ → Mark)}
    (h : Transition.Run (marked.step C) G (s₀, marks₀) as x) :
    Transition.FreeRun (verified.step C) (s₀, passedOf marks₀) as (x.1, passedOf x.2) := by
  refine Transition.Run.map (fun x => (x.1, passedOf x.2)) ?_ h
  intro x a x' _ hstep
  obtain ⟨hs, hh⟩ := Transition.observe_eq_some.mp hstep
  refine ⟨trivial, Transition.observe_eq_some.mpr ⟨hs, ?_⟩⟩
  rw [hh]
  exact passedOf_record a x.2

theorem intact_run (hC : C.Addressable) (hcap : 0 < capacity) {s₀ : State} (htasks : s₀.tasks = [])
    {marks₀ : ℕ → Mark}
    (hdisk : ∀ i < C.pieceNum, marks₀ i = .checked → Intact C H s₀.disk i) {as : List Act}
    {x : State × (ℕ → Mark)}
    (hrun : Transition.Run (marked.step C) (fun x a => IntactGuard C H capacity x.1 a)
      (s₀, marks₀) as x) :
    ∀ i < C.pieceNum, x.2 i = .checked → Intact C H x.1.disk i := by
  suffices hinv : (∀ t ∈ x.1.tasks, WriteTask C t) ∧
      ∀ i < C.pieceNum, x.2 i = .checked → Intact C H x.1.disk i from hinv.2
  refine hrun.invariant (I := fun x => (∀ t ∈ x.1.tasks, WriteTask C t) ∧
    ∀ i < C.pieceNum, x.2 i = .checked → Intact C H x.1.disk i) ⟨?_, hdisk⟩ ?_
  · intro t ht
    rw [htasks] at ht
    cases ht
  · rintro ⟨s, marks⟩ a ⟨s', marks'⟩ ⟨hT, hI⟩ hg hstep
    have hs : step C s a = some s' := (Transition.observe_eq_some.mp hstep).1
    exact ⟨WriteTask.step hC.wellFormed hC.regular.noOverflow hT hg.1 hs,
      intact_step hC hcap hT hI hg hstep⟩

/-- A digest that knows the hash of one string. -/
def digestOf (bytes hash : Bytes) : PieceHash.Digest where
  State := List Bytes
  new := []
  update chunks chunk := chunk :: chunks
  finalize chunks := if chunks.reverse.flatten = bytes then hash else []
  hash all := if all = bytes then hash else []
  finalize_foldl chunks := by
    rw [List.foldl_flip_cons_eq_append', List.append_nil, List.reverse_reverse]

/-- The file of `onePiece`. -/
def onePieceFile : Path := onePiece.savePath.join (.ofString "f")

theorem onePiece_addressable : onePiece.Addressable where
  wellFormed := ⟨rfl, rfl, fun h => absurd rfl h⟩
  bounded := ⟨by decide, by decide⟩
  regular := ⟨fun h => absurd rfl h, by decide, by decide, fun file h => by cases h⟩
  distinct := by
    intro k k' file file' hk
    cases hk
  start_lt := by decide

/-- Up to the check nothing but the blocks has to be looked at. -/
def beforeCheck (s : State) (a : Act) : Prop :=
  FitGuard onePiece s a ∧ (s.running a).map Task.pc ≠ some (.verify 0)

instance (s : State) (a : Act) : Decidable (beforeCheck s a) := by
  unfold beforeCheck
  infer_instance

/-- The bytes of the only block. -/
def onePieceBytes : Bytes := [1, 2, 3, 4]

/-- The disk when the check begins, as the files show it. -/
def onePieceShown : PieceHash.Files where
  flush _ := true
  contents path := if path = onePieceFile then some onePieceBytes else none

/-- The digest of the torrent. -/
def onePieceDigest : PieceHash.Digest := digestOf onePieceBytes (onePiece.pieceHash 0)

theorem onePieceShown_shows {disk : Loc → ℕ → Option UInt8}
    (h : (List.range 4).map (disk onePieceFile.normalize) = onePieceBytes.map some) :
    Shows onePieceShown disk := by
  intro path bytes hcontents n b hb
  simp only [onePieceShown, Option.ite_none_right_eq_some, Option.some.injEq] at hcontents
  obtain ⟨rfl, rfl⟩ := hcontents
  have hn : n < 4 := (List.getElem?_eq_some_iff.mp hb).1
  have hbyte := congrArg (·[n]?) h
  simp only [List.getElem?_map, List.getElem?_range hn, Option.map_some, hb] at hbyte
  show b = (disk onePieceFile.normalize n).getD 0
  rw [Option.some.inj hbyte, Option.getD_some]

end Runs

end Swarm
