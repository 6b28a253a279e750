/-
# The arithmetic of torrent decoding

`Info::decode_bencode_object`, `Info::new` and `Info::calculate_file_piece` with every integer
operation checked: where a debug build of the code panics, the checked functions stop with a
`Fault`.

* `Info.fromBencodeChecked exact` is the checked decoder; with `exact` it also stops where a
  piece number loses bits in the cast to `u32`;
* where it does not stop it agrees with the decoder of `Dorodoro.Torrent`
  (`fromBencodeChecked_eq`);
* `FileFits` says of a file that its turn of the loop does not fault
  (`calculateFilePieceChecked_eq_ok`), and `ArithmeticSafe` says it of all files of a list
  (`forall_fileFits_iff`);
* `decodes_iff`: the decoder faults on exactly the dictionaries whose list of files is not
  `ArithmeticSafe`.
-/
import Dorodoro.Checked
import Dorodoro.FileLayout

open Bendy Checked

/-! ## The checked loop -/

/-- `a as u32 - 1`; with `exact` the cast must not drop bits. -/
def predU32 (exact : Bool) (a : ℕ) : Except Fault ℕ :=
  (if exact then narrow 32 a else .ok (u32 a)).bind (sub · 1)

/-- `(prev + bit) as u64`, where the addition is one of `i64`. -/
def nextStart (prev bit : ℕ) : Except Fault ℕ :=
  if prev = 2 ^ 63 - 1 ∧ bit = 1 then .error .overflow else .ok (u64 (prev + bit))

/-- `sum.div_ceil(piece_length)`. -/
def divCeilChecked (a b : ℕ) : Except Fault ℕ :=
  if b = 0 then .error .divisionByZero else .ok (divCeil a b)

/-- One turn of the loop of `Info::calculate_file_piece`: the file with its prefix sum and its
pieces, the sum so far and the end of the file. -/
def filePieceChecked (exact : Bool) (pieceLength sum prev : ℕ) (file : File) :
    Except Fault ((File × (ℕ × ℕ)) × ℕ × ℕ) :=
  (rem sum pieceLength).bind fun r =>
  (nextStart prev (if r = 0 then 1 else 0)).bind fun start =>
  (add 64 sum file.length).bind fun sum' =>
  (divCeilChecked sum' pieceLength).bind fun last =>
  (predU32 exact start).bind fun low =>
  (predU32 exact last).map fun high =>
    (({ file with lengthPrefixSum := sum' }, (low, high)), sum', last)

/-- The loop of `Info::calculate_file_piece`. -/
def calculateFilePieceChecked (exact : Bool) (pieceLength : ℕ) :
    ℕ → ℕ → List File → Except Fault (List (File × (ℕ × ℕ)))
  | _, _, [] => .ok []
  | sum, prev, file :: files =>
      (filePieceChecked exact pieceLength sum prev file).bind fun (entry, sum', last) =>
        (calculateFilePieceChecked exact pieceLength sum' last files).map (entry :: ·)

/-- `Info::new`. -/
def Info.newChecked (exact : Bool) (name : String) (length pieceLength : ℕ) (pieces : Bytes)
    (files : List File) (md5sum : Option String) (isPrivate : Option ℕ) : Except Fault Info :=
  (calculateFilePieceChecked exact pieceLength 0 0 files).map fun entries =>
    ⟨length, pieceLength, pieces, name, entries.unzip.1, md5sum, isPrivate, entries.unzip.2⟩

/-! ## The checked decoder -/

/-- The fields that the loop of `Info::decode_bencode_object` collects. -/
def Info.fields (bytes : Bytes) : Except Error InfoFields :=
  Bendy.fromBencode (dictLoop infoEntry ⟨none, none, none, none, none, none, none⟩) false
    expectedRecursionDepth bytes

/-- The fields without which there is no `Info`. -/
def InfoFields.mandatory (s : InfoFields) : Except Error (String × ℕ × Bytes) := do
  let name ← required "name" s.name
  let pieceLength ← required "piece length" s.pieceLength
  let pieces ← required "pieces" s.pieces
  return (name, pieceLength, pieces)

/-- `Info::decode_bencode_object` behind its loop. -/
def Info.ofFields (exact : Bool) (s : InfoFields) : Except Fault (Except Error Info) :=
  match s.mandatory with
  | .error e => .ok (.error e)
  | .ok (name, pieceLength, pieces) =>
      match s.files with
      | some files =>
          (sum 64 (files.map File.length)).bind fun length =>
            (Info.newChecked exact name length pieceLength pieces files s.md5sum s.isPrivate).map
              .ok
      | none =>
          match required "length" s.length with
          | .error e => .ok (.error e)
          | .ok length =>
              (Info.newChecked exact name length pieceLength pieces [] s.md5sum s.isPrivate).map
                .ok

/-- `Info::from_bencode`. -/
def Info.fromBencodeChecked (exact : Bool) (bytes : Bytes) : Except Fault (Except Error Info) :=
  match Info.fields bytes with
  | .error e => .ok (.error e)
  | .ok s => Info.ofFields exact s

/-! ## Agreement with the unchecked decoder -/

section Agreement

variable {exact : Bool} {pieceLength : ℕ}

/-- A cast that is followed by `- 1` gives a result. -/
def Castable (exact : Bool) (a : ℕ) : Prop := (exact = true → a < 2 ^ 32) ∧ 0 < u32 a

theorem predU32_eq_ok {a c : ℕ} : predU32 exact a = .ok c ↔ Castable exact a ∧ u32Pred a = c := by
  have hlt : u32 a < 2 ^ 32 := Nat.mod_lt _ (by decide)
  have hpred : 0 < u32 a → u32Pred a = u32 a - 1 := by
    intro hpos
    unfold u32Pred
    generalize u32 a = n at hlt hpos ⊢
    unfold u32
    omega
  unfold predU32 Castable
  cases exact with
  | false =>
      simp only [Bool.false_eq_true, if_false, bind_eq_ok, Except.ok.injEq, sub_eq_ok,
        false_implies, true_and, exists_eq_left']
      constructor
      · rintro ⟨hpos, rfl⟩
        exact ⟨hpos, hpred hpos⟩
      · rintro ⟨hpos, rfl⟩
        exact ⟨hpos, (hpred hpos).symm⟩
  | true =>
      simp only [if_true, bind_eq_ok, narrow_eq_ok, sub_eq_ok, true_implies]
      constructor
      · rintro ⟨y, ⟨hy, rfl⟩, hpos, rfl⟩
        have hu : u32 a = a := Nat.mod_eq_of_lt hy
        rw [hu] at hpred ⊢
        exact ⟨⟨hy, hpos⟩, hpred hpos⟩
      · rintro ⟨⟨hy, hpos⟩, rfl⟩
        have hu : u32 a = a := Nat.mod_eq_of_lt hy
        rw [hu] at hpos
        rw [hu] at hpred
        exact ⟨a, ⟨hy, rfl⟩, hpos, (hpred hpos).symm⟩

theorem nextStart_eq_ok {prev bit c : ℕ} :
    nextStart prev bit = .ok c ↔ ¬ (prev = 2 ^ 63 - 1 ∧ bit = 1) ∧ u64 (prev + bit) = c := by
  rw [nextStart, ← ite_not]
  exact ite_eq_ok

theorem divCeilChecked_eq_ok {a b c : ℕ} :
    divCeilChecked a b = .ok c ↔ b ≠ 0 ∧ divCeil a b = c := by
  rw [divCeilChecked, ← ite_not]
  exact ite_eq_ok

/-- The cast to `u32` forgets that the number was reduced to `u64` before. -/
theorem castable_u64 {a : ℕ} (ha : a ≤ 2 ^ 64) : Castable exact (u64 a) ↔ Castable exact a := by
  rcases ha.lt_or_eq with hlt | rfl
  · rw [u64_eq hlt]
  · have hzero : ∀ n, u32 n = 0 → ¬ Castable exact n := fun n hn hc => by
      have := hc.2
      omega
    exact iff_of_false (hzero _ rfl) (hzero _ rfl)

/-- `FileFits exact pieceLength base length`: the turn of the loop for a file of `length` bytes
that starts at `base` does not fault. -/
structure FileFits (exact : Bool) (pieceLength base length : ℕ) : Prop where
  sum_lt : base + length < 2 ^ 64
  start : Castable exact (base / pieceLength + 1)
  last : Castable exact (divCeil (base + length) pieceLength)

/-- **One turn of the loop** faults, or does what the unchecked one does. -/
theorem filePieceChecked_eq_ok {sum prev : ℕ} {file : File} {r : (File × (ℕ × ℕ)) × ℕ × ℕ}
    (hpl : 0 < pieceLength) (hsum : sum < 2 ^ 64) (hprev : prev = divCeil sum pieceLength) :
    filePieceChecked exact pieceLength sum prev file = .ok r ↔
      FileFits exact pieceLength sum file.length ∧
        (({ file with lengthPrefixSum := sum + file.length },
          (u32Pred (u64 (prev + if sum % pieceLength = 0 then 1 else 0)),
            u32Pred (divCeil (sum + file.length) pieceLength))), sum + file.length,
          divCeil (sum + file.length) pieceLength) = r := by
  have hstart : (prev + if sum % pieceLength = 0 then 1 else 0) = sum / pieceLength + 1 := by
    rw [hprev, divCeil_add_one_of_dvd]
  have hle : sum / pieceLength + 1 ≤ 2 ^ 64 := by
    have := Nat.div_le_self sum pieceLength
    omega
  simp only [filePieceChecked, bind_eq_ok, map_eq_ok, rem_eq_ok, nextStart_eq_ok, add_eq_ok,
    divCeilChecked_eq_ok, predU32_eq_ok, hstart]
  constructor
  · rintro ⟨-, ⟨-, rfl⟩, start, ⟨-, rfl⟩, -, ⟨hlt, rfl⟩, -, ⟨-, rfl⟩, -, ⟨hs, rfl⟩, -, ⟨hl, rfl⟩, rfl⟩
    rw [hstart] at hs ⊢
    exact ⟨⟨hlt, (castable_u64 hle).mp hs, hl⟩, rfl⟩
  · rintro ⟨⟨hlt, hs, hl⟩, rfl⟩
    refine ⟨_, ⟨by omega, rfl⟩, _, ⟨?_, rfl⟩, _, ⟨hlt, rfl⟩, _, ⟨by omega, rfl⟩, _, ⟨?_, rfl⟩, _,
      ⟨hl, rfl⟩, ?_⟩
    · -- the start that the addition of `i64` refuses cannot be cast either
      rintro ⟨hmax, hbit⟩
      rw [hmax, hbit] at hstart
      rw [← hstart] at hs
      exact absurd hs.2 (by decide)
    · rw [hstart]
      exact (castable_u64 hle).mpr hs
    · rw [hstart]

/-- **The checked loop** faults, or does what the unchecked one does. -/
theorem calculateFilePieceChecked_eq_ok (hpl : 0 < pieceLength) {files : List File} :
    ∀ {sum : ℕ} {entries : List (File × (ℕ × ℕ))}, sum < 2 ^ 64 →
      (calculateFilePieceChecked exact pieceLength sum (divCeil sum pieceLength) files =
          .ok entries ↔
        (∀ (k : ℕ) (file : File), files[k]? = some file →
          FileFits exact pieceLength (sum + fileStart files k) file.length) ∧
        calculateFilePieceLoop pieceLength sum (divCeil sum pieceLength) files = entries) := by
  induction files with
  | nil =>
      intro sum entries _
      simp [calculateFilePieceChecked, calculateFilePieceLoop]
  | cons f files ih =>
      intro sum entries hsum
      rw [calculateFilePieceChecked, bind_eq_ok]
      simp only [filePieceChecked_eq_ok hpl hsum rfl, map_eq_ok]
      constructor
      · rintro ⟨_, ⟨hf, rfl⟩, rest, hrest, rfl⟩
        obtain ⟨hfits, rfl⟩ := (ih hf.sum_lt).mp hrest
        refine ⟨fun k file hk => ?_, ?_⟩
        · cases k with
          | zero =>
              obtain rfl : f = file := by simpa using hk
              simpa using hf
          | succ k =>
              rw [fileStart_cons_succ, ← Nat.add_assoc]
              exact hfits k file hk
        · rw [calculateFilePieceLoop, u64_eq hf.sum_lt]
      · rintro ⟨hfits, rfl⟩
        have hf : FileFits exact pieceLength sum f.length := hfits 0 f rfl
        refine ⟨_, ⟨hf, rfl⟩, _, (ih hf.sum_lt).mpr ⟨fun k file hk => ?_, rfl⟩, ?_⟩
        · rw [Nat.add_assoc, ← fileStart_cons_succ]
          exact hfits (k + 1) file hk
        · rw [calculateFilePieceLoop, u64_eq hf.sum_lt]

/-- The loop from the first file on. -/
theorem calculateFilePieceChecked_zero (hpl : 0 < pieceLength) {files : List File}
    {entries : List (File × (ℕ × ℕ))} :
    calculateFilePieceChecked exact pieceLength 0 0 files = .ok entries ↔
      (∀ (k : ℕ) (file : File), files[k]? = some file →
        FileFits exact pieceLength (fileStart files k) file.length) ∧
      calculateFilePieceLoop pieceLength 0 0 files = entries := by
  have hloop : calculateFilePieceChecked exact pieceLength 0 (divCeil 0 pieceLength) files =
      .ok entries ↔ _ := calculateFilePieceChecked_eq_ok hpl (Nat.two_pow_pos 64)
  simpa only [show divCeil 0 pieceLength = 0 by simp [divCeil], Nat.zero_add] using hloop

/-- `Info::new` without faults. -/
theorem newChecked_eq_ok {name : String} {length : ℕ} {pieces : Bytes} {files : List File}
    {md5sum : Option String} {isPrivate : Option ℕ} {info : Info}
    (h : Info.newChecked exact name length pieceLength pieces files md5sum isPrivate = .ok info) :
    Info.new name length pieceLength pieces files md5sum isPrivate = .ok info := by
  obtain ⟨entries, hentries, rfl⟩ := map_eq_ok.mp h
  rw [Info.new, calculateFilePiece]
  rcases Nat.eq_zero_or_pos pieceLength with rfl | hpl
  · cases files with
    | nil =>
        obtain rfl := Except.ok.inj hentries
        rfl
    | cons f files =>
        obtain ⟨_, hfault, -⟩ := bind_eq_ok.mp hentries
        cases hfault
  · rw [if_neg (by omega), ((calculateFilePieceChecked_zero hpl).mp hentries).2]

/-- `Info::decode_bencode_object` behind its loop, unchecked. -/
def InfoFields.build (s : InfoFields) : Except Error Info := do
  let (name, pieceLength, pieces) ← s.mandatory
  let length ← resourceLength s.files s.length
  Info.new name length pieceLength pieces (s.files.getD []) s.md5sum s.isPrivate

/-- The decoder of an object is its loop and what comes behind it. -/
theorem decodeInfo_eq (o : Object) (d : Decoder) :
    decodeInfo o d =
      (dictLoop infoEntry ⟨none, none, none, none, none, none, none⟩ o d).bind fun (s, d') =>
        s.build.map (·, d') := by
  unfold decodeInfo
  show Except.bind _ _ = Except.bind _ _
  congr 1
  funext ⟨s, d'⟩
  show _ = (fun info => (info, d')) <$> s.build
  simp only [InfoFields.build, InfoFields.mandatory, map_eq_pure_bind, bind_assoc, pure_bind]

theorem fromBencode_eq_bind (bytes : Bytes) :
    Info.fromBencode bytes = (Info.fields bytes).bind InfoFields.build := by
  unfold Info.fromBencode Info.fields Bendy.fromBencode
  cases (Decoder.new bytes false expectedRecursionDepth).nextObject with
  | error e => rfl
  | ok r =>
      obtain ⟨o, d⟩ := r
      cases o with
      | none => rfl
      | some o =>
          simp only [decodeInfo_eq]
          cases dictLoop infoEntry ⟨none, none, none, none, none, none, none⟩ o d with
          | error e => rfl
          | ok r =>
              obtain ⟨s, d'⟩ := r
              show (s.build.map (·, d')).map Prod.fst = s.build
              cases s.build with
              | error e => rfl
              | ok info => rfl

theorem ofFields_eq_ok {s : InfoFields} {r : Except Error Info}
    (h : Info.ofFields exact s = .ok r) : s.build = r := by
  have hnew : ∀ {name pieceLength pieces length files},
      (Info.newChecked exact name length pieceLength pieces files s.md5sum s.isPrivate).map
        Except.ok = .ok r →
      Info.new name length pieceLength pieces files s.md5sum s.isPrivate = r := by
    intro name pieceLength pieces length files h
    obtain ⟨info, hinfo, rfl⟩ := map_eq_ok.mp h
    exact newChecked_eq_ok hinfo
  unfold Info.ofFields at h
  unfold InfoFields.build
  cases hm : s.mandatory with
  | error e =>
      rw [hm] at h
      exact Except.ok.inj h
  | ok m =>
      obtain ⟨name, pieceLength, pieces⟩ := m
      rw [hm] at h
      simp only at h
      cases hfiles : s.files with
      | none =>
          rw [hfiles] at h
          simp only at h
          show (required "length" s.length).bind _ = r
          cases hlen : required "length" s.length with
          | error e =>
              rw [hlen] at h
              exact Except.ok.inj h
          | ok length =>
              rw [hlen] at h
              exact hnew h
      | some files =>
          rw [hfiles] at h
          obtain ⟨length, hsum, h⟩ := bind_eq_ok.mp h
          obtain ⟨hlt, rfl⟩ := sum_eq_ok.mp hsum
          show Info.new name (u64 (filesLength files)) pieceLength pieces files s.md5sum
            s.isPrivate = r
          rw [u64_eq (show filesLength files < 2 ^ 64 from hlt)]
          exact hnew h

/-- **Without a fault the checked decoder is the decoder.** -/
theorem fromBencodeChecked_eq {bytes : Bytes} {r : Except Error Info}
    (h : Info.fromBencodeChecked exact bytes = .ok r) : Info.fromBencode bytes = r := by
  rw [fromBencode_eq_bind]
  unfold Info.fromBencodeChecked at h
  cases hs : Info.fields bytes with
  | error e =>
      rw [hs] at h
      exact Except.ok.inj h
  | ok s =>
      rw [hs] at h
      exact ofFields_eq_ok h

end Agreement

/-! ## The integers of a dictionary -/

/-- The integers of the dictionary are `u64`s. -/
structure Info.Bounded (info : Info) : Prop where
  length_lt : info.length < 2 ^ 64
  pieceLength_lt : info.pieceLength < 2 ^ 64

/-- The collected integers are `u64`s. -/
def InfoFields.Bounded (s : InfoFields) : Prop :=
  (∀ n, s.length = some n → n < 2 ^ 64) ∧ ∀ n, s.pieceLength = some n → n < 2 ^ 64

theorem decodeUnsigned_lt {bits n : ℕ} {o : Object} {d d' : Decoder}
    (h : decodeUnsigned bits o d = .ok (n, d')) : n < 2 ^ bits := by
  cases o with
  | integer s =>
      simp only [decodeUnsigned, parseUnsigned] at h
      split at h
      · next m hm =>
          obtain ⟨rfl, rfl⟩ := Prod.mk.inj (Except.ok.inj h)
          split_ifs at hm with _ hlt
          exact Option.some.inj hm ▸ hlt
      · cases h
  | list start => cases h
  | dict start => cases h
  | bytes s => cases h

/-- A field is set to a decoded value. -/
theorem field_eq_ok {σ T : Type} {name : String} {decode : Decode T} {set : T → σ} {o : Object}
    {d d' : Decoder} {s : σ} (h : field name decode set o d = .ok (s, d')) :
    ∃ a, decode o d = .ok (a, d') ∧ set a = s := by
  obtain ⟨⟨a, d₁⟩, hctx, he⟩ := Checked.map_eq_ok.mp h
  obtain ⟨rfl, rfl⟩ := Prod.mk.inj he
  exact ⟨a, context_eq_ok hctx, rfl⟩

/-- One entry keeps the integers bounded. -/
theorem InfoFields.Bounded.entry {s s' : InfoFields} {k : Bytes} {o : Object} {d d' : Decoder}
    (hs : s.Bounded) (h : infoEntry s k o d = .ok (s', d')) : s'.Bounded := by
  unfold infoEntry at h
  split_ifs at h
  · obtain ⟨a, -, rfl⟩ := field_eq_ok h
    exact hs
  · obtain ⟨a, ha, rfl⟩ := field_eq_ok h
    refine ⟨fun n hn => ?_, hs.2⟩
    exact Option.some.inj hn ▸ decodeUnsigned_lt ha
  · obtain ⟨a, ha, rfl⟩ := field_eq_ok h
    refine ⟨hs.1, fun n hn => ?_⟩
    exact Option.some.inj hn ▸ decodeUnsigned_lt ha
  · obtain ⟨⟨a, d₁⟩, -, he⟩ := Checked.map_eq_ok.mp h
    obtain ⟨rfl, rfl⟩ := Prod.mk.inj he
    exact hs
  · obtain ⟨a, -, rfl⟩ := field_eq_ok h
    exact hs
  · obtain ⟨a, -, rfl⟩ := field_eq_ok h
    exact hs
  · obtain ⟨a, -, rfl⟩ := field_eq_ok h
    exact hs
  · obtain ⟨d₁, -, he⟩ := Checked.map_eq_ok.mp h
    obtain ⟨rfl, rfl⟩ := Prod.mk.inj he
    exact hs

theorem InfoFields.bounded_of_fields {bytes : Bytes} {s : InfoFields}
    (h : Info.fields bytes = .ok s) : s.Bounded := by
  unfold Info.fields Bendy.fromBencode at h
  split at h
  · cases h
  · cases h
  · obtain ⟨⟨s', d'⟩, hloop, rfl⟩ := Checked.map_eq_ok.mp h
    refine dictLoop_invariant (I := InfoFields.Bounded) (fun hs h => hs.entry h) ⟨?_, ?_⟩ hloop
    · intro n hn
      cases hn
    · intro n hn
      cases hn

/-- What an `Info` is built from. -/
theorem InfoFields.exists_of_build {s : InfoFields} {info : Info} (h : s.build = .ok info) :
    ∃ name pieceLength pieces length, s.mandatory = .ok (name, pieceLength, pieces) ∧
      resourceLength s.files s.length = .ok length ∧
      Info.new name length pieceLength pieces (s.files.getD []) s.md5sum s.isPrivate = .ok info := by
  obtain ⟨⟨name, pieceLength, pieces⟩, hm, h⟩ := Checked.bind_eq_ok.mp h
  obtain ⟨length, hlen, hnew⟩ := Checked.bind_eq_ok.mp h
  exact ⟨name, pieceLength, pieces, length, hm, hlen, hnew⟩

theorem InfoFields.mandatory_eq_ok {s : InfoFields} {name : String} {pieceLength : ℕ}
    {pieces : Bytes} (h : s.mandatory = .ok (name, pieceLength, pieces)) :
    s.name = some name ∧ s.pieceLength = some pieceLength ∧ s.pieces = some pieces := by
  have hreq : ∀ {α : Type} {field : String} {o : Option α} {a : α},
      required field o = .ok a → o = some a := by
    intro α field o a hr
    cases o with
    | none => cases hr
    | some b => rw [Except.ok.inj hr]
  obtain ⟨_, hname, h⟩ := Checked.bind_eq_ok.mp h
  obtain ⟨_, hpl, h⟩ := Checked.bind_eq_ok.mp h
  obtain ⟨_, hpieces, h⟩ := Checked.bind_eq_ok.mp h
  obtain ⟨rfl, hrest⟩ := Prod.mk.inj (Except.ok.inj h)
  obtain ⟨rfl, rfl⟩ := Prod.mk.inj hrest
  exact ⟨hreq hname, hreq hpl, hreq hpieces⟩

/-- `Info::new` keeps the lengths it is given. -/
theorem Info.new_eq_ok {name : String} {length pieceLength : ℕ} {pieces : Bytes}
    {files : List File} {md5sum : Option String} {isPrivate : Option ℕ} {info : Info}
    (h : Info.new name length pieceLength pieces files md5sum isPrivate = .ok info) :
    info.length = length ∧ info.pieceLength = pieceLength ∧ info.pieces = pieces ∧
      info.files.map File.length = files.map File.length := by
  unfold Info.new at h
  split at h
  · cases h
  · simp only [calculateFilePiece, List.unzip_eq_map, Except.ok.injEq] at h
    subst h
    exact ⟨rfl, rfl, rfl, calculateFilePieceLoop_lengths _ _ _ _⟩

/-- **Every accepted info dictionary has `u64`s for its lengths.** -/
theorem Info.bounded_of_fromBencode {bytes : Bytes} {info : Info}
    (h : Info.fromBencode bytes = .ok info) : info.Bounded := by
  rw [fromBencode_eq_bind] at h
  obtain ⟨s, hs, hbuild⟩ := Checked.bind_eq_ok.mp h
  have hbounded := InfoFields.bounded_of_fields hs
  obtain ⟨name, pieceLength, pieces, length, hm, hlen, hnew⟩ := InfoFields.exists_of_build hbuild
  obtain ⟨hl, hpl, -, -⟩ := Info.new_eq_ok hnew
  refine ⟨?_, hpl ▸ hbounded.2 _ (InfoFields.mandatory_eq_ok hm).2.1⟩
  rw [hl]
  cases hfiles : s.files with
  | some files =>
      rw [hfiles, resourceLength, Except.ok.injEq] at hlen
      exact hlen ▸ Nat.mod_lt _ (by decide)
  | none =>
      rw [hfiles, resourceLength] at hlen
      cases hsl : s.length with
      | none =>
          rw [hsl] at hlen
          cases hlen
      | some n =>
          rw [hsl] at hlen
          exact Except.ok.inj hlen ▸ hbounded.1 n hsl

/-! ## Torrents whose decoding did not fault -/

/-- `Info::new` computed the torrent without a fault. -/
structure Info.Completes (exact : Bool) (info : Info) : Prop where
  pos : info.files ≠ [] → 0 < info.pieceLength
  sum_lt : filesLength info.files < 2 ^ 64
  fits : ∀ (k : ℕ) (file : File), info.files[k]? = some file →
    FileFits exact info.pieceLength (fileStart info.files k) file.length

/-- Where files start depends on the lengths only. -/
theorem fileStart_congr {files files' : List File}
    (h : files'.map File.length = files.map File.length) (k : ℕ) :
    fileStart files' k = fileStart files k := by
  rw [fileStart, fileStart, filesLength, filesLength, List.map_take, h, List.map_take]

section Completes

variable {exact : Bool}

theorem completes_of_newChecked {name : String} {length pieceLength : ℕ} {pieces : Bytes}
    {files : List File} {md5sum : Option String} {isPrivate : Option ℕ} {info : Info}
    (hsum : filesLength files < 2 ^ 64)
    (h : Info.newChecked exact name length pieceLength pieces files md5sum isPrivate = .ok info) :
    info.Completes exact := by
  obtain ⟨-, hpl, -, hlengths⟩ := Info.new_eq_ok (newChecked_eq_ok h)
  obtain ⟨entries, hentries, -⟩ := map_eq_ok.mp h
  have hpos : info.files ≠ [] → 0 < pieceLength := by
    intro hne
    cases files with
    | nil => exact absurd (List.map_eq_nil_iff.mp hlengths) hne
    | cons f files =>
        obtain ⟨_, hturn, -⟩ := bind_eq_ok.mp hentries
        obtain ⟨_, hrem, -⟩ := bind_eq_ok.mp hturn
        exact Nat.pos_of_ne_zero (rem_eq_ok.mp hrem).1
  refine ⟨hpl ▸ hpos, by rwa [filesLength, hlengths], fun k file' hk => ?_⟩
  have hne : info.files ≠ [] := List.ne_nil_of_mem (List.mem_of_getElem? hk)
  have hlength : (files.map File.length)[k]? = some file'.length := by
    rw [← hlengths, List.getElem?_map, hk, Option.map_some]
  rw [List.getElem?_map, Option.map_eq_some_iff] at hlength
  obtain ⟨file, hfile, hlen⟩ := hlength
  have hfits := ((calculateFilePieceChecked_zero (hpos hne)).mp hentries).1 k file hfile
  rw [hlen] at hfits
  rw [hpl, fileStart_congr hlengths]
  exact hfits

/-- **A torrent that was decoded without a fault** was computed without one. -/
theorem completes_of_fromBencodeChecked {bytes : Bytes} {info : Info}
    (h : Info.fromBencodeChecked exact bytes = .ok (.ok info)) : info.Completes exact := by
  unfold Info.fromBencodeChecked at h
  cases hs : Info.fields bytes with
  | error e =>
      rw [hs] at h
      cases h
  | ok s =>
      rw [hs] at h
      simp only [Info.ofFields] at h
      split at h
      · cases h
      · split at h
        · next files hfiles =>
            obtain ⟨length, hsum, hmap⟩ := bind_eq_ok.mp h
            obtain ⟨info', hnew, he⟩ := map_eq_ok.mp hmap
            exact Except.ok.inj he ▸ completes_of_newChecked (sum_eq_ok.mp hsum).1 hnew
        · split at h
          · cases h
          · obtain ⟨info', hnew, he⟩ := map_eq_ok.mp h
            exact Except.ok.inj he ▸ completes_of_newChecked (by decide) hnew

/-- When the number of pieces fits a `u32` too, the torrent is regular. -/
theorem Info.Completes.regular {info : Info} (h : info.Completes exact)
    (hpieces : divCeil (filesLength info.files) info.pieceLength < 2 ^ 32) : info.Regular where
  pos := h.pos
  sum_lt := h.sum_lt
  pieces_lt := hpieces
  head := by
    intro file hfile
    rw [List.head?_eq_getElem?] at hfile
    have hpl := h.pos (List.ne_nil_of_mem (List.mem_of_getElem? hfile))
    by_contra hzero
    have hlast := (h.fits 0 file hfile).last.2
    rw [fileStart_zero, show 0 + file.length = 0 by omega,
      show divCeil 0 info.pieceLength = 0 by simp [divCeil]] at hlast
    exact absurd hlast (by decide)

end Completes

/-! ## The condition -/

/-- No operation on the lengths of the files faults, and no piece number loses bits. -/
structure ArithmeticSafe (files : List File) (pieceLength : ℕ) : Prop where
  pos : 0 < pieceLength
  head : ∀ file, files.head? = some file → 0 < file.length
  sum_lt : filesLength files < 2 ^ 64
  sum_le : filesLength files ≤ (2 ^ 32 - 1) * pieceLength
  start_lt : fileStart files (files.length - 1) < (2 ^ 32 - 1) * pieceLength

section Condition

variable {pieceLength : ℕ} {files : List File}

theorem castable_true_iff {a : ℕ} : Castable true a ↔ 0 < a ∧ a < 2 ^ 32 := by
  simp only [Castable, true_implies]
  unfold u32
  omega

/-- One file: its bytes end behind the first byte of the torrent, and its first and last piece
have numbers. -/
theorem fileFits_true_iff (hpl : 0 < pieceLength) {base length : ℕ} :
    FileFits true pieceLength base length ↔
      base + length < 2 ^ 64 ∧ base < (2 ^ 32 - 1) * pieceLength ∧ 0 < base + length ∧
        base + length ≤ (2 ^ 32 - 1) * pieceLength := by
  have hstart : Castable true (base / pieceLength + 1) ↔ base < (2 ^ 32 - 1) * pieceLength := by
    rw [castable_true_iff, ← Nat.div_lt_iff_lt_mul hpl]
    generalize base / pieceLength = n
    omega
  have hlast : Castable true (divCeil (base + length) pieceLength) ↔
      0 < base + length ∧ base + length ≤ (2 ^ 32 - 1) * pieceLength := by
    rw [castable_true_iff, lt_divCeil_iff hpl, Nat.zero_mul, ← divCeil_le_iff hpl]
    omega
  constructor
  · rintro ⟨hsum, hs, hl⟩
    exact ⟨hsum, hstart.mp hs, hlast.mp hl⟩
  · rintro ⟨hsum, hs, hl⟩
    exact ⟨hsum, hstart.mpr hs, hlast.mpr hl⟩

/-- **The whole list** is safe if each file fits. -/
theorem forall_fileFits_iff (hpl : 0 < pieceLength) (hne : files ≠ []) :
    (∀ (k : ℕ) (file : File), files[k]? = some file →
      FileFits true pieceLength (fileStart files k) file.length) ↔
        ArithmeticSafe files pieceLength := by
  have hlen : 0 < files.length := List.length_pos_iff.mpr hne
  constructor
  · intro h
    have hlast := h (files.length - 1) files[files.length - 1] (List.getElem?_eq_getElem (by omega))
    rw [fileFits_true_iff hpl, ← fileStart_succ (List.getElem?_eq_getElem (by omega)),
      Nat.sub_add_cancel hlen, fileStart, List.take_length] at hlast
    refine ⟨hpl, fun file hfile => ?_, hlast.1, hlast.2.2.2, hlast.2.1⟩
    have hfirst := h 0 file (by rwa [← List.head?_eq_getElem?])
    rw [fileFits_true_iff hpl, fileStart_zero] at hfirst
    omega
  · intro h k file hk
    have hklen := (List.getElem?_eq_some_iff.mp hk).1
    have hend := fileStart_length_le files (k + 1)
    have hstart := fileStart_mono files (show k ≤ files.length - 1 by omega)
    have hsum := h.sum_lt
    have hle := h.sum_le
    have hlt := h.start_lt
    have hpos : 0 < fileStart files (k + 1) := by
      obtain ⟨f, hf⟩ : ∃ f, files.head? = some f := by
        cases files with
        | nil => exact absurd rfl hne
        | cons f fs => exact ⟨f, rfl⟩
      have h0 := fileStart_succ (show files[0]? = some f by rwa [← List.head?_eq_getElem?])
      have hmono := fileStart_mono files (show 0 + 1 ≤ k + 1 by omega)
      have := h.head f hf
      rw [fileStart_zero] at h0
      omega
    rw [fileFits_true_iff hpl, ← fileStart_succ hk]
    omega

/-- `Info::new` on a list of files whose total length was computed. -/
theorem succeeds_newChecked_iff {name : String} {length : ℕ} {pieces : Bytes}
    {md5sum : Option String} {isPrivate : Option ℕ} (hne : files ≠ []) :
    Succeeds (Info.newChecked true name length pieceLength pieces files md5sum isPrivate) ↔
      ArithmeticSafe files pieceLength := by
  rw [Info.newChecked, succeeds_map]
  rcases Nat.eq_zero_or_pos pieceLength with rfl | hpl
  · refine iff_of_false ?_ fun h => absurd h.pos (by omega)
    cases files with
    | nil => exact absurd rfl hne
    | cons f files => exact not_succeeds_error _
  · rw [← forall_fileFits_iff hpl hne]
    constructor
    · rintro ⟨entries, hentries⟩
      exact ((calculateFilePieceChecked_zero hpl).mp hentries).1
    · intro h
      exact ⟨_, (calculateFilePieceChecked_zero hpl).mpr ⟨h, rfl⟩⟩

/-- `Info::new` on no files does no arithmetic. -/
theorem succeeds_newChecked_nil {name : String} {length : ℕ} {pieces : Bytes}
    {md5sum : Option String} {isPrivate : Option ℕ} :
    Succeeds (Info.newChecked true name length pieceLength pieces [] md5sum isPrivate) := by
  rw [Info.newChecked, succeeds_map]
  exact succeeds_ok []

/-- The end of the decoder. -/
theorem succeeds_ofFields_iff {s : InfoFields} :
    Succeeds (Info.ofFields true s) ↔
      ∀ name pieceLength pieces files, s.mandatory = .ok (name, pieceLength, pieces) →
        s.files = some files → files ≠ [] → ArithmeticSafe files pieceLength := by
  unfold Info.ofFields
  cases hm : s.mandatory with
  | error e => simp
  | ok m =>
      obtain ⟨name, pieceLength, pieces⟩ := m
      cases hfiles : s.files with
      | none =>
          cases hlen : required "length" s.length with
          | error e => simp
          | ok length => simp [succeeds_newChecked_nil]
      | some files =>
          simp only [succeeds_bind, sum_eq_ok, succeeds_map, Except.ok.injEq, Prod.mk.injEq,
            Option.some.injEq]
          by_cases hne : files = []
          · subst hne
            refine iff_of_true ⟨0, ⟨by decide, rfl⟩, succeeds_newChecked_nil⟩ ?_
            rintro _ _ _ _ - rfl hne
            exact absurd rfl hne
          · constructor
            · rintro ⟨_, -, hnew⟩ _ _ _ _ ⟨rfl, rfl, rfl⟩ rfl -
              exact (succeeds_newChecked_iff hne).mp hnew
            · intro h
              have hsafe := h _ _ _ _ ⟨rfl, rfl, rfl⟩ rfl hne
              exact ⟨_, ⟨hsafe.sum_lt, rfl⟩, (succeeds_newChecked_iff hne).mpr hsafe⟩

end Condition

/-- The dictionary reaches `Info::new` with a list of files that is not empty. -/
def Info.Reaches (bytes : Bytes) (files : List File) (pieceLength : ℕ) : Prop :=
  ∃ s name pieces, Info.fields bytes = .ok s ∧ s.mandatory = .ok (name, pieceLength, pieces) ∧
    s.files = some files ∧ files ≠ []

/-- **Arithmetic of torrent decoding.**  Decoding an info dictionary ends without a fault, in
what the decoder returns, if and only if the list of files that reaches `Info::new` is safe. -/
theorem decodes_iff (bytes : Bytes) :
    Info.fromBencodeChecked true bytes = .ok (Info.fromBencode bytes) ↔
      ∀ files pieceLength, Info.Reaches bytes files pieceLength →
        ArithmeticSafe files pieceLength := by
  have hsucc : Info.fromBencodeChecked true bytes = .ok (Info.fromBencode bytes) ↔
      Succeeds (Info.fromBencodeChecked true bytes) := by
    constructor
    · intro h
      exact ⟨_, h⟩
    · rintro ⟨r, hr⟩
      rw [hr, fromBencodeChecked_eq hr]
  rw [hsucc, Info.fromBencodeChecked]
  unfold Info.Reaches
  cases hs : Info.fields bytes with
  | error e => simp
  | ok s =>
      simp only [succeeds_ofFields_iff, Except.ok.injEq]
      constructor
      · rintro h files pieceLength ⟨_, name, pieces, rfl, hm, hfiles, hne⟩
        exact h name pieceLength pieces files hm hfiles hne
      · intro h name pieceLength pieces files hm hfiles hne
        exact h files pieceLength ⟨s, name, pieces, rfl, hm, hfiles, hne⟩

/-- An info dictionary with files of the given lengths. -/
def filesDict (lengths : List ℕ) (pieceLength : ℕ) : Bytes :=
  key "d5:filesl" ++
    lengths.flatMap (fun n => key ("d6:lengthi" ++ toString n ++ "e4:pathl1:aee")) ++
    key ("e4:name1:f12:piece lengthi" ++ toString pieceLength ++ "e6:pieces0:e")

/-- A piece length of zero, an empty first file, a total length that does not fit a `u64`, and a
piece number that does not fit a `u32`. -/
theorem decoding_faults :
    Info.fromBencodeChecked true (filesDict [1] 0) = .error .divisionByZero ∧
      Info.fromBencodeChecked true (filesDict [0, 1] 1) = .error .underflow ∧
      Info.fromBencodeChecked true (filesDict [2 ^ 64 - 1, 1] 1) = .error .overflow ∧
      Info.fromBencodeChecked true (filesDict [2 ^ 32] 1) = .error .truncated := by
  refine ⟨?_, ?_, ?_, ?_⟩ <;> decide +kernel
