/-
# The gapless part of a piece

`Piece::new` and `Piece::add_finish` (`doro/src/bt/base_peer.rs`) with their integer operations
and accesses checked, and the nested scan as it stands: a loop over the bytes of the bitmap, and
in it one over the bits of a byte, with a mask that moves.

* `scanBytes_eq` says that the scan moves the offset by one block for each set bit in front of the
  first clear one (`Bitmap.ones`), so that `addFinishChecked` is `Piece.addFinish` with its
  faults (`addFinishChecked_eq`);
* `Tracked` is what a reception keeps over any sequence of blocks, in any order;
* `frontier_iff` says for which sizes the offset is always the end of the gapless part: for all
  but those whose number of blocks is so large that the size of the bitmap overflows.
-/
import Dorodoro.CheckedRun
import Dorodoro.Reception
import Dorodoro.TorrentArithmetic

open Bitmap Checked

namespace Swarm

/-! ## The functions -/

/-- An addition of `u32` in a build with overflow checks, or in one without. -/
def addU32 (checks : Bool) (a b : ℕ) : Except Fault ℕ :=
  if checks then add 32 a b else .ok (u32 (a + b))

/-- `Piece::new`. -/
def Piece.newChecked (checks : Bool) (blockOffset pieceLength blockSize : ℕ) :
    Except Fault Piece :=
  (divCeilChecked pieceLength blockSize).bind fun share =>
    (addU32 checks share 7).map fun bits =>
      { blockOffset := blockOffset
        bitmap := List.replicate (bits / 8) 0
        blockSize := blockSize
        pieceLength := pieceLength
        finish := false }

/-- The shifted mask is smaller, which ends the loop over a byte. -/
theorem toNat_shiftRight_one_lt {k : UInt8} (h : k ≠ 0) : (k >>> 1).toNat < k.toNat := by
  have hpos : k.toNat ≠ 0 := fun h0 => h (UInt8.toNat_inj.mp h0)
  rw [UInt8.toNat_shiftRight]
  show k.toNat >>> 1 < k.toNat
  rw [Nat.shiftRight_one]
  omega

/-- The `while` loop over the bits of `value` from the mask `k` on: whether it broke off at a
clear bit, and the offset. -/
def scanByte (checks : Bool) (blockSize : ℕ) (value k : UInt8) (blockOffset : ℕ) :
    Except Fault (Bool × ℕ) :=
  if _ : k = 0 then .ok (false, blockOffset)
  else if value &&& k = 0 then .ok (true, blockOffset)
  else (addU32 checks blockOffset blockSize).bind fun blockOffset' =>
    scanByte checks blockSize value (k >>> 1) blockOffset'
termination_by k.toNat
decreasing_by exact toNat_shiftRight_one_lt ‹_›

/-- `'first_loop`. -/
def scanBytes (checks : Bool) (blockSize : ℕ) : Bytes → UInt8 → ℕ → Except Fault ℕ
  | [], _, blockOffset => .ok blockOffset
  | value :: values, offset, blockOffset =>
      (scanByte checks blockSize value offset blockOffset).bind fun (broke, blockOffset') =>
        if broke then .ok blockOffset' else
          scanBytes checks blockSize values ((1 : UInt8) <<< 7) blockOffset'

/-- `Piece::add_finish`. -/
def Piece.addFinishChecked (checks : Bool) (P : Piece) (blockOffset : ℕ) : Except Fault Piece :=
  if P.finish then .ok P
  else
    (divCeilChecked blockOffset P.blockSize).bind fun boIdx =>
    -- a bit behind the end is not set
    let bitmap := set P.bitmap boIdx
    (divCeilChecked P.blockOffset P.blockSize).bind fun boIdx =>
    (slice bitmap (bitmapOffset boIdx).1 bitmap.length).bind fun values =>
    (scanBytes checks P.blockSize values (bitmapOffset boIdx).2 P.blockOffset).map fun offset =>
      { P with
        bitmap := bitmap
        blockOffset := offset
        finish := decide (P.pieceLength ≤ offset) }

/-! ## The scan -/

section Scan

variable {checks : Bool} {blockSize : ℕ} {bm : Bytes}

/-- `n` times one block. -/
def advance (checks : Bool) (blockSize : ℕ) : ℕ → ℕ → Except Fault ℕ
  | 0, offset => .ok offset
  | n + 1, offset => (addU32 checks offset blockSize).bind (advance checks blockSize n)

/-- Below the word size, the checks make no difference. -/
theorem addU32_eq {a b : ℕ} (h : a + b < 2 ^ 32) : addU32 checks a b = .ok (a + b) := by
  cases checks with
  | true => exact add_eq_ok.mpr ⟨h, rfl⟩
  | false => exact congrArg Except.ok (Nat.mod_eq_of_lt h)

theorem advance_add (n k offset : ℕ) :
    advance checks blockSize (n + k) offset =
      (advance checks blockSize n offset).bind (advance checks blockSize k) := by
  induction n generalizing offset with
  | zero => rw [Nat.zero_add]; rfl
  | succ n ih =>
      rw [Nat.succ_add, advance, advance]
      cases addU32 checks offset blockSize with
      | error e => rfl
      | ok offset' => exact ih offset'

/-- Without checks, the offset wraps. -/
theorem advance_unchecked (n offset : ℕ) :
    advance false blockSize n offset = .ok ((fun o => u32 (o + blockSize))^[n] offset) := by
  induction n generalizing offset with
  | zero => rfl
  | succ n ih => exact ih (u32 (offset + blockSize))

theorem advance_eq {n : ℕ} :
    ∀ {offset : ℕ}, offset + n * blockSize < 2 ^ 32 →
      advance checks blockSize n offset = .ok (offset + n * blockSize) := by
  induction n with
  | zero => intro offset _; rw [Nat.zero_mul]; rfl
  | succ n ih =>
      intro offset h
      rw [Nat.succ_mul] at h
      have hlt : offset + blockSize < 2 ^ 32 := by omega
      rw [advance, addU32_eq hlt]
      show advance checks blockSize n (offset + blockSize) = _
      rw [ih (by omega), Nat.succ_mul]
      congr 1
      omega

/-- The mask with which `n` bits of a byte are left to look at. -/
def maskOf : ℕ → UInt8
  | 0 => 0
  | n + 1 => 1 <<< n.toUInt8

theorem maskOf_succ_ne_zero {n : ℕ} (h : n < 8) : maskOf (n + 1) ≠ 0 := by
  have hall : ∀ n : Fin 8, maskOf (n.val + 1) ≠ 0 := by decide
  exact hall ⟨n, h⟩

theorem maskOf_succ_shiftRight {n : ℕ} (h : n < 8) : maskOf (n + 1) >>> 1 = maskOf n := by
  have hall : ∀ n : Fin 8, maskOf (n.val + 1) >>> 1 = maskOf n.val := by decide
  exact hall ⟨n, h⟩

theorem bitmapOffset_snd (i : ℕ) : (bitmapOffset i).2 = maskOf (8 - i % 8) := by
  have hsucc : 8 - i % 8 = (7 - i % 8) + 1 := by omega
  rw [hsucc]
  rfl

/-- The bit under the mask. -/
theorem and_maskOf_eq_zero {value : UInt8} {q n : ℕ} (hv : bm[q]? = some value) (h : n < 8) :
    value &&& maskOf (n + 1) = 0 ↔ get bm (8 * q + (7 - n)) = false := by
  have hidx : (bitmapOffset (8 * q + (7 - n))).1 = q := by
    show (8 * q + (7 - n)) / 8 = q
    omega
  have hmask : (bitmapOffset (8 * q + (7 - n))).2 = maskOf (n + 1) := by
    rw [bitmapOffset_snd]
    congr 1
    omega
  rw [Bitmap.get, hidx, hv, hmask]
  simp

/-- Looking at the bits in two parts. -/
theorem onesN_add (bm : Bytes) (n k i : ℕ) :
    onesN bm (n + k) i =
      if onesN bm n i < n then onesN bm n i else n + onesN bm k (i + n) := by
  induction n generalizing i with
  | zero => rw [Nat.zero_add, onesN, if_neg (Nat.lt_irrefl 0), Nat.zero_add]; rfl
  | succ n ih =>
      rw [Nat.succ_add, onesN, onesN, ih]
      by_cases hget : get bm i = true
      · rw [if_pos hget, if_pos hget, show i + 1 + n = i + (n + 1) by omega]
        by_cases hlt : onesN bm n (i + 1) < n
        · rw [if_pos hlt, if_pos (by omega)]
        · rw [if_neg hlt, if_neg (by omega)]
          omega
      · rw [if_neg hget, if_neg hget, if_pos (Nat.succ_pos n)]

/-- **One byte.**  The loop moves over the set bits in front of the first clear one, and breaks
off if there is one. -/
theorem scanByte_eq {value : UInt8} {q n : ℕ} (hv : bm[q]? = some value) (hn : n ≤ 8) :
    ∀ offset, scanByte checks blockSize value (maskOf n) offset =
      (advance checks blockSize (onesN bm n (8 * q + (8 - n))) offset).map fun offset' =>
        (decide (onesN bm n (8 * q + (8 - n)) < n), offset') := by
  induction n with
  | zero =>
      intro offset
      rw [scanByte, dif_pos (show maskOf 0 = 0 from rfl)]
      rfl
  | succ n ih =>
      intro offset
      have hpos : 8 * q + (8 - (n + 1)) = 8 * q + (7 - n) := by omega
      have hnext : 8 * q + (7 - n) + 1 = 8 * q + (8 - n) := by omega
      rw [scanByte, dif_neg (maskOf_succ_ne_zero hn), hpos, onesN]
      by_cases hclear : value &&& maskOf (n + 1) = 0
      · have hget := (and_maskOf_eq_zero hv hn).mp hclear
        rw [if_pos hclear, if_neg (by rw [hget]; exact Bool.false_ne_true)]
        rfl
      · have hget : get bm (8 * q + (7 - n)) = true :=
          eq_true_of_ne_false fun h => hclear ((and_maskOf_eq_zero hv hn).mpr h)
        rw [if_neg hclear, if_pos hget, hnext, maskOf_succ_shiftRight hn, advance]
        cases addU32 checks offset blockSize with
        | error e => rfl
        | ok offset' =>
            show scanByte checks blockSize value (maskOf n) offset' = _
            rw [ih (Nat.le_of_succ_le hn) offset']
            congr 1
            funext offset''
            exact congrArg (·, offset'') (decide_eq_decide.mpr Nat.add_lt_add_iff_right.symm)

/-- The byte at the front, and the bytes behind it. -/
theorem getElem?_of_drop_eq_cons {value : UInt8} {values : Bytes} {q : ℕ}
    (h : bm.drop q = value :: values) :
    q < bm.length ∧ bm[q]? = some value ∧ bm.drop (q + 1) = values := by
  have hvalue : bm[q]? = some value := by
    have hhead : (bm.drop q)[0]? = some value := by rw [h]; rfl
    rwa [List.getElem?_drop, Nat.add_zero] at hhead
  obtain ⟨hlt, -⟩ := List.getElem?_eq_some_iff.mp hvalue
  refine ⟨hlt, hvalue, ?_⟩
  rw [← List.drop_drop, h]
  rfl

/-- **The nested loop.**  It moves over the set bits in front of the first clear one, through as
many bytes as they take. -/
theorem scanBytes_drop (values : Bytes) :
    ∀ {q n : ℕ}, n ≤ 8 → bm.drop q = values → ∀ offset,
      scanBytes checks blockSize values (maskOf n) offset =
        advance checks blockSize
          (onesN bm (8 * (bm.length - q) - (8 - n)) (8 * q + (8 - n))) offset := by
  induction values with
  | nil =>
      intro q n _ hdrop offset
      have hlen : bm.length ≤ q := List.drop_eq_nil_iff.mp hdrop
      have hzero : 8 * (bm.length - q) - (8 - n) = 0 := by omega
      rw [hzero]
      rfl
  | cons value values ih =>
      intro q n hn hdrop offset
      obtain ⟨hlt, hv, hrest⟩ := getElem?_of_drop_eq_cons hdrop
      have hcount : 8 * (bm.length - q) - (8 - n) = n + 8 * (bm.length - (q + 1)) := by omega
      rw [scanBytes, scanByte_eq hv hn, hcount, onesN_add]
      by_cases hclear : onesN bm n (8 * q + (8 - n)) < n
      · rw [if_pos hclear]
        cases advance checks blockSize (onesN bm n (8 * q + (8 - n))) offset with
        | error e => rfl
        | ok offset' =>
            show (if decide (onesN bm n (8 * q + (8 - n)) < n) = true then _ else _) = _
            rw [if_pos (decide_eq_true hclear)]
      · -- the whole rest of the byte is set
        have hall : onesN bm n (8 * q + (8 - n)) = n :=
          (onesN_le bm n _).antisymm (not_lt.mp hclear)
        rw [if_neg hclear, advance_add, hall]
        cases advance checks blockSize n offset with
        | error e => rfl
        | ok offset' =>
            show (if decide (n < n) = true then _ else _) = _
            rw [if_neg (by rw [decide_eq_true_eq]; exact Nat.lt_irrefl n)]
            have hnext := ih (le_refl 8) hrest offset'
            rw [Nat.sub_self, Nat.sub_zero, Nat.add_zero] at hnext
            rw [show 8 * q + (8 - n) + n = 8 * (q + 1) by omega]
            exact hnext

/-- **The scan** moves the offset by a block for each set bit in front of the first clear one. -/
theorem scanBytes_eq (i offset : ℕ) :
    scanBytes checks blockSize (bm.drop (bitmapOffset i).1) (bitmapOffset i).2 offset =
      advance checks blockSize (ones bm i) offset := by
  have hscan := @scanBytes_drop checks blockSize bm _ (i / 8) (8 - i % 8) (by omega) rfl offset
  have hpos : 8 * (i / 8) + (8 - (8 - i % 8)) = i := by omega
  have hcount : 8 * (bm.length - i / 8) - (8 - (8 - i % 8)) = 8 * bm.length - i := by omega
  rw [hpos, hcount] at hscan
  rw [bitmapOffset_snd]
  exact hscan

end Scan

/-! ## The functions, with what they come to -/

section Functions

variable {checks : Bool} {P : Piece}

theorem divCeilChecked_eq {a b : ℕ} (hb : 0 < b) : divCeilChecked a b = .ok (divCeil a b) :=
  if_neg hb.ne'

/-- `Piece::new`, as long as the size of the bitmap does not overflow. -/
theorem Piece.newChecked_eq {blockOffset pieceLength blockSize : ℕ} (hbs : 0 < blockSize)
    (h : divCeil pieceLength blockSize + 7 < 2 ^ 32) :
    Piece.newChecked checks blockOffset pieceLength blockSize =
      .ok (.new blockOffset pieceLength blockSize) := by
  rw [Piece.newChecked, divCeilChecked_eq hbs]
  show (addU32 checks (divCeil pieceLength blockSize) 7).map _ = _
  rw [addU32_eq h]
  rfl

/-- `Piece::add_finish`, with the scan summed up. -/
theorem Piece.addFinishChecked_scan (hbs : 0 < P.blockSize) (hfin : P.finish = false)
    (hrange : P.outOfRange = false) (offset : ℕ) :
    P.addFinishChecked checks offset =
      (advance checks P.blockSize
        (ones (set P.bitmap (Piece.blockOffsetIdx offset P.blockSize)) P.frontier)
        P.blockOffset).map fun offset' =>
          { P with
            bitmap := set P.bitmap (Piece.blockOffsetIdx offset P.blockSize)
            blockOffset := offset'
            finish := decide (P.pieceLength ≤ offset') } := by
  have hle : (bitmapOffset P.frontier).1 ≤ P.bitmap.length := by
    rw [Piece.outOfRange, hfin] at hrange
    simpa using hrange
  rw [Piece.addFinishChecked, if_neg (by rw [hfin]; exact Bool.false_ne_true),
    divCeilChecked_eq hbs, divCeilChecked_eq hbs]
  show (slice (set P.bitmap (Piece.blockOffsetIdx offset P.blockSize)) (bitmapOffset P.frontier).1
    (set P.bitmap (Piece.blockOffsetIdx offset P.blockSize)).length).bind _ = _
  rw [slice_eq_ok.mpr ⟨⟨by rwa [length_set], le_rfl⟩, rfl⟩, List.take_length]
  show (scanBytes checks P.blockSize (List.drop _ _) (bitmapOffset P.frontier).2 _).map _ = _
  rw [scanBytes_eq]
  rfl

/-- **The build without checks** is `Piece.addFinish`, and it faults where the slice does. -/
theorem Piece.addFinishChecked_eq (hbs : 0 < P.blockSize) (offset : ℕ) :
    P.addFinishChecked false offset =
      if P.outOfRange then .error .outOfRange else .ok (P.addFinish offset) := by
  by_cases hfin : P.finish = true
  · have hrange : P.outOfRange = false := by rw [Piece.outOfRange, hfin]; rfl
    rw [hrange, Piece.addFinishChecked, Piece.addFinish, if_pos hfin, if_pos hfin]
    rfl
  have hfin : P.finish = false := Bool.eq_false_iff.mpr hfin
  cases hrange : P.outOfRange with
  | false =>
      rw [Piece.addFinishChecked_scan hbs hfin hrange, advance_unchecked, Piece.addFinish, hfin,
        hrange]
      rfl
  | true =>
      have hlt : P.bitmap.length < (bitmapOffset P.frontier).1 := by
        rw [Piece.outOfRange, hfin] at hrange
        simpa using hrange
      rw [Piece.addFinishChecked, hfin, divCeilChecked_eq hbs, divCeilChecked_eq hbs]
      show (slice (set P.bitmap (Piece.blockOffsetIdx offset P.blockSize))
        (bitmapOffset P.frontier).1 _).bind _ = _
      rw [slice, length_set, if_neg (fun h => absurd h.1 (not_le.mpr hlt))]
      rfl

end Functions

/-! ## Any sequence of blocks -/

/-- The reception of a piece from the offset `o` on: `add_finish` for the blocks `ks`, counted
from there. -/
def receive (checks : Bool) (o pieceLength blockSize : ℕ) (ks : List ℕ) : Except Fault Piece :=
  (Piece.newChecked checks o pieceLength blockSize).bind fun P =>
    runAll (fun P k => P.addFinishChecked checks (o + k * blockSize)) P ks

/-- The length of the longest prefix of the blocks `0, 1, 2, …` that were all received. -/
structure IsPrefixLength (ks : List ℕ) (m : ℕ) : Prop where
  received : ∀ k < m, k ∈ ks
  missing : m ∉ ks

/-- What the reception should keep: no access is out of range, `block_offset` is the end of the
longest prefix received, and it is finished when every block was. -/
structure TracksPrefix (checks : Bool) (o pieceLength blockSize : ℕ) (ks : List ℕ) (P : Piece) :
    Prop where
  returned : receive checks o pieceLength blockSize ks = .ok P
  inRange : ∀ k ∈ ks,
    (bitmapOffset (Piece.blockOffsetIdx (o + k * blockSize) blockSize)).1 < P.bitmap.length
  offset : ∃ m, IsPrefixLength ks m ∧ P.blockOffset = o + m * blockSize
  finished : P.finish = true ↔ ∀ k, o + k * blockSize < pieceLength → k ∈ ks

/-- The bits that are set are those of the blocks received, and the offset is where the first one
is missing. -/
structure Tracked (first pieceLength blockSize : ℕ) (ks : List ℕ) (P : Piece) : Prop where
  shaped : P.Shaped pieceLength blockSize
  marked : ∀ i, get P.bitmap i = true ↔ ∃ k ∈ ks, i = first + k
  offset : ∃ m, IsPrefixLength ks m ∧ P.blockOffset = (first + m) * blockSize
  finish : P.finish = true ↔ pieceLength ≤ P.blockOffset

section Reception

variable {checks : Bool} {first pieceLength blockSize : ℕ} {ks : List ℕ} {P : Piece}

theorem blockOffsetIdx_mul (hbs : 0 < blockSize) (n : ℕ) :
    Piece.blockOffsetIdx (n * blockSize) blockSize = n := by
  have h := divCeil_add_mul hbs 0 n
  rwa [Nat.zero_add, show divCeil 0 blockSize = 0 by simp [divCeil], Nat.zero_add] at h

/-- A block of the piece has a bit in the bitmap. -/
theorem Piece.Shaped.lt_bits (hs : P.Shaped pieceLength blockSize) (hbs : 0 < blockSize) {i : ℕ}
    (h : i * blockSize < pieceLength) : i < 8 * P.bitmap.length := by
  have hlt : i < divCeil pieceLength blockSize := by
    by_contra hge
    have hle := (divCeil_le_iff hbs).mp (not_lt.mp hge)
    omega
  have hlen := hs.bitmap
  omega

theorem tracked_new (h : first * blockSize < pieceLength) :
    Tracked first pieceLength blockSize [] (.new (first * blockSize) pieceLength blockSize) := by
  refine ⟨Piece.shaped_new _ _ _, fun i => ?_, ⟨0, ⟨fun k hk => absurd hk (Nat.not_lt_zero k),
    List.not_mem_nil⟩, rfl⟩, ?_⟩
  · rw [show (Piece.new (first * blockSize) pieceLength blockSize).bitmap = List.replicate _ 0
      from rfl, get_replicate_zero]
    simp
  · show false = true ↔ pieceLength ≤ first * blockSize
    exact iff_of_false Bool.false_ne_true (not_le.mpr h)

/-- The bits after a block was marked. -/
theorem get_set_iff {bm : Bytes} {k : ℕ} (hlt : first + k < 8 * bm.length)
    (hmarked : ∀ i, get bm i = true ↔ ∃ j ∈ ks, i = first + j) (i : ℕ) :
    get (set bm (first + k)) i = true ↔ ∃ j ∈ ks ++ [k], i = first + j := by
  rw [get_set, Bool.or_eq_true, hmarked, Bool.and_eq_true, decide_eq_true_eq, decide_eq_true_eq]
  constructor
  · rintro (⟨j, hj, rfl⟩ | ⟨rfl, -⟩)
    · exact ⟨j, List.mem_append_left [k] hj, rfl⟩
    · exact ⟨k, List.mem_append_right ks List.mem_cons_self, rfl⟩
  · rintro ⟨j, hj, rfl⟩
    rcases List.mem_append.mp hj with hold | hnew
    · exact Or.inl ⟨j, hold, rfl⟩
    · rw [List.mem_singleton.mp hnew]
      exact Or.inr ⟨rfl, hlt⟩

/-- The scan from the end of a prefix received ends at the end of the longest one. -/
theorem isPrefixLength_scan {bm : Bytes} {m : ℕ}
    (hbits : ∀ i, get bm i = true ↔ ∃ j ∈ ks, i = first + j) (hm : ∀ j < m, j ∈ ks) :
    IsPrefixLength ks (m + ones bm (first + m)) := by
  constructor
  · intro j hj
    by_cases hlt : j < m
    · exact hm j hlt
    · have hget := get_of_lt_ones (show j - m < ones bm (first + m) by omega)
      obtain ⟨i, hi, heq⟩ := (hbits _).mp hget
      have hij : i = j := by omega
      exact hij ▸ hi
  · intro hin
    have hclear := get_add_ones bm (first + m)
    have hget := (hbits (first + m + ones bm (first + m))).mpr ⟨_, hin, by omega⟩
    rw [hclear] at hget
    cases hget

/-- A finished reception has every block. -/
theorem Tracked.mem_of_finish (h : Tracked first pieceLength blockSize ks P)
    (hfin : P.finish = true) {k : ℕ} (hk : (first + k) * blockSize < pieceLength) : k ∈ ks := by
  obtain ⟨m, hfirst, hoff⟩ := h.offset
  have hle := h.finish.mp hfin
  have hlt : first + k < first + m := by
    apply Nat.lt_of_mul_lt_mul_right (a := blockSize)
    omega
  exact hfirst.received k (by omega)

/-- Receiving a block again changes nothing. -/
theorem Tracked.again (h : Tracked first pieceLength blockSize ks P) {k : ℕ} (hk : k ∈ ks) :
    Tracked first pieceLength blockSize (ks ++ [k]) P := by
  have hmem : ∀ j, j ∈ ks ++ [k] ↔ j ∈ ks := by
    intro j
    rw [List.mem_append, List.mem_singleton]
    exact ⟨fun hj => hj.elim id fun heq => heq ▸ hk, Or.inl⟩
  obtain ⟨m, hfirst, hoff⟩ := h.offset
  refine ⟨h.shaped, fun i => ?_, ⟨m, ⟨fun j hj => ?_, ?_⟩, hoff⟩, h.finish⟩
  · simp only [hmem]
    exact h.marked i
  · exact (hmem j).mpr (hfirst.received j hj)
  · rw [hmem]
    exact hfirst.missing

/-- **One block**, in whatever order: no overflow and no access out of range. -/
theorem Tracked.addFinish (hbs : 0 < blockSize) (hfit : pieceLength + blockSize < 2 ^ 32)
    (h : Tracked first pieceLength blockSize ks P) {k : ℕ}
    (hks : ∀ j ∈ ks ++ [k], (first + j) * blockSize < pieceLength) :
    Ensures (Tracked first pieceLength blockSize (ks ++ [k]))
      (P.addFinishChecked checks ((first + k) * blockSize)) := by
  have hk := hks k (List.mem_append_right ks List.mem_cons_self)
  by_cases hfin : P.finish = true
  · rw [Piece.addFinishChecked, if_pos hfin, ensures_ok]
    exact h.again (h.mem_of_finish hfin hk)
  have hopen : P.finish = false := Bool.eq_false_iff.mpr hfin
  obtain ⟨m, hfirst, hoff⟩ := h.offset
  obtain ⟨hsize, hplen, hlen⟩ := h.shaped
  have hm : (first + m) * blockSize < pieceLength := by
    by_contra hge
    exact hfin (h.finish.mpr (hoff ▸ not_lt.mp hge))
  have hfrontier : P.frontier = first + m := by
    rw [Piece.frontier, hoff, hsize, blockOffsetIdx_mul hbs]
  have hrange : P.outOfRange = false := by
    have hlt := h.shaped.lt_bits hbs hm
    have hnot : ¬ P.bitmap.length < (first + m) / 8 := by omega
    rw [Piece.outOfRange, hfrontier]
    show (!P.finish && decide (P.bitmap.length < (first + m) / 8)) = false
    rw [decide_eq_false hnot, Bool.and_false]
  rw [Piece.addFinishChecked_scan (hsize.symm ▸ hbs) hopen hrange, hfrontier, hsize, hplen,
    blockOffsetIdx_mul hbs, hoff]
  have hbits := get_set_iff (h.shaped.lt_bits hbs hk) h.marked
  have hscan := isPrefixLength_scan hbits (m := m) fun j hj =>
    List.mem_append_left [k] (hfirst.received j hj)
  generalize ones (set P.bitmap (first + k)) (first + m) = n at hscan
  have hmul : (first + m) * blockSize + n * blockSize = (first + (m + n)) * blockSize := by
    rw [← Nat.add_mul, Nat.add_assoc]
  have hlt : (first + m) * blockSize + n * blockSize < 2 ^ 32 := by
    rcases Nat.eq_zero_or_pos n with rfl | hpos
    · omega
    · -- the last block the scan passed is one of the piece
      have hlast := hks (m + n - 1) (hscan.received _ (by omega))
      have hsucc : first + (m + n) = first + (m + n - 1) + 1 := by omega
      rw [hmul, hsucc, Nat.succ_mul]
      omega
  rw [advance_eq hlt, hmul]
  refine ⟨_, rfl, ⟨rfl, rfl, ?_⟩, hbits, ⟨m + n, hscan, rfl⟩, decide_eq_true_iff⟩
  rw [← hlen]
  exact length_set _ _

/-- Every sequence of blocks. -/
theorem receive_tracked (hbs : 0 < blockSize) (hfit : pieceLength + blockSize < 2 ^ 32)
    (hbits : divCeil pieceLength blockSize + 7 < 2 ^ 32) (hfirst : first * blockSize < pieceLength)
    (hks : ∀ k ∈ ks, (first + k) * blockSize < pieceLength) :
    Ensures (Tracked first pieceLength blockSize ks)
      (receive checks (first * blockSize) pieceLength blockSize ks) := by
  apply ensures_bind_of_eq_ok (Piece.newChecked_eq hbs hbits)
  refine runAll_ensures (I := Tracked first pieceLength blockSize)
    (P := fun ks => ∀ k ∈ ks, (first + k) * blockSize < pieceLength) (tracked_new hfirst) ?_ ?_ ks
    hks
  · intro past k hall j hj
    exact hall j (List.mem_append_left [k] hj)
  · intro past P k hP hall
    rw [← Nat.add_mul]
    exact hP.addFinish hbs hfit hall

/-- A reception that is tracked is as it should be. -/
theorem Tracked.tracksPrefix (hbs : 0 < blockSize) (h : Tracked first pieceLength blockSize ks P)
    (hks : ∀ k ∈ ks, (first + k) * blockSize < pieceLength)
    (hreturn : receive checks (first * blockSize) pieceLength blockSize ks = .ok P) :
    TracksPrefix checks (first * blockSize) pieceLength blockSize ks P := by
  obtain ⟨m, hfirst, hoff⟩ := h.offset
  refine ⟨hreturn, fun k hk => ?_, ⟨m, hfirst, by rw [hoff, Nat.add_mul]⟩, ?_⟩
  · have hlt := h.shaped.lt_bits hbs (hks k hk)
    rw [← Nat.add_mul, blockOffsetIdx_mul hbs]
    show (first + k) / 8 < P.bitmap.length
    omega
  · constructor
    · intro hfin k hk
      rw [← Nat.add_mul] at hk
      exact h.mem_of_finish hfin hk
    · intro hall
      rw [h.finish, hoff, Nat.add_mul]
      by_contra hlt
      exact hfirst.missing (hall m (not_le.mp hlt))

/-- The bitmap keeps its size. -/
theorem Piece.length_of_addFinishChecked {P' : Piece} {offset : ℕ}
    (h : P.addFinishChecked checks offset = .ok P') : P'.bitmap.length = P.bitmap.length := by
  unfold Piece.addFinishChecked at h
  split at h
  · cases h
    rfl
  · obtain ⟨idx, -, h⟩ := bind_eq_ok.mp h
    obtain ⟨frontier, -, h⟩ := bind_eq_ok.mp h
    obtain ⟨values, -, h⟩ := bind_eq_ok.mp h
    obtain ⟨offset', -, rfl⟩ := map_eq_ok.mp h
    exact length_set _ _

/-- Blocks of one byte, in a piece so long that the size of the bitmap overflows: without checks
the bitmap is empty. -/
theorem bitmap_of_newChecked {o : ℕ} (hlong : 2 ^ 32 - 7 ≤ pieceLength)
    (hfit : pieceLength + 1 < 2 ^ 32) (h : Piece.newChecked checks o pieceLength 1 = .ok P) :
    P.bitmap = [] := by
  obtain ⟨share, hshare, h⟩ := bind_eq_ok.mp h
  have hshare : share = pieceLength := by
    rw [divCeilChecked_eq Nat.one_pos] at hshare
    rw [← Except.ok.inj hshare, divCeil, Nat.div_one, if_pos (Nat.mod_one _), Nat.add_zero]
  obtain ⟨bits, hbits, rfl⟩ := map_eq_ok.mp h
  rw [hshare] at hbits
  cases checks with
  | true =>
      have hlt := (add_eq_ok.mp hbits).1
      omega
  | false =>
      have hwrap : bits = u32 (pieceLength + 7) := (Except.ok.inj hbits).symm
      have hzero : bits / 8 = 0 := by
        rw [hwrap]
        unfold u32
        omega
      show List.replicate (bits / 8) 0 = []
      rw [hzero]
      rfl

end Reception

/-- **The end of the gapless part.**  For every block size, piece length and first block that fit
into `u32`: after every sequence of blocks, in any order and with repetitions, `block_offset` is
the end of the longest prefix received, the reception is finished when every block was received,
and no access is out of range, if and only if the blocks are not of one byte in a piece of
2^32 - 7 bytes or more. -/
theorem frontier_iff (checks : Bool) (o pieceLength blockSize : ℕ) (hbs : 0 < blockSize)
    (hfit : pieceLength + blockSize < 2 ^ 32) (ho : o < pieceLength) (hgrid : blockSize ∣ o) :
    (∀ ks : List ℕ, (∀ k ∈ ks, o + k * blockSize < pieceLength) →
        ∃ P, TracksPrefix checks o pieceLength blockSize ks P) ↔
      ¬ (blockSize = 1 ∧ 2 ^ 32 - 7 ≤ pieceLength) := by
  obtain ⟨first, rfl⟩ := hgrid
  rw [Nat.mul_comm] at ho ⊢
  constructor
  · rintro hall ⟨rfl, hlong⟩
    obtain ⟨P, hP⟩ := hall [0] (by simpa using ho)
    obtain ⟨P₀, hnew, hrun⟩ := bind_eq_ok.mp hP.returned
    have hempty := bitmap_of_newChecked hlong hfit hnew
    obtain ⟨P₁, hadd, hend⟩ := bind_eq_ok.mp hrun
    have hlen := Piece.length_of_addFinishChecked hadd
    rw [hempty, Except.ok.inj hend, List.length_nil] at hlen
    have hin := hP.inRange 0 List.mem_cons_self
    omega
  · intro hsize ks hks
    have hbits : divCeil pieceLength blockSize + 7 < 2 ^ 32 := by
      have hlt := divCeil_mul_lt hbs pieceLength
      rcases Nat.lt_or_ge 1 blockSize with hmany | hone
      · have hmul := Nat.mul_le_mul_left (divCeil pieceLength blockSize) hmany
        omega
      · have hone : blockSize = 1 := by omega
        subst hone
        omega
    have hks' : ∀ k ∈ ks, (first + k) * blockSize < pieceLength := by
      intro k hk
      rw [Nat.add_mul]
      exact hks k hk
    obtain ⟨P, hreturn, hP⟩ := receive_tracked hbs hfit hbits ho hks'
    exact ⟨P, hP.tracksPrefix hbs hks' hreturn⟩

/-- Four blocks, from the third one of a piece of 21 bytes on: two of them leave a gap. -/
theorem frontier_iff_fourBlocks :
    (∃ P, TracksPrefix true 8 21 4 [2, 0] P ∧ (P.blockOffset, P.finish) = (12, false)) ∧
      ∃ P, TracksPrefix true 8 21 4 [2, 0, 3, 2, 1] P ∧ (P.blockOffset, P.finish) = (24, true) := by
  have hall := (frontier_iff true 8 21 4 (by decide) (by decide) (by decide) (by decide)).mpr
    (by decide)
  have hview : ∀ {ks : List ℕ} {P : Piece} {view : ℕ × Bool}, TracksPrefix true 8 21 4 ks P →
      (receive true 8 21 4 ks).toOption.map (fun P => (P.blockOffset, P.finish)) = some view →
      (P.blockOffset, P.finish) = view := by
    intro ks P view hP hexec
    rw [hP.returned] at hexec
    exact Option.some.inj hexec
  obtain ⟨P, hP⟩ := hall [2, 0] (by decide)
  obtain ⟨P', hP'⟩ := hall [2, 0, 3, 2, 1] (by decide)
  exact ⟨⟨P, hP, hview hP (by decide +kernel)⟩, P', hP', hview hP' (by decide +kernel)⟩

/-- Blocks of one byte in a piece of 2^32 - 2 bytes: with checks there is no reception, without
them the first block is lost, since the bitmap is empty. -/
theorem frontier_overflow :
    Piece.newChecked true 0 (2 ^ 32 - 2) 1 = .error .overflow ∧
      receive false 0 (2 ^ 32 - 2) 1 [0] = .ok ⟨0, [], 1, 2 ^ 32 - 2, false⟩ ∧
      ¬ ∀ (checks : Bool) (o pieceLength blockSize : ℕ), 0 < blockSize →
        pieceLength + blockSize < 2 ^ 32 → o < pieceLength → blockSize ∣ o →
        ∀ ks : List ℕ, (∀ k ∈ ks, o + k * blockSize < pieceLength) →
          ∃ P, TracksPrefix checks o pieceLength blockSize ks P := by
  have hchecked : Piece.newChecked true 0 (2 ^ 32 - 2) 1 = .error .overflow := rfl
  refine ⟨hchecked, rfl, fun h => ?_⟩
  obtain ⟨P, hP⟩ := h true 0 (2 ^ 32 - 2) 1 (by decide) (by decide) (by decide) (by decide) [0]
    (by decide)
  have hreturn := hP.returned
  rw [receive, hchecked] at hreturn
  cases hreturn

end Swarm
