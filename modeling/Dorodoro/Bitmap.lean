/-
# Bitmaps of bytes, most significant bit first

A bitmap is a list of bytes; bit `i` is bit `7 - i % 8` of byte `i / 8`.

* `bitmapOffset`, `get`, `set` and `clear` are the operations;
* `ones bm i` counts the set bits from `i` on up to the first clear one, as the nested
  scan over bytes and masks does.

`get_set` and `get_clear` say what changing a bit changes, `ext_get` that the bits determine a
bitmap, and `get_of_lt_ones`, `get_add_ones` what the scan finds.
-/
import Mathlib.Data.List.Basic
import Mathlib.Data.Nat.Bitwise

namespace Bitmap

/-- Byte index and mask of a bit. -/
def bitmapOffset (i : ℕ) : ℕ × UInt8 := (i / 8, 1 <<< (7 - i % 8).toUInt8)

/-- Whether a bit is set; bits behind the end are clear. -/
def get (bm : List UInt8) (i : ℕ) : Bool :=
  bm[(bitmapOffset i).1]?.any fun b => b &&& (bitmapOffset i).2 != 0

/-- Set a bit; nothing happens behind the end. -/
def set (bm : List UInt8) (i : ℕ) : List UInt8 :=
  bm.modify (bitmapOffset i).1 (· ||| (bitmapOffset i).2)

/-- Clear a bit; nothing happens behind the end. -/
def clear (bm : List UInt8) (i : ℕ) : List UInt8 :=
  bm.modify (bitmapOffset i).1 (· &&& ~~~(bitmapOffset i).2)

/-- The number of set bits from `i` on, looking at `k` bits. -/
def onesN (bm : List UInt8) : ℕ → ℕ → ℕ
  | 0, _ => 0
  | k + 1, i => if get bm i then onesN bm k (i + 1) + 1 else 0

/-- The number of set bits from `i` on, up to the first clear one. -/
def ones (bm : List UInt8) (i : ℕ) : ℕ := onesN bm (8 * bm.length - i) i

/-! ## Bits -/

/-- The mask is a power of two. -/
theorem toNat_mask (i : ℕ) : (bitmapOffset i).2.toNat = 2 ^ (7 - i % 8) := by
  have h : ∀ r : Fin 8, (1 <<< (7 - r.val).toUInt8 : UInt8).toNat = 2 ^ (7 - r.val) := by decide
  exact h ⟨i % 8, Nat.mod_lt i (by decide)⟩

theorem and_mask_ne_zero (b : UInt8) (i : ℕ) :
    (b &&& (bitmapOffset i).2 != 0) = b.toNat.testBit (7 - i % 8) := by
  have hzero : b &&& (bitmapOffset i).2 = 0 ↔ b.toNat &&& 2 ^ (7 - i % 8) = 0 := by
    rw [← UInt8.toNat_inj, UInt8.toNat_and, toNat_mask]
    rfl
  rw [Nat.and_two_pow] at hzero
  cases h : b.toNat.testBit (7 - i % 8) with
  | false =>
      rw [h] at hzero
      have h0 : b &&& (bitmapOffset i).2 = 0 := hzero.mpr (by simp)
      simp [h0]
  | true =>
      rw [h] at hzero
      have h0 : b &&& (bitmapOffset i).2 ≠ 0 := fun he => by simpa using hzero.mp he
      simpa using h0

/-- A bit in terms of the byte that holds it. -/
theorem get_eq (bm : List UInt8) (i : ℕ) :
    get bm i = bm[i / 8]?.any fun b => b.toNat.testBit (7 - i % 8) := by
  unfold get
  congr 1
  funext b
  exact and_mask_ne_zero b i

theorem get_of_length_le {bm : List UInt8} {i : ℕ} (h : 8 * bm.length ≤ i) : get bm i = false := by
  rw [get_eq, List.getElem?_eq_none (by omega)]
  rfl

@[simp] theorem length_set (bm : List UInt8) (i : ℕ) : (set bm i).length = bm.length := by
  simp [set]

/-- A bit after a change of one byte. -/
theorem get_modify (bm : List UInt8) (i j : ℕ) (f : UInt8 → UInt8) :
    get (bm.modify (bitmapOffset i).1 f) j =
      if i / 8 = j / 8 then bm[j / 8]?.any fun b => (f b).toNat.testBit (7 - j % 8)
      else get bm j := by
  have hidx : (bitmapOffset i).1 = i / 8 := rfl
  rw [get_eq, get_eq, hidx, List.getElem?_modify]
  split
  · cases bm[j / 8]? <;> rfl
  · cases bm[j / 8]? <;> rfl

/-- **Setting a bit sets that bit only.** -/
theorem get_set (bm : List UInt8) (i j : ℕ) :
    get (set bm i) j = (get bm j || (decide (i = j) && decide (i < 8 * bm.length))) := by
  rw [set, get_modify]
  split
  · next hbyte =>
      rw [get_eq]
      cases hb : bm[j / 8]? with
      | none =>
          have hlen := List.getElem?_eq_none_iff.mp hb
          have hlt : ¬ i < 8 * bm.length := by omega
          simp [hlt]
      | some b =>
          have hlen := (List.getElem?_eq_some_iff.mp hb).1
          have hlt : i < 8 * bm.length := by omega
          simp only [Option.any_some, UInt8.toNat_or, toNat_mask, Nat.testBit_or,
            Nat.testBit_two_pow, hlt, decide_true, Bool.and_true]
          congr 1
          rw [decide_eq_decide]
          omega
  · next hbyte =>
      have hij : i ≠ j := fun h => hbyte (h ▸ rfl)
      simp [hij]

theorem get_set_self {bm : List UInt8} {i : ℕ} (h : i < 8 * bm.length) :
    get (set bm i) i = true := by
  simp [get_set, h]

theorem get_set_of_get {bm : List UInt8} {j : ℕ} (i : ℕ) (h : get bm j = true) :
    get (set bm i) j = true := by
  simp [get_set, h]

theorem eq_or_get_of_get_set {bm : List UInt8} {i j : ℕ} (h : get (set bm i) j = true) :
    j = i ∨ get bm j = true := by
  rw [get_set, Bool.or_eq_true, Bool.and_eq_true, decide_eq_true_eq] at h
  rcases h with h | ⟨rfl, -⟩
  · exact Or.inr h
  · exact Or.inl rfl

@[simp] theorem length_clear (bm : List UInt8) (i : ℕ) : (clear bm i).length = bm.length := by
  simp [clear]

/-- A byte with one bit cleared. -/
theorem testBit_and_not_mask (b : UInt8) (i : ℕ) {k : ℕ} (hk : k < 8) :
    (b &&& ~~~(bitmapOffset i).2).toNat.testBit k =
      (b.toNat.testBit k && decide (k ≠ 7 - i % 8)) := by
  have h : ∀ r k : Fin 8, (~~~(1 <<< (7 - r.val).toUInt8 : UInt8)).toNat.testBit k.val =
      decide (k.val ≠ 7 - r.val) := by decide
  rw [UInt8.toNat_and, Nat.testBit_and]
  exact congrArg _ (h ⟨i % 8, Nat.mod_lt i (by decide)⟩ ⟨k, hk⟩)

/-- **Clearing a bit clears that bit only.** -/
theorem get_clear (bm : List UInt8) (i j : ℕ) :
    get (clear bm i) j = (get bm j && decide (i ≠ j)) := by
  rw [clear, get_modify]
  split
  · next hbyte =>
      rw [get_eq]
      cases bm[j / 8]? with
      | none => rfl
      | some b =>
          simp only [Option.any_some]
          rw [testBit_and_not_mask b i (by omega)]
          congr 1
          rw [decide_eq_decide]
          omega
  · next hbyte =>
      have hij : i ≠ j := fun h => hbyte (h ▸ rfl)
      simp [hij]

/-- **The bits determine a bitmap** of a given length. -/
theorem ext_get {a b : List UInt8} (hlen : a.length = b.length)
    (h : ∀ i < 8 * a.length, get a i = get b i) : a = b := by
  apply List.ext_getElem hlen
  intro k ha hb
  apply UInt8.toNat_inj.mp
  apply Nat.eq_of_testBit_eq
  intro j
  by_cases hj : j < 8
  · have hbit := h (8 * k + (7 - j)) (by omega)
    have hdiv : (8 * k + (7 - j)) / 8 = k := by omega
    have hmod : 7 - (8 * k + (7 - j)) % 8 = j := by omega
    rw [get_eq, get_eq, hdiv, hmod, List.getElem?_eq_getElem ha, List.getElem?_eq_getElem hb] at hbit
    exact hbit
  · have hlarge : ∀ c : UInt8, c.toNat.testBit j = false := by
      intro c
      apply Nat.testBit_lt_two_pow
      calc c.toNat < 2 ^ 8 := c.toNat_lt
        _ ≤ 2 ^ j := Nat.pow_le_pow_right (by decide) (by omega)
    rw [hlarge, hlarge]

theorem get_replicate_zero (n i : ℕ) : get (List.replicate n 0) i = false := by
  rw [get_eq]
  cases h : (List.replicate n (0 : UInt8))[i / 8]? with
  | none => rfl
  | some b =>
      have hb : b = 0 := List.eq_of_mem_replicate (List.mem_of_getElem? h)
      simp [hb]

/-! ## Scanning -/

theorem onesN_le (bm : List UInt8) (k i : ℕ) : onesN bm k i ≤ k := by
  induction k generalizing i with
  | zero => exact le_rfl
  | succ k ih =>
      rw [onesN]
      split
      · have := ih (i + 1)
        omega
      · omega

theorem get_of_lt_onesN (bm : List UInt8) {k : ℕ} :
    ∀ {i j : ℕ}, j < onesN bm k i → get bm (i + j) = true := by
  induction k with
  | zero => intro i j h; cases h
  | succ k ih =>
      intro i j h
      rw [onesN] at h
      split at h
      · next hget =>
          cases j with
          | zero => exact hget
          | succ j =>
              have := ih (i := i + 1) (j := j) (by omega)
              rwa [Nat.add_right_comm] at this
      · omega

theorem get_add_onesN (bm : List UInt8) {k : ℕ} :
    ∀ {i : ℕ}, onesN bm k i < k → get bm (i + onesN bm k i) = false := by
  induction k with
  | zero => intro i h; cases h
  | succ k ih =>
      intro i h
      rw [onesN] at h ⊢
      split at h
      · next hget =>
          rw [if_pos hget]
          have := ih (i := i + 1) (by omega)
          rwa [Nat.add_right_comm] at this
      · next hget =>
          rw [if_neg hget]
          simpa using hget

/-- The scan only passes set bits. -/
theorem get_of_lt_ones {bm : List UInt8} {i j : ℕ} (h : j < ones bm i) : get bm (i + j) = true :=
  get_of_lt_onesN bm h

/-- The scan ends with the bitmap. -/
theorem ones_le (bm : List UInt8) (i : ℕ) : ones bm i ≤ 8 * bm.length - i := onesN_le bm _ i

/-- The scan stops at a clear bit. -/
theorem get_add_ones (bm : List UInt8) (i : ℕ) : get bm (i + ones bm i) = false := by
  have hle := onesN_le bm (8 * bm.length - i) i
  rcases Nat.lt_or_ge (ones bm i) (8 * bm.length - i) with h | h
  · exact get_add_onesN bm h
  · exact get_of_length_le (by omega)

end Bitmap
