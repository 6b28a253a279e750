/-
# The target of a refresh (`bt/dht/routing.rs`)

To refresh a bucket the node looks for an id that `Bucket::random_node` draws from it.  The id
takes over the bytes before the end of the prefix and gets random bytes behind it; in the byte
between, a mask keeps the bits of the prefix and a random number fills the others.

* `Bucket.Drawn` are the ids that can come out of `random_node`;
* `get_randomNode`: bit by bit, what is drawn.  The mask keeps one bit more than the prefix has;
* `Bucket.drawn_iff`: the ids that are drawn are those of one half of the bucket.
-/
import Dorodoro.RoutingTable

open Bitmap Transition

namespace Routing

variable {b : Bucket} {id : NodeId}

/-- The ids that `random_node` can return; `random_range(..offset)` is below `offset`. -/
def Bucket.Drawn (b : Bucket) (id : NodeId) : Prop :=
  ∃ fill low, low < (bitmapOffset b.prefixLen).2 ∧ b.randomNode fill low = some id

/-- **Coverage.**  The ids that are drawn are those of the bucket. -/
def Bucket.Coverage (b : Bucket) : Prop := ∀ id, b.Drawn id ↔ b.contains id = some true

/-! ## The byte at the end of the prefix -/

/-- The mask keeps the bit of its index and those before it. -/
theorem testBit_highMask (i : ℕ) {t : ℕ} (ht : t < 8) :
    ((255 : UInt8) - ((bitmapOffset i).2 - 1)).toNat.testBit t = decide (7 - i % 8 ≤ t) := by
  have h : ∀ r t : Fin 8, ((255 : UInt8) - ((1 <<< (7 - r.val).toUInt8) - 1)).toNat.testBit t.val =
      decide (7 - r.val ≤ t.val) := by decide
  exact h ⟨i % 8, Nat.mod_lt i (by decide)⟩ ⟨t, ht⟩

theorem toNat_mask_sub_one (i : ℕ) : ((bitmapOffset i).2 - 1).toNat = 2 ^ (7 - i % 8) - 1 := by
  have h : ∀ r : Fin 8, ((1 <<< (7 - r.val).toUInt8 : UInt8) - 1).toNat = 2 ^ (7 - r.val) - 1 := by
    decide
  exact h ⟨i % 8, Nat.mod_lt i (by decide)⟩

/-- A byte below the mask has no bit at it or above. -/
theorem testBit_of_lt_mask {i t : ℕ} {low : UInt8} (h : low < (bitmapOffset i).2)
    (ht : 7 - i % 8 ≤ t) : low.toNat.testBit t = false := by
  have hlt : low.toNat < 2 ^ (7 - i % 8) := by
    rw [← toNat_mask]
    exact UInt8.lt_iff_toNat_lt.mp h
  exact Nat.testBit_lt_two_pow (hlt.trans_le (Nat.pow_le_pow_right (by decide) ht))

/-! ## The ids that are drawn -/

theorem NodeId.get_eq_testBit (id : NodeId) {i : ℕ} (hi : i < 160) :
    get id.bytes i = (id.bytes.getD (i / 8) 0).toNat.testBit (7 - i % 8) := by
  have hlt : i / 8 < id.bytes.length := by rw [id.length_bytes]; omega
  rw [get_eq, List.getD_eq_getElem?_getD, List.getElem?_eq_getElem hlt]
  rfl

/-- **Bit by bit.**  The prefix is kept up to and with the bit behind its end. -/
theorem get_randomNode {fill : ℕ → UInt8} {low : UInt8} (hlow : low < (bitmapOffset b.prefixLen).2)
    (h : b.randomNode fill low = some id) {i : ℕ} (hi : i < 160) :
    get id.bytes i =
      if i ≤ b.prefixLen then get b.prefixId.bytes i
      else if i / 8 = b.prefixLen / 8 then low.toNat.testBit (7 - i % 8)
      else (fill (i / 8)).toNat.testBit (7 - i % 8) := by
  have hbyte : id.bytes.getD (i / 8) 0 =
      if i / 8 < b.prefixLen / 8 then b.prefixId.bytes.getD (i / 8) 0
      else if i / 8 = b.prefixLen / 8 then
        (b.prefixId.bytes.getD (i / 8) 0 &&& (255 - ((bitmapOffset b.prefixLen).2 - 1))) ||| low
      else fill (i / 8) := by
    have hlt : i / 8 < 20 := by omega
    rw [Bucket.randomNode] at h
    obtain ⟨-, hid⟩ := of_ite_eq_some h
    rw [← hid]
    simp [bitmapOffset, hlt]
  rw [id.get_eq_testBit hi, b.prefixId.get_eq_testBit hi, hbyte]
  have ht : 7 - i % 8 < 8 := by omega
  rcases Nat.lt_trichotomy (i / 8) (b.prefixLen / 8) with hlt | heq | hgt
  · rw [if_pos hlt, if_pos (by omega)]
  · rw [if_neg (by omega), if_pos heq, if_pos heq, UInt8.toNat_or, UInt8.toNat_and,
      Nat.testBit_or, Nat.testBit_and, testBit_highMask _ ht]
    split
    · next hle =>
        have hpos : 7 - b.prefixLen % 8 ≤ 7 - i % 8 := by omega
        rw [testBit_of_lt_mask hlow hpos, decide_eq_true hpos, Bool.and_true, Bool.or_false]
    · next hgt =>
        rw [decide_eq_false (by omega), Bool.and_false, Bool.false_or]
  · rw [if_neg (by omega), if_neg (by omega), if_neg (by omega), if_neg (by omega)]

/-- **What is drawn.**  An id can be drawn if it has the bits of the prefix and the one bit
behind it. -/
theorem Bucket.drawn_iff (h : b.prefixLen < 160) :
    b.Drawn id ↔ ∀ i ≤ b.prefixLen, get b.prefixId.bytes i = get id.bytes i := by
  constructor
  · rintro ⟨fill, low, hlow, hrandom⟩ i hi
    rw [get_randomNode hlow hrandom (by omega), if_pos hi]
  · intro hbits
    -- the random numbers are the bytes of the id
    set low := id.bytes.getD (b.prefixLen / 8) 0 &&& ((bitmapOffset b.prefixLen).2 - 1) with hlowDef
    have htoNat : low.toNat =
        (id.bytes.getD (b.prefixLen / 8) 0).toNat &&& (2 ^ (7 - b.prefixLen % 8) - 1) := by
      rw [hlowDef, UInt8.toNat_and, toNat_mask_sub_one]
    have hlow : low < (bitmapOffset b.prefixLen).2 := by
      rw [UInt8.lt_iff_toNat_lt, toNat_mask, htoNat]
      have hpow : 0 < 2 ^ (7 - b.prefixLen % 8) := by positivity
      calc _ ≤ 2 ^ (7 - b.prefixLen % 8) - 1 := Nat.and_le_right
        _ < 2 ^ (7 - b.prefixLen % 8) := by omega
    have hindex : (bitmapOffset b.prefixLen).1 < 20 := show b.prefixLen / 8 < 20 by omega
    obtain ⟨id', hrandom⟩ : ∃ id', b.randomNode (fun j => id.bytes.getD j 0) low = some id' :=
      ⟨_, if_pos hindex⟩
    have hsame : id' = id := by
      refine NodeId.ext_get fun i hi => ?_
      rw [get_randomNode hlow hrandom hi]
      split
      · next hle => exact hbits i hle
      · next hgt =>
          rw [id.get_eq_testBit hi]
          split
          · next heq =>
              rw [htoNat, Nat.testBit_and, Nat.testBit_two_pow_sub_one,
                decide_eq_true (by omega), Bool.and_true, heq]
          · rfl
    exact ⟨_, low, hlow, hsame ▸ hrandom⟩

/-- What is drawn lies in the bucket, in the half of it whose next bit is that of the prefix. -/
theorem Bucket.drawn_iff_contains (h : b.prefixLen < 160) :
    b.Drawn id ↔ b.contains id = some true ∧
      get b.prefixId.bytes b.prefixLen = get id.bytes b.prefixLen := by
  rw [Bucket.drawn_iff h, Bucket.contains_eq h.le, Option.some.injEq, Bucket.covers_iff]
  constructor
  · intro hbits
    exact ⟨fun i hi => hbits i hi.le, hbits _ le_rfl⟩
  · rintro ⟨hbits, hlast⟩ i hi
    rcases Nat.lt_or_eq_of_le hi with hlt | rfl
    · exact hbits i hlt
    · exact hlast

/-- In every bucket lies an id of the other half. -/
theorem Bucket.exists_contains (h : b.prefixLen < 160) :
    ∃ id, b.contains id = some true ∧
      get b.prefixId.bytes b.prefixLen ≠ get id.bytes b.prefixLen := by
  have hlen : b.prefixLen < 8 * b.prefixId.bytes.length := by
    rw [b.prefixId.length_bytes]
    exact h
  simp only [Bucket.contains_eq h.le, Option.some.injEq, Bucket.covers_iff]
  cases hbit : get b.prefixId.bytes b.prefixLen with
  | false =>
      refine ⟨b.prefixId.setBit b.prefixLen, fun i hi => ?_, ?_⟩
      · show _ = get (set b.prefixId.bytes b.prefixLen) i
        rw [get_set, decide_eq_false (by omega), Bool.false_and, Bool.or_false]
      · show false ≠ get (set b.prefixId.bytes b.prefixLen) b.prefixLen
        rw [get_set_self hlen]
        exact Bool.false_ne_true
  | true =>
      refine ⟨b.prefixId.clearBit b.prefixLen, fun i hi => ?_, ?_⟩
      · show _ = get (clear b.prefixId.bytes b.prefixLen) i
        rw [get_clear, decide_eq_true (by omega), Bool.and_true]
      · show true ≠ get (clear b.prefixId.bytes b.prefixLen) b.prefixLen
        rw [get_clear]
        simp

theorem Bucket.not_coverage (h : b.prefixLen < 160) : ¬ b.Coverage := by
  intro hcoverage
  obtain ⟨id, hid, hne⟩ := Bucket.exists_contains h
  exact hne ((Bucket.drawn_iff_contains h).mp ((hcoverage id).mpr hid)).2

/-- **Half of the bucket.**  In every table that comes about by the operations, for every bucket:
what is drawn is what the bucket contains and has the bit behind the prefix as the prefix has it.
No bucket is covered. -/
theorem randomNode_half (ownId : NodeId) (now : ℕ) (ops : List Op) :
    ∃ T, exec step (RoutingTable.new ownId now) ops = some T ∧
      ∀ b ∈ T.buckets, b.prefixLen < 160 ∧ ¬ b.Coverage ∧
        ∀ id, b.Drawn id ↔ b.contains id = some true ∧
          get b.prefixId.bytes b.prefixLen = get id.bytes b.prefixLen := by
  obtain ⟨T, hexec, -, hinv⟩ := (RoutingTable.inv_new ownId now).exec ops
  refine ⟨T, hexec, fun b hb => ?_⟩
  have hlen := (Partition.inv hinv b hb).prefixLen_lt
  exact ⟨hlen, Bucket.not_coverage hlen, fun id => Bucket.drawn_iff_contains hlen⟩

/-- The id `80 00 ...`. -/
def upperId : NodeId := NodeId.zero.setBit 0

/-- In a new table there is one bucket for all ids, and `80 00 ...` is never drawn from it. -/
theorem new_not_coverage :
    exec step (RoutingTable.new .zero 0) [] = some (RoutingTable.new .zero 0) ∧
      ∃ b ∈ (RoutingTable.new .zero 0).buckets, b.prefixLen < 160 ∧
        b.contains upperId = some true ∧ ¬ b.Drawn upperId := by
  refine ⟨rfl, _, List.mem_singleton_self _, by decide, by decide, fun hdrawn => ?_⟩
  have hbit := ((Bucket.drawn_iff_contains (by decide)).mp hdrawn).2
  exact absurd hbit (by decide)

end Routing
