/-
# Byte strings and big-endian integers

Byte strings, socket addresses, the reading of bytes as UTF-8, and the integer helpers of
`doro-util/src/bytes_util.rs`: `from_be_slice` reads a big-endian integer from the front of a
slice (missing high bytes are zero, extra bytes are ignored) and the `write_u16`/`write_u32`
family writes one.  Machine integers are natural numbers; the width is the number of bytes.
-/
import Mathlib.Data.List.Basic
import Mathlib.Data.List.Induction
import Mathlib.Tactic.Ring
import Mathlib.Tactic.Linarith

/-- A byte string (`Bytes`, `&[u8]`, `Vec<u8>`). -/
abbrev Bytes := List UInt8

/-- `SocketAddr`. -/
inductive SocketAddr where
  | v4 (ip port : ℕ)
  | v6 (ip port flowinfo scopeId : ℕ)
  deriving DecidableEq

/-- `String::from_utf8`. -/
def stringFromUtf8 (bytes : Bytes) : Option String := String.fromUTF8? ⟨bytes.toArray⟩

/-- `Bytes2Int::from_be_slice` for an integer of `size` bytes. -/
def fromBeSlice (size : ℕ) (data : Bytes) : ℕ :=
  (data.take size).foldl (fun acc b => acc * 256 + b.toNat) 0

/-- `n.to_be_bytes()` for an integer of `size` bytes (higher bytes are cut off). -/
def toBeBytes : ℕ → ℕ → Bytes
  | 0, _ => []
  | size + 1, n => toBeBytes size (n / 256) ++ [UInt8.ofNat n]

@[simp] theorem length_toBeBytes (size n : ℕ) : (toBeBytes size n).length = size := by
  induction size generalizing n with
  | zero => rfl
  | succ size ih => simp [toBeBytes, ih]

/-- Reading one more byte shifts what was read and adds the byte. -/
theorem fromBeSlice_concat (l : Bytes) (b : UInt8) (size : ℕ) (h : l.length = size) :
    fromBeSlice (size + 1) (l ++ [b]) = fromBeSlice size l * 256 + b.toNat := by
  unfold fromBeSlice
  rw [List.take_of_length_le (by simp [h]), List.take_of_length_le (by omega),
    List.foldl_append, List.foldl_cons, List.foldl_nil]

theorem fromBeSlice_congr {size : ℕ} {a b : Bytes} (h : a.take size = b.take size) :
    fromBeSlice size a = fromBeSlice size b := by
  rw [fromBeSlice, fromBeSlice, h]

/-- Only the first `size` bytes are read. -/
theorem fromBeSlice_append (l rest : Bytes) (size : ℕ) (h : l.length = size) :
    fromBeSlice size (l ++ rest) = fromBeSlice size l := by
  unfold fromBeSlice
  rw [List.take_left' h, List.take_of_length_le (by omega)]

/-- **Round trip.**  Reading back a written integer. -/
theorem fromBeSlice_toBeBytes (size n : ℕ) (h : n < 256 ^ size) :
    fromBeSlice size (toBeBytes size n) = n := by
  induction size generalizing n with
  | zero =>
      have hn : n = 0 := by simpa using h
      simp [hn, toBeBytes, fromBeSlice]
  | succ size ih =>
      rw [toBeBytes, fromBeSlice_concat _ _ _ (length_toBeBytes size _),
        ih (n / 256) (by rw [pow_succ] at h; omega)]
      have hb : (UInt8.ofNat n).toNat = n % 256 := by simp
      rw [hb]
      omega

/-- **Round trip.**  Writing back an integer that was read. -/
theorem toBeBytes_fromBeSlice (l : Bytes) : ∀ size, l.length = size →
    toBeBytes size (fromBeSlice size l) = l := by
  induction l using List.reverseRecOn with
  | nil =>
      intro size h
      subst h
      rfl
  | append_singleton l b ih =>
      intro size h
      obtain ⟨n, rfl⟩ : ∃ n, size = n + 1 := ⟨l.length, by simpa using h.symm⟩
      have hl : l.length = n := by simpa using h
      rw [fromBeSlice_concat l b n hl, toBeBytes]
      have hb : b.toNat < 256 := UInt8.toNat_lt b
      have hdiv : (fromBeSlice n l * 256 + b.toNat) / 256 = fromBeSlice n l := by omega
      have hmod : UInt8.ofNat (fromBeSlice n l * 256 + b.toNat) = b := by
        apply UInt8.toNat_inj.mp
        simp only [UInt8.toNat_ofNat']
        omega
      rw [hdiv, hmod, ih n hl]

/-- A big-endian integer of `size` bytes fits its width. -/
theorem fromBeSlice_lt (l : Bytes) (size : ℕ) (h : l.length = size) :
    fromBeSlice size l < 256 ^ size := by
  induction l using List.reverseRecOn generalizing size with
  | nil =>
      subst h
      simp [fromBeSlice]
  | append_singleton l b ih =>
      obtain ⟨n, rfl⟩ : ∃ n, size = n + 1 := ⟨l.length, by simpa using h.symm⟩
      have hl : l.length = n := by simpa using h
      have hb : b.toNat < 256 := UInt8.toNat_lt b
      have := ih n hl
      rw [fromBeSlice_concat l b n hl, pow_succ]
      omega

/-! ## Overwriting a range -/

/-- `buf[index..index + data.len()].copy_from_slice(data)`. -/
def writeAt (buf : Bytes) (index : ℕ) (data : Bytes) : Bytes :=
  buf.take index ++ data ++ buf.drop (index + data.length)

theorem length_writeAt {buf : Bytes} {index : ℕ} {data : Bytes}
    (h : index + data.length ≤ buf.length) : (writeAt buf index data).length = buf.length := by
  simp only [writeAt, List.length_append, List.length_take, List.length_drop]
  omega

/-- Writing what is there changes nothing. -/
theorem writeAt_eq_self_iff {buf : Bytes} {index : ℕ} {data : Bytes} :
    writeAt buf index data = buf ↔ (buf.drop index).take data.length = data := by
  have hsplit : buf =
      buf.take index ++ (buf.drop index).take data.length ++ buf.drop (index + data.length) := by
    rw [← List.drop_drop, List.append_assoc, List.take_append_drop, List.take_append_drop]
  conv_lhs => rhs; rw [hsplit]
  rw [writeAt, List.append_left_inj, List.append_right_inj]
  exact eq_comm

/-- Overwriting changes the range only. -/
theorem getElem?_writeAt {buf : Bytes} {index : ℕ} {data : Bytes}
    (h : index + data.length ≤ buf.length) (pos : ℕ) :
    (writeAt buf index data)[pos]? =
      if index ≤ pos ∧ pos < index + data.length then data[pos - index]? else buf[pos]? := by
  have htake : (buf.take index).length = index := by
    rw [List.length_take]
    omega
  rw [writeAt, List.append_assoc]
  split
  · next hin =>
      rw [List.getElem?_append_right (by omega), htake, List.getElem?_append_left (by omega)]
  · next hout =>
      rcases Nat.lt_or_ge pos index with hlt | hge
      · rw [List.getElem?_append_left (by omega), List.getElem?_take_of_lt hlt]
      · rw [List.getElem?_append_right (by omega), htake, List.getElem?_append_right (by omega),
          List.getElem?_drop]
        congr 1
        omega
