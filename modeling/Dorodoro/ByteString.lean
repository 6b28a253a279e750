/-
# Strings with positions in bytes

A string is the list of its characters; positions in it count bytes of UTF-8.

* `splitAtByte` cuts a string at a position and fails inside a character; `slice` cuts out a part;
* `find` looks for a pattern;
* `slice_eq_some_iff` and `find_append` say what they give, and `exists_append_of_byteLen_le`
  compares two beginnings of one string.
-/
import Mathlib.Data.List.Infix
import Mathlib.Algebra.BigOperators.Group.List.Basic
import Mathlib.Algebra.GroupWithZero.Nat

namespace ByteString

/-- The length in bytes. -/
def byteLen (s : List Char) : ℕ := (s.map Char.utf8Size).sum

/-- `str::split_at_checked`: there is nothing to cut inside a character or behind the end. -/
def splitAtByte : List Char → ℕ → Option (List Char × List Char)
  | s, 0 => some ([], s)
  | [], _ + 1 => none
  | c :: s, n + 1 =>
      if c.utf8Size ≤ n + 1 then
        (splitAtByte s (n + 1 - c.utf8Size)).map fun (a, b) => (c :: a, b)
      else none

/-- `&s[start..stop]`, where it does not panic. -/
def slice (s : List Char) (start stop : ℕ) : Option (List Char) := do
  let (_, rest) ← splitAtByte s start
  let (part, _) ← splitAtByte rest (stop - start)
  return part

/-- `str::find`. -/
def find (pattern : List Char) : List Char → Option ℕ
  | [] => if pattern = [] then some 0 else none
  | c :: s =>
      if pattern <+: c :: s then some 0 else (find pattern s).map (c.utf8Size + ·)

/-- `str::strip_prefix`. -/
def stripPrefix (s pattern : List Char) : Option (List Char) :=
  if pattern <+: s then some (s.drop pattern.length) else none

@[simp] theorem byteLen_nil : byteLen [] = 0 := rfl

@[simp] theorem byteLen_cons (c : Char) (s : List Char) :
    byteLen (c :: s) = c.utf8Size + byteLen s := rfl

@[simp] theorem byteLen_append (s t : List Char) : byteLen (s ++ t) = byteLen s + byteLen t := by
  rw [byteLen, List.map_append, List.sum_append]
  rfl

theorem byteLen_eq_zero {s : List Char} : byteLen s = 0 ↔ s = [] := by
  cases s with
  | nil => simp
  | cons c s => simp [c.utf8Size_pos.ne']

/-- **A cut at the end of a part** gives the part. -/
theorem splitAtByte_append (a b : List Char) : splitAtByte (a ++ b) (byteLen a) = some (a, b) := by
  induction a with
  | nil => cases b <;> rfl
  | cons c a ih =>
      obtain ⟨n, hn⟩ : ∃ n, byteLen (c :: a) = n + 1 :=
        ⟨byteLen (c :: a) - 1, by have := c.utf8Size_pos; rw [byteLen_cons]; omega⟩
      have hrest : n + 1 - c.utf8Size = byteLen a := by rw [← hn, byteLen_cons]; omega
      have hle : c.utf8Size ≤ n + 1 := by rw [← hn, byteLen_cons]; omega
      rw [hn, List.cons_append, splitAtByte, if_pos hle, hrest, ih]
      rfl

/-- Every cut is at the end of a part. -/
theorem eq_append_of_splitAtByte {s a b : List Char} {n : ℕ} (h : splitAtByte s n = some (a, b)) :
    s = a ++ b ∧ byteLen a = n := by
  induction s generalizing n a with
  | nil =>
      cases n with
      | zero =>
          obtain ⟨rfl, rfl⟩ := Prod.mk.inj (Option.some.inj h)
          exact ⟨rfl, rfl⟩
      | succ n => cases h
  | cons c s ih =>
      cases n with
      | zero =>
          obtain ⟨rfl, rfl⟩ := Prod.mk.inj (Option.some.inj h)
          exact ⟨rfl, rfl⟩
      | succ n =>
          rw [splitAtByte] at h
          split at h
          · next hle =>
              obtain ⟨⟨a', b'⟩, hsplit, he⟩ := Option.map_eq_some_iff.mp h
              obtain ⟨rfl, rfl⟩ := Prod.mk.inj he
              obtain ⟨rfl, hlen⟩ := ih hsplit
              exact ⟨rfl, by rw [byteLen_cons, hlen]; omega⟩
          · cases h

/-- Of two beginnings of a string the one with fewer bytes is a beginning of the other. -/
theorem exists_append_of_byteLen_le {a b c d : List Char} (h : a ++ b = c ++ d)
    (hle : byteLen a ≤ byteLen c) : ∃ m, c = a ++ m := by
  rcases List.append_eq_append_iff.mp h with ⟨m, hc, -⟩ | ⟨m, ha, -⟩
  · exact ⟨m, hc⟩
  · have hm : m = [] := by
      rw [← byteLen_eq_zero]
      rw [ha, byteLen_append] at hle
      omega
    exact ⟨[], by rw [ha, hm]; simp⟩

/-- Two beginnings of one length are the same. -/
theorem eq_of_append_eq {a b c d : List Char} (h : a ++ b = c ++ d)
    (hlen : byteLen a = byteLen c) : a = c := by
  obtain ⟨m, rfl⟩ := exists_append_of_byteLen_le h hlen.le
  rw [byteLen_append] at hlen
  rw [byteLen_eq_zero.mp (by omega : byteLen m = 0), List.append_nil]

/-- What a slice is. -/
theorem slice_eq_some_iff {s part : List Char} {start stop : ℕ} (hle : start ≤ stop) :
    slice s start stop = some part ↔
      ∃ a b, s = a ++ part ++ b ∧ byteLen a = start ∧ byteLen (a ++ part) = stop := by
  constructor
  · intro h
    obtain ⟨⟨a, rest⟩, ha, h⟩ := Option.bind_eq_some_iff.mp h
    obtain ⟨⟨part', b⟩, hpart, h⟩ := Option.bind_eq_some_iff.mp h
    obtain rfl := Option.some.inj h
    obtain ⟨rfl, hlen⟩ := eq_append_of_splitAtByte ha
    obtain ⟨rfl, hlen'⟩ := eq_append_of_splitAtByte hpart
    exact ⟨a, b, (List.append_assoc _ _ _).symm, hlen, by rw [byteLen_append]; omega⟩
  · rintro ⟨a, b, rfl, rfl, rfl⟩
    have hpart : byteLen (a ++ part) - byteLen a = byteLen part := by
      rw [byteLen_append, Nat.add_sub_cancel_left]
    simp only [slice, List.append_assoc, splitAtByte_append, hpart, Option.bind_eq_bind,
      Option.bind_some, Option.pure_def]

theorem eq_append_of_find {pattern s : List Char} {n : ℕ} (h : find pattern s = some n) :
    ∃ a b, s = a ++ pattern ++ b ∧ byteLen a = n := by
  induction s generalizing n with
  | nil =>
      rw [find] at h
      split at h
      · next hnil =>
          obtain rfl := Option.some.inj h
          exact ⟨[], [], by rw [hnil]; rfl, rfl⟩
      · cases h
  | cons c s ih =>
      rw [find] at h
      split at h
      · next hprefix =>
          obtain rfl := Option.some.inj h
          obtain ⟨b, hb⟩ := hprefix
          exact ⟨[], b, hb.symm, rfl⟩
      · obtain ⟨m, hm, rfl⟩ := Option.map_eq_some_iff.mp h
        obtain ⟨a, b, rfl, rfl⟩ := ih hm
        exact ⟨c :: a, b, rfl, rfl⟩

/-- A pattern is found behind characters that it does not begin with. -/
theorem find_append {c : Char} {pattern a : List Char} (ha : c ∉ a) (b : List Char) :
    find (c :: pattern) (a ++ c :: pattern ++ b) = some (byteLen a) := by
  induction a with
  | nil => exact if_pos ⟨b, rfl⟩
  | cons x a ih =>
      have hne : ¬ c :: pattern <+: x :: (a ++ c :: pattern ++ b) := by
        rintro ⟨t, ht⟩
        exact ha ((List.cons.inj ht).1 ▸ List.mem_cons_self)
      show find _ (x :: (a ++ c :: pattern ++ b)) = _
      rw [find, if_neg hne, ih fun hc => ha (List.mem_cons_of_mem _ hc)]
      rfl

theorem find_eq_none {c : Char} {pattern s : List Char} (hs : c ∉ s) :
    find (c :: pattern) s = none := by
  cases h : find (c :: pattern) s with
  | none => rfl
  | some n =>
      obtain ⟨a, b, rfl, -⟩ := eq_append_of_find h
      exact absurd (by simp) hs

end ByteString
