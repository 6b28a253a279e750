/-
# Dictionaries in any order (`lib/bendy`)

`Encoder::emit_and_sort_dict` takes the pairs of a dictionary in any order: every value is written
by an encoder of its own, the bytes are kept in a map, and the map is written at the end.

* `UnsortedDictEncoder`, `emitPairWith`, `emitAndSortDict` follow the source (`encoder.rs`);
* `Value.depth` and `observe_value`: what the structure checker says to a value, wherever it stands,
  so that the encoder of its own fails where the outer one would;
* `emitAndSortDict_collect`: the pairs are written as the map that holds them is;
* `error_of_duplicate`: a key that comes twice is an error, unless the callback goes on behind it
  (`emitIgnoring_error`).
-/
import Dorodoro.CanonicalValues

namespace Bendy

/-! ## `String::from_utf8_lossy` -/

/-- The bytes that follow the first byte of a character: how many, and the range of the next. -/
def utf8Width (b : UInt8) : Option (ℕ × UInt8 × UInt8) :=
  if 0xC2 ≤ b ∧ b ≤ 0xDF then some (1, 0x80, 0xBF)
  else if b = 0xE0 then some (2, 0xA0, 0xBF)
  else if b = 0xED then some (2, 0x80, 0x9F)
  else if 0xE1 ≤ b ∧ b ≤ 0xEF then some (2, 0x80, 0xBF)
  else if b = 0xF0 then some (3, 0x90, 0xBF)
  else if 0xF1 ≤ b ∧ b ≤ 0xF3 then some (3, 0x80, 0xBF)
  else if b = 0xF4 then some (3, 0x80, 0x8F)
  else none

/-- The bytes of a character behind its first one, as far as they are there. -/
def utf8Tail : ℕ → UInt8 → UInt8 → Bytes → Bytes
  | n + 1, lo, hi, b :: bs => if lo ≤ b ∧ b ≤ hi then b :: utf8Tail n 0x80 0xBF bs else []
  | _, _, _, _ => []

/-- The start of a character that is none is replaced. -/
def utf8LossyN : ℕ → Bytes → List Char
  | k + 1, b :: bs =>
      if b < 0x80 then Char.ofNat b.toNat :: utf8LossyN k bs
      else
        match utf8Width b with
        | none => '\uFFFD' :: utf8LossyN k bs
        | some (n, lo, hi) =>
            let tail := utf8Tail n lo hi bs
            let code := tail.foldl (fun acc c => acc * 64 + c.toNat % 64) (b.toNat % 2 ^ (6 - n))
            (if tail.length = n then Char.ofNat code else '\uFFFD') ::
              utf8LossyN k (bs.drop tail.length)
  | _, _ => []

/-- `String::from_utf8_lossy`. -/
def utf8Lossy (s : Bytes) : String := String.ofList (utf8LossyN s.length s)

/-! ## The code -/

/-- `UnsortedDictEncoder`; the map is sorted by its keys. -/
structure UnsortedDictEncoder where
  content : List (Bytes × Bytes)
  error : Except EncodeError Unit
  remainingDepth : ℕ

/-- `UnsortedDictEncoder::new`. -/
def UnsortedDictEncoder.new (remainingDepth : ℕ) : UnsortedDictEncoder :=
  ⟨[], .ok (), remainingDepth⟩

/-- What a call on the encoder of a dictionary returns, and the encoder behind it. -/
abbrev EmitPairs := UnsortedDictEncoder → Except EncodeError Unit × UnsortedDictEncoder

/-- `VacantEntry::insert`. -/
def insertRaw (k raw : Bytes) : List (Bytes × Bytes) → List (Bytes × Bytes)
  | [] => [(k, raw)]
  | (k', raw') :: content =>
      if k < k' then (k, raw) :: (k', raw') :: content else (k', raw') :: insertRaw k raw content

/-- `UnsortedDictEncoder::save_pair`. -/
def savePair (k raw : Bytes) : EmitPairs := fun s =>
  match s.error with
  | .error err => (.error err, s)
  | .ok () =>
      if k ∈ s.content.map Prod.fst then
        let err := .structureError (.invalidState ("Duplicate key " ++ utf8Lossy k))
        (.error err, { s with error := .error err })
      else (.ok (), { s with content := insertRaw k raw s.content })

/-- `StateTracker::observe_eof`. -/
def Encoder.observeEof (e : Encoder) : Except EncodeError Unit :=
  if e.state = [] then .ok () else .error (.structureError .unexpectedEof)

/-- `UnsortedDictEncoder::emit_pair_with`; the latched error is written anew. -/
def emitPairWith (k : Bytes) (value : Encode) : EmitPairs := fun s =>
  match value (Encoder.new s.remainingDepth) with
  | .error err => (.error err, { s with error := .error err })
  | .ok e =>
      match e.observeEof with
      | .error err => (.error err, { s with error := .error err })
      | .ok () => savePair k e.output { s with error := .ok () }

/-- `UnsortedDictEncoder::done`. -/
def UnsortedDictEncoder.done (s : UnsortedDictEncoder) : Except EncodeError (List (Bytes × Bytes)) :=
  s.error.map fun _ => s.content

/-- The loop of `Encoder::end_unsorted_dict`; the checker is shown a number for every value. -/
def emitContent : List (Bytes × Bytes) → Encode
  | [], e => .ok e
  | (k, raw) :: content, e =>
      ((emitBytes k e).bind (Encoder.write (.num []) raw)).bind (emitContent content)

/-- `Encoder::end_unsorted_dict`. -/
def endUnsortedDict (s : UnsortedDictEncoder) : Encode := fun e => do
  let content ← s.done
  let e ← emitContent content e
  emitToken .finish e

/-- `Encoder::emit_and_sort_dict`. -/
def emitAndSortDict (content : EmitPairs) : Encode := fun e => do
  let e ← emitToken .dict e
  match content (.new (e.maxDepth - e.state.length)) with
  | (.error err, _) => .error err
  | (.ok (), s) => endUnsortedDict s e

/-- A callback that hands an error on: `e.emit_pair(key, value)?;` for every pair. -/
def emitEach : List (Bytes × Encode) → EmitPairs
  | [], s => (.ok (), s)
  | (k, value) :: pairs, s =>
      match emitPairWith k value s with
      | (.error err, s') => (.error err, s')
      | (.ok (), s') => emitEach pairs s'

/-- A callback that goes on behind an error: `let _ = e.emit_pair(key, value);` for every pair. -/
def emitIgnoring : List (Bytes × Encode) → EmitPairs
  | [], s => (.ok (), s)
  | (k, value) :: pairs, s => emitIgnoring pairs (emitPairWith k value s).2

/-! ## Keys that come twice -/

theorem mem_insertRaw {k raw : Bytes} {content : List (Bytes × Bytes)} {k' : Bytes} :
    k' ∈ (insertRaw k raw content).map Prod.fst ↔ k' = k ∨ k' ∈ content.map Prod.fst := by
  induction content with
  | nil => simp [insertRaw]
  | cons pair content ih =>
      obtain ⟨k₁, raw₁⟩ := pair
      rw [insertRaw]
      split
      · simp
      · rw [List.map_cons, List.mem_cons, ih, List.map_cons, List.mem_cons]
        exact or_left_comm

/-- A pair that is accepted has a new key. -/
theorem emitPairWith_eq_ok {k : Bytes} {value : Encode} {s s' : UnsortedDictEncoder}
    (h : emitPairWith k value s = (.ok (), s')) :
    k ∉ s.content.map Prod.fst ∧ ∃ raw, s' = ⟨insertRaw k raw s.content, .ok (), s.remainingDepth⟩ := by
  revert h
  rw [emitPairWith]
  rcases value (Encoder.new s.remainingDepth) with err | e
  · rintro ⟨⟩
  · dsimp only
    rcases e.observeEof with err | _
    · rintro ⟨⟩
    · intro h
      by_cases hk : k ∈ s.content.map Prod.fst
      · simp [savePair, hk] at h
      · simp only [savePair, if_neg hk] at h
        exact ⟨hk, e.output, (Prod.mk.inj h).2.symm⟩

/-- The keys of pairs that are accepted are new, and none comes twice. -/
theorem nodup_of_emitEach {pairs : List (Bytes × Encode)} :
    ∀ {s s' : UnsortedDictEncoder}, emitEach pairs s = (.ok (), s') →
      (pairs.map Prod.fst).Nodup ∧ ∀ k ∈ pairs.map Prod.fst, k ∉ s.content.map Prod.fst := by
  induction pairs with
  | nil => exact fun _ => ⟨List.nodup_nil, nofun⟩
  | cons pair pairs ih =>
      intro s s' h
      obtain ⟨k, value⟩ := pair
      rw [emitEach] at h
      split at h
      · cases h
      · next s₁ hpair =>
          obtain ⟨hk, raw, rfl⟩ := emitPairWith_eq_ok hpair
          obtain ⟨hnodup, hnew⟩ := ih h
          have hrest : ∀ k' ∈ pairs.map Prod.fst, k' ≠ k ∧ k' ∉ s.content.map Prod.fst := by
            intro k' hk'
            have hnot := hnew k' hk'
            rw [mem_insertRaw, not_or] at hnot
            exact hnot
          refine ⟨List.nodup_cons.mpr ⟨fun hmem => (hrest k hmem).1 rfl, hnodup⟩, ?_⟩
          exact List.forall_mem_cons.mpr ⟨hk, fun k' hk' => (hrest k' hk').2⟩

/-- **A key that comes twice is an error**, whatever the values are. -/
theorem error_of_duplicate {pairs : List (Bytes × Encode)} (h : ¬ (pairs.map Prod.fst).Nodup)
    (e : Encoder) : ∃ err, emitAndSortDict (emitEach pairs) e = .error err := by
  show ∃ err, (emitToken .dict e).bind _ = .error err
  rcases emitToken .dict e with err | e'
  · exact ⟨err, rfl⟩
  · dsimp only [Except.bind]
    rcases hpairs : emitEach pairs (.new (e'.maxDepth - e'.state.length)) with ⟨err | _, s⟩
    · exact ⟨err, rfl⟩
    · exact absurd (nodup_of_emitEach hpairs).1 h

/-- **The latched error is forgotten**: behind a callback that goes on, only the last pair counts. -/
theorem emitIgnoring_error (pairs : List (Bytes × Encode)) (k : Bytes) (value : Encode)
    (s : UnsortedDictEncoder) :
    (emitIgnoring (pairs ++ [(k, value)]) s).2.error =
      (emitPairWith k value (emitIgnoring pairs s).2).1 := by
  induction pairs generalizing s with
  | nil =>
      show (emitPairWith k value s).2.error = (emitPairWith k value s).1
      unfold emitPairWith
      split
      · rfl
      · split
        · rfl
        · simp only [savePair]
          split_ifs <;> rfl
  | cons pair pairs ih => exact ih _

end Bendy

open Bendy

namespace DhtMessages

/-! ## The depth of a value -/

mutual

/-- How many lists and dictionaries stand around the innermost value. -/
def Value.depth : Value → ℕ
  | .bytes _ => 0
  | .integer _ => 0
  | .list items => itemsDepth items + 1
  | .dict entries => entriesDepth entries + 1

@[inherit_doc Value.depth]
def itemsDepth : List Value → ℕ
  | [] => 0
  | v :: items => max v.depth (itemsDepth items)

@[inherit_doc Value.depth]
def entriesDepth : List (Bytes × Value) → ℕ
  | [] => 0
  | (_, v) :: entries => max v.depth (entriesDepth entries)

end

theorem observeTokens_append (maxDepth : ℕ) (mustOrder : Bool) (stack : List State)
    (toks toks' : List Token) : observeTokens maxDepth mustOrder stack (toks ++ toks') =
      (observeTokens maxDepth mustOrder stack toks).bind
        (observeTokens maxDepth mustOrder · toks') := by
  induction toks generalizing stack with
  | nil => rfl
  | cons tok toks ih =>
      rw [List.cons_append, observeTokens, observeTokens]
      rcases observeToken maxDepth mustOrder stack tok with err | stack'
      · rfl
      · exact ih stack'

mutual

/-- **What the structure checker says to a value**, wherever one may stand. -/
theorem observe_value : ∀ (v : Value), v.Sound → ∀ {maxDepth : ℕ} {stack : List State},
    ¬ KeyDue stack → stack.length ≤ maxDepth → observeTokens maxDepth true stack v.tokens =
      if stack.length + v.depth ≤ maxDepth then .ok (afterValue stack)
        else .error .nestingTooDeep
  | .bytes s, _, maxDepth, stack, hdue, hlen => by
      rw [Value.tokens, observeTokens, observeToken_value (Or.inl ⟨s, rfl⟩) maxDepth true hdue,
        Value.depth, Nat.add_zero, if_pos hlen]
      rfl
  | .integer n, _, maxDepth, stack, hdue, hlen => by
      rw [Value.tokens, observeTokens, observeToken_value (Or.inr ⟨_, rfl⟩) maxDepth true hdue,
        Value.depth, Nat.add_zero, if_pos hlen]
      rfl
  | .list items, hitems, maxDepth, stack, hdue, hlen => by
      rw [Value.tokens, observeTokens, (observeToken_open_eq true hdue).1, Value.depth]
      by_cases hlt : stack.length < maxDepth
      · rw [if_pos hlt]
        have hroom : (afterValue stack).length < maxDepth := by rwa [length_afterValue]
        have hinner := observe_items items hitems (afterValue stack) hroom
        show observeTokens maxDepth true (.seq :: afterValue stack)
          (itemsTokens items ++ [.finish]) = _
        rw [observeTokens_append, hinner, length_afterValue, Nat.add_right_comm,
          Nat.add_assoc stack.length]
        split_ifs <;> rfl
      · rw [if_neg hlt, if_neg (by omega)]
        rfl
  | .dict entries, hentries, maxDepth, stack, hdue, hlen => by
      rw [Value.tokens, observeTokens, (observeToken_open_eq true hdue).2, Value.depth]
      by_cases hlt : stack.length < maxDepth
      · rw [if_pos hlt]
        have hroom : (afterValue stack).length < maxDepth := by rwa [length_afterValue]
        have hinner := observe_entries entries hentries (afterValue stack) hroom
        show observeTokens maxDepth true (.mapKey none :: afterValue stack)
          (entriesTokens entries ++ [.finish]) = _
        rw [observeTokens_append, hinner, length_afterValue, Nat.add_right_comm,
          Nat.add_assoc stack.length]
        split_ifs <;> rfl
      · rw [if_neg hlt, if_neg (by omega)]
        rfl

theorem observe_items : ∀ (items : List Value), itemsSound items → ∀ {maxDepth : ℕ}
    (stack : List State), stack.length < maxDepth →
      observeTokens maxDepth true (.seq :: stack) (itemsTokens items) =
        if stack.length + 1 + itemsDepth items ≤ maxDepth then .ok (.seq :: stack)
          else .error .nestingTooDeep
  | [], _, maxDepth, stack, hlen => by
      rw [itemsTokens, itemsDepth, if_pos (by omega)]
      rfl
  | v :: items, ⟨hv, hitems⟩, maxDepth, stack, hlen => by
      rw [itemsTokens, observeTokens_append, itemsDepth, observe_value v hv
        (not_keyDue_seq stack) hlen, List.length_cons]
      by_cases hdeep : stack.length + 1 + v.depth ≤ maxDepth
      · rw [if_pos hdeep]
        show observeTokens maxDepth true (.seq :: stack) (itemsTokens items) = _
        rw [observe_items items hitems stack hlen]
        split_ifs <;> first | rfl | omega
      · rw [if_neg hdeep, if_neg (by omega)]
        rfl

theorem observe_entries : ∀ (entries : List (Bytes × Value)) {last : Option Bytes},
    entriesSound last entries → ∀ {maxDepth : ℕ} (stack : List State),
      stack.length < maxDepth →
      observeTokens maxDepth true (.mapKey last :: stack) (entriesTokens entries) =
        if stack.length + 1 + entriesDepth entries ≤ maxDepth then
          .ok (.mapKey (lastKey last (entries.map Prod.fst)) :: stack)
        else .error .nestingTooDeep
  | [], last, _, maxDepth, stack, hlen => by
      rw [entriesTokens, entriesDepth, if_pos (by omega)]
      rfl
  | (k, v) :: entries, last, ⟨hlast, _, hv, hentries⟩, maxDepth, stack, hlen => by
      rw [entriesTokens, observeTokens, observeToken_key, if_pos hlast, entriesDepth]
      show observeTokens maxDepth true (.mapValue k :: stack) (v.tokens ++ entriesTokens entries) = _
      rw [observeTokens_append, observe_value v hv (not_keyDue_mapValue k stack) hlen, List.length_cons]
      by_cases hdeep : stack.length + 1 + v.depth ≤ maxDepth
      · rw [if_pos hdeep]
        show observeTokens maxDepth true (.mapKey (some k) :: stack) (entriesTokens entries) = _
        rw [observe_entries entries hentries stack hlen]
        split_ifs <;> first | rfl | omega
      · rw [if_neg hdeep, if_neg (by omega)]
        rfl

end

/-- What is written for a value. -/
def Value.raw (v : Value) : Bytes := v.tokens.flatMap Token.bytes

/-- **What the encoder makes of a value**, where one may stand. -/
theorem encode_value {v : Value} (hv : v.Sound) {e : Encoder} (hdue : ¬ KeyDue e.state)
    (hlen : e.state.length ≤ e.maxDepth) : v.encode e =
      if e.state.length + v.depth ≤ e.maxDepth then .ok (e.append v.raw (afterValue e.state))
      else .error (.structureError .nestingTooDeep) := by
  rw [encode_eq_emitTokens, emitTokens_eq, observe_value v hv hdue hlen]
  by_cases hdeep : e.state.length + v.depth ≤ e.maxDepth
  · rw [if_pos hdeep, if_pos hdeep]
    rfl
  · rw [if_neg hdeep, if_neg hdeep]

/-! ## The pairs as a map -/

/-- The pairs, collected in a `BTreeMap`. -/
def collect (pairs : List (Bytes × Value)) (m : List (Bytes × Value)) : List (Bytes × Value) :=
  pairs.foldl (fun m p => insertEntry p.1 p.2 m) m

/-- The pairs, with the encoders of their values. -/
def encoders (pairs : List (Bytes × Value)) : List (Bytes × Encode) :=
  pairs.map fun p => (p.1, p.2.encode)

/-- The entries of a map as they are kept. -/
def rawEntries (m : List (Bytes × Value)) : List (Bytes × Bytes) := m.map fun p => (p.1, p.2.raw)

theorem keys_rawEntries (m : List (Bytes × Value)) :
    (rawEntries m).map Prod.fst = m.map Prod.fst := by
  rw [rawEntries, List.map_map]
  rfl

/-- A new key goes to the same place in both maps. -/
theorem insertRaw_rawEntries {k : Bytes} {v : Value} {m : List (Bytes × Value)}
    (hk : k ∉ m.map Prod.fst) :
    insertRaw k v.raw (rawEntries m) = rawEntries (insertEntry k v m) := by
  induction m with
  | nil => rfl
  | cons p m ih =>
      obtain ⟨k', v'⟩ := p
      rw [List.map_cons, List.mem_cons, not_or] at hk
      rw [insertEntry, if_neg hk.1]
      show insertRaw k v.raw ((k', v'.raw) :: rawEntries m) = _
      rw [insertRaw, ih hk.2]
      split <;> rfl

theorem mem_keys_insertEntry {k k' : Bytes} {v : Value} {m : List (Bytes × Value)} :
    k' ∈ (insertEntry k v m).map Prod.fst ↔ k' = k ∨ k' ∈ m.map Prod.fst := by
  induction m with
  | nil => simp [insertEntry]
  | cons p m ih =>
      obtain ⟨k₁, v₁⟩ := p
      rw [insertEntry]
      split_ifs with hlt heq
      · simp
      · simp [heq]
      · rw [List.map_cons, List.mem_cons, ih, List.map_cons, List.mem_cons]
        exact or_left_comm

/-- **The keys of a map ascend** behind an insertion. -/
theorem entriesSound_insertEntry {k : Bytes} {v : Value} (hk : k.length < 2 ^ 64) (hv : v.Sound)
    {m : List (Bytes × Value)} : ∀ {last : Option Bytes}, last.all (· < k) = true →
      entriesSound last m → entriesSound last (insertEntry k v m) := by
  induction m with
  | nil => exact fun hlast _ => ⟨hlast, hk, hv, trivial⟩
  | cons p m ih =>
      intro last hlast hm
      obtain ⟨k', v'⟩ := p
      obtain ⟨hlast', hk', hv', hm⟩ := hm
      rw [insertEntry]
      split_ifs with hlt heq
      · exact ⟨hlast, hk, hv, decide_eq_true hlt, hk', hv', hm⟩
      · subst heq
        exact ⟨hlast, hk, hv, hm⟩
      · have hbehind : k' < k := by
          rcases List.le_iff_lt_or_eq.mp (List.not_lt.mp hlt) with hbehind | hsame
          · exact hbehind
          · exact absurd hsame.symm heq
        exact ⟨hlast', hk', hv', ih (decide_eq_true hbehind) hm⟩

/-- The depths in a map behind an insertion. -/
theorem entriesDepth_insertEntry {k : Bytes} {v : Value} {m : List (Bytes × Value)}
    (hk : k ∉ m.map Prod.fst) : entriesDepth (insertEntry k v m) = max v.depth (entriesDepth m) := by
  induction m with
  | nil => rfl
  | cons p m ih =>
      obtain ⟨k', v'⟩ := p
      rw [List.map_cons, List.mem_cons, not_or] at hk
      rw [insertEntry, if_neg hk.1]
      split_ifs
      · rfl
      · rw [entriesDepth, ih hk.2, entriesDepth, max_left_comm]

/-- A map only gets deeper with new keys. -/
theorem entriesDepth_le_collect {pairs : List (Bytes × Value)}
    (hnodup : (pairs.map Prod.fst).Nodup) : ∀ {m : List (Bytes × Value)},
      (∀ k ∈ pairs.map Prod.fst, k ∉ m.map Prod.fst) →
      entriesDepth m ≤ entriesDepth (collect pairs m) := by
  induction pairs with
  | nil => exact fun _ => Nat.le_refl _
  | cons p pairs ih =>
      intro m hnew
      obtain ⟨k, v⟩ := p
      obtain ⟨hk, hnodup⟩ := List.nodup_cons.mp hnodup
      obtain ⟨hnot, hnew⟩ := List.forall_mem_cons.mp hnew
      have hrest := ih hnodup (m := insertEntry k v m) fun k' hk' => by
        rw [mem_keys_insertEntry, not_or]
        exact ⟨fun he => hk (he ▸ hk'), hnew k' hk'⟩
      rw [entriesDepth_insertEntry hnot] at hrest
      exact (Nat.le_max_right v.depth _).trans hrest

/-- What one pair does to the map. -/
theorem emitPairWith_value {k : Bytes} {v : Value} (hv : v.Sound) {m : List (Bytes × Value)}
    (hk : k ∉ m.map Prod.fst) (depth : ℕ) :
    (v.depth ≤ depth → emitPairWith k v.encode ⟨rawEntries m, .ok (), depth⟩ =
      (.ok (), ⟨rawEntries (insertEntry k v m), .ok (), depth⟩)) ∧
    (depth < v.depth → ∃ s, emitPairWith k v.encode ⟨rawEntries m, .ok (), depth⟩ =
      (.error (.structureError .nestingTooDeep), s)) := by
  have hencode := encode_value hv (e := Encoder.new depth) not_keyDue_nil (Nat.zero_le _)
  have hzero : (Encoder.new depth).state.length + v.depth = v.depth := Nat.zero_add _
  rw [hzero] at hencode
  change v.encode (Encoder.new depth) = if v.depth ≤ depth then _ else _ at hencode
  constructor
  · intro hle
    rw [if_pos hle] at hencode
    rw [emitPairWith, hencode]
    show savePair k v.raw ⟨rawEntries m, .ok (), depth⟩ = _
    simp only [savePair, keys_rawEntries, if_neg hk, insertRaw_rawEntries hk]
  · intro hlt
    rw [if_neg (by omega)] at hencode
    rw [emitPairWith, hencode]
    exact ⟨_, rfl⟩

/-- **What the pairs do to the map**: they are collected in it, unless a value is too deep. -/
theorem emitEach_encoders {pairs : List (Bytes × Value)} (hsound : ∀ p ∈ pairs, p.2.Sound)
    (hnodup : (pairs.map Prod.fst).Nodup) (depth : ℕ) : ∀ {m : List (Bytes × Value)},
      (∀ k ∈ pairs.map Prod.fst, k ∉ m.map Prod.fst) → entriesDepth m ≤ depth →
      (entriesDepth (collect pairs m) ≤ depth →
        emitEach (encoders pairs) ⟨rawEntries m, .ok (), depth⟩ =
          (.ok (), ⟨rawEntries (collect pairs m), .ok (), depth⟩)) ∧
      (depth < entriesDepth (collect pairs m) → ∃ s,
        emitEach (encoders pairs) ⟨rawEntries m, .ok (), depth⟩ =
          (.error (.structureError .nestingTooDeep), s)) := by
  induction pairs with
  | nil =>
      intro m _ hm
      exact ⟨fun _ => rfl, fun hlt => absurd hm (Nat.not_le.mpr hlt)⟩
  | cons p pairs ih =>
      intro m hnew hm
      obtain ⟨k, v⟩ := p
      obtain ⟨hv, hsound⟩ := List.forall_mem_cons.mp hsound
      obtain ⟨hk, hnodup⟩ := List.nodup_cons.mp hnodup
      obtain ⟨hnot, hnew⟩ := List.forall_mem_cons.mp hnew
      obtain ⟨hfits, hdeep⟩ := emitPairWith_value hv hnot depth
      have hinsert := entriesDepth_insertEntry (v := v) hnot
      have hnew' : ∀ k' ∈ pairs.map Prod.fst, k' ∉ (insertEntry k v m).map Prod.fst := by
        intro k' hk'
        rw [mem_keys_insertEntry, not_or]
        exact ⟨fun he => hk (he ▸ hk'), hnew k' hk'⟩
      rcases Nat.lt_or_ge depth v.depth with hlt | hle
      · obtain ⟨s, hs⟩ := hdeep hlt
        have hmore := entriesDepth_le_collect hnodup hnew'
        rw [hinsert] at hmore
        refine ⟨fun hall => ?_, fun _ => ⟨s, ?_⟩⟩
        · have hall : entriesDepth (collect pairs (insertEntry k v m)) ≤ depth := hall
          omega
        · show emitEach ((k, v.encode) :: encoders pairs) _ = _
          rw [emitEach, hs]
      · have hstep : emitEach (encoders ((k, v) :: pairs)) ⟨rawEntries m, .ok (), depth⟩ =
            emitEach (encoders pairs) ⟨rawEntries (insertEntry k v m), .ok (), depth⟩ := by
          show emitEach ((k, v.encode) :: encoders pairs) _ = _
          rw [emitEach, hfits hle]
        rw [hstep]
        exact ih hsound hnodup hnew' (hinsert ▸ Nat.max_le.mpr ⟨hle, hm⟩)

/-- The keys of the collected pairs ascend. -/
theorem entriesSound_collect {pairs : List (Bytes × Value)}
    (hsound : ∀ p ∈ pairs, p.1.length < 2 ^ 64 ∧ p.2.Sound) : ∀ {m : List (Bytes × Value)},
      entriesSound none m → entriesSound none (collect pairs m) := by
  induction pairs with
  | nil => exact fun hm => hm
  | cons p pairs ih =>
      intro m hm
      obtain ⟨⟨hk, hv⟩, hsound⟩ := List.forall_mem_cons.mp hsound
      exact ih hsound (entriesSound_insertEntry hk hv rfl hm)

/-- What is written of the map. -/
theorem emitContent_rawEntries {m : List (Bytes × Value)} : ∀ {last : Option Bytes},
    entriesSound last m → ∀ {e : Encoder} {stack : List State}, e.state = .mapKey last :: stack →
      emitContent (rawEntries m) e = .ok (e.append ((entriesTokens m).flatMap Token.bytes)
        (.mapKey (lastKey last (m.map Prod.fst)) :: stack)) := by
  induction m with
  | nil =>
      intro last _ e stack hstate
      show Except.ok e = .ok _
      simp [Encoder.append, entriesTokens, lastKey, ← hstate]
  | cons p m ih =>
      intro last hm e stack hstate
      obtain ⟨k, v⟩ := p
      obtain ⟨hlast, -, -, hm⟩ := hm
      have hkey : emitBytes k e = .ok (e.append (PeerWire.emitBytes k) (.mapValue k :: stack)) := by
        rw [emitBytes, emitToken, Encoder.write, hstate, observeToken_key, if_pos hlast]
        rfl
      show ((emitBytes k e).bind (Encoder.write (.num []) v.raw)).bind
        (emitContent (rawEntries m)) = _
      rw [hkey]
      show emitContent (rawEntries m) ((e.append (PeerWire.emitBytes k)
        (.mapValue k :: stack)).append v.raw (.mapKey (some k) :: stack)) = _
      rw [ih hm rfl]
      simp [Encoder.append, entriesTokens, lastKey, Value.raw, Token.bytes]

/-- A dictionary is opened. -/
theorem observe_dict_eq_ok {maxDepth : ℕ} {stack state : List State}
    (h : observeToken maxDepth true stack .dict = .ok state) :
    stack.length < maxDepth ∧ state = .mapKey none :: afterValue stack := by
  have hdue : ¬ KeyDue stack := by
    rintro ⟨last, rest, rfl⟩
    match last with
    | none => cases h
    | some _ => cases h
  rw [(observeToken_open_eq true hdue).2] at h
  split_ifs at h with hlt
  exact ⟨hlt, (Except.ok.inj h).symm⟩

/-- **A dictionary in any order**: pairs with different keys are written as the map that holds
them is, and a key that comes twice is an error. -/
theorem emitAndSortDict_collect (pairs : List (Bytes × Value))
    (hsound : ∀ p ∈ pairs, p.1.length < 2 ^ 64 ∧ p.2.Sound) :
    if (pairs.map Prod.fst).Nodup then
      emitAndSortDict (emitEach (encoders pairs)) = (Value.dict (collect pairs [])).encode
    else ∀ e, ∃ err, emitAndSortDict (emitEach (encoders pairs)) e = .error err := by
  split_ifs with hnodup
  · funext e
    have hm : entriesSound none (collect pairs []) := entriesSound_collect hsound trivial
    show (emitToken .dict e).bind _ = (emitToken .dict e).bind fun e => (emitPairs
      (Value.encodeEntries (collect pairs [])) e).bind (emitToken .finish)
    rw [emitToken, Encoder.write]
    rcases hopen : observeToken e.maxDepth true e.state .dict with err | state
    · rfl
    · obtain ⟨hlen, rfl⟩ := observe_dict_eq_ok hopen
      -- the encoders of the values may nest as deep as the dictionary may here
      have hdepth : ∃ depth, e.maxDepth = (afterValue e.state).length + 1 + depth := by
        rw [length_afterValue]
        exact ⟨e.maxDepth - (e.state.length + 1), by omega⟩
      obtain ⟨depth, hdepth⟩ := hdepth
      obtain ⟨hfits, hdeep⟩ := emitEach_encoders (m := []) (fun p hp => (hsound p hp).2) hnodup
        depth (fun _ _ => List.not_mem_nil) (Nat.zero_le depth)
      have hroom : (afterValue e.state).length < e.maxDepth := by omega
      have hobserve := observe_entries (collect pairs []) hm (afterValue e.state) hroom
      have hrest : e.maxDepth - ((afterValue e.state).length + 1) = depth := by omega
      show (match emitEach (encoders pairs)
          (.new (e.maxDepth - ((afterValue e.state).length + 1))) with
        | (.error err, _) => Except.error err
        | (.ok (), s) => endUnsortedDict s (e.append [ascii 'd'] _)) =
          (emitPairs _ (e.append [ascii 'd'] _)).bind _
      rw [hrest, encodeEntries_eq_emitTokens, emitTokens_eq]
      change observeTokens (e.append [ascii 'd'] (.mapKey none :: afterValue e.state)).maxDepth
        true (e.append [ascii 'd'] (.mapKey none :: afterValue e.state)).state _ = _ at hobserve
      rw [hobserve]
      rcases Nat.lt_or_ge depth (entriesDepth (collect pairs [])) with hlt | hle
      · obtain ⟨s, hs⟩ := hdeep hlt
        rw [if_neg (by omega)]
        change emitEach (encoders pairs) (.new depth) = _ at hs
        rw [hs]
        rfl
      · rw [if_pos (by omega)]
        have hs := hfits hle
        change emitEach (encoders pairs) (.new depth) = _ at hs
        rw [hs]
        show (emitContent (rawEntries (collect pairs [])) _).bind _ = _
        rw [emitContent_rawEntries hm rfl]
  · intro e
    refine error_of_duplicate (fun h => hnodup ?_) e
    rwa [encoders, List.map_map] at h

theorem emitAndSortDict_two :
    emitAndSortDict (emitEach (encoders [(key "b", .integer 2), (key "a", .bytes [1])])) =
      (Value.dict [(key "a", .bytes [1]), (key "b", .integer 2)]).encode := by
  have hsound : ∀ p ∈ [(key "b", Value.integer 2), (key "a", .bytes [1])],
      p.1.length < 2 ^ 64 ∧ p.2.Sound := by
    have hinteger : (Value.integer 2).Sound := by simp [Value.Sound]
    have hbytes : (Value.bytes [1]).Sound := by simp [Value.Sound]
    exact List.forall_mem_cons.mpr ⟨⟨by decide +kernel, hinteger⟩,
      List.forall_mem_singleton.mpr ⟨by decide +kernel, hbytes⟩⟩
  have hab : key "a" < key "b" := by decide +kernel
  have hba : ¬ key "b" < key "a" := List.lt_asymm hab
  have hne : key "b" ≠ key "a" := fun h => List.lt_irrefl _ (h ▸ hab)
  have hcollect := emitAndSortDict_collect _ hsound
  rw [if_pos (by simp [hne])] at hcollect
  simpa [collect, insertEntry, hab, hba, hne] using hcollect

end DhtMessages
