/-
# The canonical form of values (`lib/bendy`)

`Value` (`value.rs`) is the generic bencode value of the library.  Its decoder, which wants ascending
keys, accepts a byte string in front of the input if and only if the encoder writes this byte string
for the value that is returned.

* `Value.tokens`: the tokens of a value, `encode_eq_emitTokens` says that the encoder writes them;
* `Value.Sound`: the integers are 64 bits wide and the keys of a map ascend;
* `decodeValueN_of_scans` and `scans_of_decodeValueN`: the decoder reads them, and reads nothing
  else;
* `fromBencodeFirst_value_iff`: the two directions between values and bytes.
-/
import Dorodoro.BencodeTokens
import Dorodoro.KrpcCodec

open Bendy

namespace DhtMessages

/-! ## The tokens of a value -/

/-- `i64::to_string`. -/
def numeral (n : ℤ) : Bytes :=
  (if n < 0 then [ascii '-'] else []) ++ PeerWire.decimal n.natAbs

mutual

/-- The tokens of a value, in the order of `impl ToBencode for Value`. -/
def Value.tokens : Value → List Token
  | .bytes s => [.string s]
  | .integer n => [.num (numeral n)]
  | .list items => .list :: (itemsTokens items ++ [.finish])
  | .dict entries => .dict :: (entriesTokens entries ++ [.finish])

@[inherit_doc Value.tokens]
def itemsTokens : List Value → List Token
  | [] => []
  | v :: items => v.tokens ++ itemsTokens items

@[inherit_doc Value.tokens]
def entriesTokens : List (Bytes × Value) → List Token
  | [] => []
  | (k, v) :: entries => .string k :: (v.tokens ++ entriesTokens entries)

end

mutual

/-- The value is one of the type of the code: an `i64`, a `Vec`, a `BTreeMap` in the order of its
keys. -/
def Value.Sound : Value → Prop
  | .bytes s => s.length < 2 ^ 64
  | .integer n => -2 ^ 63 ≤ n ∧ n < 2 ^ 63
  | .list items => itemsSound items
  | .dict entries => entriesSound none entries

@[inherit_doc Value.Sound]
def itemsSound : List Value → Prop
  | [] => True
  | v :: items => v.Sound ∧ itemsSound items

/-- The keys ascend, from the last one on. -/
def entriesSound : Option Bytes → List (Bytes × Value) → Prop
  | _, [] => True
  | last, (k, v) :: entries =>
      last.all (· < k) = true ∧ k.length < 2 ^ 64 ∧ v.Sound ∧ entriesSound (some k) entries

end

/-! ## Encoding -/

theorem emitTokens_append (toks toks' : List Token) (e : Encoder) :
    emitTokens (toks ++ toks') e = (emitTokens toks e).bind (emitTokens toks') := by
  induction toks generalizing e with
  | nil => rfl
  | cons tok toks ih =>
      show (emitToken tok e).bind (emitTokens (toks ++ toks')) =
        ((emitToken tok e).bind (emitTokens toks)).bind (emitTokens toks')
      match emitToken tok e with
      | .error err => rfl
      | .ok e' => exact ih e'

theorem emitTokens_singleton (tok : Token) (e : Encoder) :
    emitTokens [tok] e = emitToken tok e := by
  show (emitToken tok e).bind Except.ok = _
  match emitToken tok e with
  | .error err => rfl
  | .ok e' => rfl

/-- The structure checker does not look at a number. -/
theorem observeToken_num (maxDepth : ℕ) (mustOrder : Bool) (stack : List State) (s s' : Bytes) :
    observeToken maxDepth mustOrder stack (.num s) =
      observeToken maxDepth mustOrder stack (.num s') := by
  match stack with
  | [] => rfl
  | .seq :: _ => rfl
  | .mapKey none :: _ => rfl
  | .mapKey (some _) :: _ => rfl
  | .mapValue _ :: _ => rfl

theorem encodeInteger_eq (n : ℤ) (e : Encoder) :
    encodeInteger n e = emitToken (.num (numeral n)) e := by
  rw [encodeInteger, emitToken, Encoder.write, Encoder.write,
    observeToken_num e.maxDepth true e.state [] (numeral n)]
  rfl

mutual

/-- **The encoder writes the tokens** of a value. -/
theorem encode_eq_emitTokens : ∀ (v : Value) (e : Encoder), v.encode e = emitTokens v.tokens e
  | .bytes s, e => (emitTokens_singleton (.string s) e).symm
  | .integer n, e => (encodeInteger_eq n e).trans (emitTokens_singleton _ e).symm
  | .list items, e => by
      show ((emitToken .list e).bind fun e => (emitItems (Value.encodeItems items) e).bind
        (emitToken .finish)) = (emitToken .list e).bind (emitTokens (itemsTokens items ++ [.finish]))
      congr 1
      funext e'
      rw [encodeItems_eq_emitTokens items, emitTokens_append]
      congr 1
      funext e''
      exact (emitTokens_singleton .finish e'').symm
  | .dict entries, e => by
      show ((emitToken .dict e).bind fun e => (emitPairs (Value.encodeEntries entries) e).bind
        (emitToken .finish)) =
          (emitToken .dict e).bind (emitTokens (entriesTokens entries ++ [.finish]))
      congr 1
      funext e'
      rw [encodeEntries_eq_emitTokens entries, emitTokens_append]
      congr 1
      funext e''
      exact (emitTokens_singleton .finish e'').symm

theorem encodeItems_eq_emitTokens : ∀ (items : List Value) (e : Encoder),
    emitItems (Value.encodeItems items) e = emitTokens (itemsTokens items) e
  | [], _ => rfl
  | v :: items, e => by
      show (v.encode e).bind (emitItems (Value.encodeItems items)) =
        emitTokens (v.tokens ++ itemsTokens items) e
      rw [encode_eq_emitTokens v e, emitTokens_append]
      congr 1
      funext e'
      exact encodeItems_eq_emitTokens items e'

theorem encodeEntries_eq_emitTokens : ∀ (entries : List (Bytes × Value)) (e : Encoder),
    emitPairs (Value.encodeEntries entries) e = emitTokens (entriesTokens entries) e
  | [], _ => rfl
  | (k, v) :: entries, e => by
      show ((emitToken (.string k) e).bind v.encode).bind
        (emitPairs (Value.encodeEntries entries)) =
          (emitToken (.string k) e).bind (emitTokens (v.tokens ++ entriesTokens entries))
      match emitToken (.string k) e with
      | .error err => rfl
      | .ok e' =>
          show (v.encode e').bind _ = emitTokens (v.tokens ++ entriesTokens entries) e'
          rw [encode_eq_emitTokens v e', emitTokens_append]
          congr 1
          funext e''
          exact encodeEntries_eq_emitTokens entries e''

end

/-- What is written for a value at the entry point. -/
theorem toBencode_value (v : Value) (maxDepth : ℕ) : Bendy.toBencode v.encode maxDepth =
    (emitTokens v.tokens (Encoder.new maxDepth)).bind Encoder.getOutput := by
  rw [Bendy.toBencode, encode_eq_emitTokens]
  match emitTokens v.tokens (Encoder.new maxDepth) with
  | .error err => rfl
  | .ok e => rfl

/-! ## Integers -/

theorem numeral_ofNat (n : ℕ) : numeral n = PeerWire.decimal n := by
  rw [numeral, if_neg (by omega), Int.natAbs_natCast]
  rfl

theorem numeral_neg {n : ℕ} (hn : 0 < n) :
    numeral (-(n : ℤ)) = ascii '-' :: PeerWire.decimal n := by
  rw [numeral, if_pos (by omega), Int.natAbs_neg, Int.natAbs_natCast]
  rfl

theorem head?_decimal_ne (n : ℕ) : (PeerWire.decimal n).head? ≠ some (ascii '-') := by
  rcases natural_decimal n with hzero | ⟨c, cs, hc, hdigit, -, -⟩
  · rw [hzero]
    decide
  · rw [hc]
    exact fun he => isDigit_ne hdigit (by decide) (Option.some.inj he)

/-- `i64::to_string` is a numeral, and `parse` reads it. -/
theorem numeral_parses {n : ℤ} (h : -2 ^ 63 ≤ n ∧ n < 2 ^ 63) :
    Numeral (numeral n) ∧ parseSigned 64 (numeral n) = some n := by
  rcases Int.eq_nat_or_neg n with ⟨m, rfl | rfl⟩
  · rw [numeral_ofNat]
    refine ⟨Or.inl (natural_decimal m), ?_⟩
    rw [parseSigned, if_neg (head?_decimal_ne m), digitsValue_decimal, if_pos (by omega)]
  · rcases Nat.eq_zero_or_pos m with rfl | hpos
    · exact ⟨Or.inl (natural_decimal 0), by decide +kernel⟩
    · rw [numeral_neg hpos]
      have hne : PeerWire.decimal m ≠ [ascii '0'] := by
        intro he
        have hvalue := digitsValue_decimal m
        rw [he] at hvalue
        have hnone : digitsValue [ascii '0'] = 0 := by decide
        omega
      refine ⟨Or.inr ⟨_, rfl, natural_decimal m, hne⟩, ?_⟩
      rw [parseSigned, List.head?_cons, if_pos rfl, List.tail_cons, digitsValue_decimal,
        if_pos (by omega)]

/-- **A numeral that is read is the one that is written.** -/
theorem numeral_of_parseSigned {s : Bytes} {n : ℤ} (hs : Numeral s)
    (h : parseSigned 64 s = some n) : numeral n = s ∧ -2 ^ 63 ≤ n ∧ n < 2 ^ 63 := by
  rw [parseSigned] at h
  rcases hs with hs | ⟨t, rfl, ht, hne⟩
  · have hhead : s.head? ≠ some (ascii '-') := by
      rw [← decimal_digitsValue hs]
      exact head?_decimal_ne _
    rw [if_neg hhead] at h
    split_ifs at h with hlt
    obtain rfl := Option.some.inj h
    rw [numeral_ofNat, decimal_digitsValue hs]
    exact ⟨rfl, by omega, by omega⟩
  · rw [List.head?_cons, if_pos rfl, List.tail_cons] at h
    split_ifs at h with hle
    obtain rfl := Option.some.inj h
    have hpos : 0 < digitsValue t := by
      rcases Nat.eq_zero_or_pos (digitsValue t) with hzero | hpos
      · have hsame := decimal_digitsValue ht
        rw [hzero] at hsame
        have hnone : PeerWire.decimal 0 = [ascii '0'] := by decide
        exact absurd (hsame.symm.trans hnone) hne
      · exact hpos
    rw [numeral_neg hpos, decimal_digitsValue ht]
    exact ⟨rfl, by omega, by omega⟩

/-! ## Maps -/

/-- All keys are up to the last one. -/
def UpTo (last : Option Bytes) (entries : List (Bytes × Value)) : Prop :=
  ∀ p ∈ entries, ∃ l, last = some l ∧ (p.1 = l ∨ p.1 < l)

theorem upTo_nil (last : Option Bytes) : UpTo last [] := nofun

theorem insertEntry_of_lt {k : Bytes} {v : Value} {entries : List (Bytes × Value)}
    (h : ∀ p ∈ entries, p.1 < k) : insertEntry k v entries = entries ++ [(k, v)] := by
  induction entries with
  | nil => rfl
  | cons p entries ih =>
      obtain ⟨hp, hrest⟩ := List.forall_mem_cons.mp h
      obtain ⟨k', v'⟩ := p
      have hne : k ≠ k' := fun he => List.lt_irrefl k' (he ▸ hp)
      rw [insertEntry, if_neg (List.lt_asymm hp), if_neg hne, ih hrest]
      rfl

/-- **A key behind the others** is inserted at the end. -/
theorem UpTo.insertEntry {last : Option Bytes} {entries : List (Bytes × Value)}
    (h : UpTo last entries) {k : Bytes} (hk : last.all (· < k) = true) (v : Value) :
    insertEntry k v entries = entries ++ [(k, v)] ∧ UpTo (some k) (entries ++ [(k, v)]) := by
  have hlt : ∀ p ∈ entries, p.1 < k := by
    intro p hp
    obtain ⟨l, rfl, hl⟩ := h p hp
    have hlk : l < k := of_decide_eq_true hk
    rcases hl with hl | hl
    · exact hl ▸ hlk
    · exact List.lt_trans hl hlk
  refine ⟨insertEntry_of_lt hlt, ?_⟩
  intro p hp
  rcases List.mem_append.mp hp with hp | hp
  · exact ⟨k, rfl, Or.inr (hlt p hp)⟩
  · exact ⟨k, rfl, Or.inl (congrArg Prod.fst (List.mem_singleton.mp hp))⟩

/-! ## Decoding what was encoded -/

mutual

/-- **The decoder reads the tokens** of a value, and makes this value of them. -/
theorem decodeValueN_of_scans : ∀ (v : Value), v.Sound → ∀ {k : ℕ} {d d' : Decoder},
    d.Scans v.tokens d' → d.remaining ≤ k →
    ∃ o d₁, d.nextObject = .ok (some o, d₁) ∧ decodeValueN k o d₁ = .ok (v, d')
  | .bytes s, _, k, d, d', ⟨d₁, htok, hend⟩, _ => by
      obtain rfl : d' = d₁ := hend
      exact ⟨_, d', nextObject_of_nextToken htok, decodeValueN_bytes k s d'⟩
  | .integer n, hn, k, d, d', ⟨d₁, htok, hend⟩, _ => by
      obtain rfl : d' = d₁ := hend
      refine ⟨_, d', nextObject_of_nextToken htok, ?_⟩
      rw [decodeValueN_integer, (numeral_parses hn).2]
  | .list items, hitems, k, d, d', ⟨d₁, htok, hrest⟩, hk => by
      have hless := (Decoder.nextToken_reads htok).remaining_lt
      obtain ⟨k, rfl⟩ : ∃ k', k = k' + 1 := ⟨k - 1, by omega⟩
      refine ⟨_, d₁, nextObject_of_nextToken htok, ?_⟩
      have hloop : listLoopN (decodeValueN k) (d₁.remaining + 1) [] d₁ = .ok (items, d') :=
        listLoopN_of_scans items hitems hrest (by omega) (Nat.lt_succ_self _)
      rw [decodeValueN, decodeVec, hloop]
      rfl
  | .dict entries, hentries, k, d, d', ⟨d₁, htok, hrest⟩, hk => by
      have hless := (Decoder.nextToken_reads htok).remaining_lt
      obtain ⟨k, rfl⟩ : ∃ k', k = k' + 1 := ⟨k - 1, by omega⟩
      refine ⟨_, d₁, nextObject_of_nextToken htok, ?_⟩
      have hloop : dictLoopN (valueEntry (decodeValueN k)) (d₁.remaining + 1) [] d₁ =
          .ok (entries, d') :=
        dictLoopN_of_scans entries hentries (upTo_nil none) hrest (by omega) (Nat.lt_succ_self _)
      rw [decodeValueN, dictLoop, hloop]
      rfl

theorem listLoopN_of_scans : ∀ (items : List Value), itemsSound items →
    ∀ {k j : ℕ} {results : List Value} {d d' : Decoder},
      d.Scans (itemsTokens items ++ [.finish]) d' → d.remaining ≤ k → d.remaining < j →
      listLoopN (decodeValueN k) j results d = .ok (results ++ items, d')
  | [], _, k, j, results, d, d', ⟨d₁, htok, hend⟩, _, hj => by
      obtain rfl : d' = d₁ := hend
      obtain ⟨j, rfl⟩ : ∃ j', j = j' + 1 := ⟨j - 1, by omega⟩
      rw [listLoopN, nextObject_of_nextToken htok, List.append_nil]
      rfl
  | v :: items, ⟨hv, hitems⟩, k, j, results, d, d', hscan, hk, hj => by
      obtain ⟨j, rfl⟩ : ∃ j', j = j' + 1 := ⟨j - 1, by omega⟩
      rw [itemsTokens, List.append_assoc, scans_append_iff] at hscan
      obtain ⟨d₂, hvalue, hrest⟩ := hscan
      obtain ⟨o, d₁, hobj, hdec⟩ := decodeValueN_of_scans v hv hvalue hk
      -- the item has used a byte
      have h₁ := Decoder.nextObject_reads hobj
      have hless := (h₁.trans ((decodeValueN_whole k).forward hdec h₁.offset_le)).remaining_lt
      rw [listLoopN, hobj]
      simp only [hdec]
      rw [listLoopN_of_scans items hitems hrest (by omega) (by omega), List.append_assoc]
      rfl

theorem dictLoopN_of_scans : ∀ (entries : List (Bytes × Value)) {last : Option Bytes},
    entriesSound last entries → ∀ {k j : ℕ} {acc : List (Bytes × Value)} {d d' : Decoder},
      UpTo last acc → d.Scans (entriesTokens entries ++ [.finish]) d' → d.remaining ≤ k →
      d.remaining < j →
      dictLoopN (valueEntry (decodeValueN k)) j acc d = .ok (acc ++ entries, d')
  | [], last, _, k, j, acc, d, d', _, ⟨d₁, htok, hend⟩, _, hj => by
      obtain rfl : d' = d₁ := hend
      obtain ⟨j, rfl⟩ : ∃ j', j = j' + 1 := ⟨j - 1, by omega⟩
      rw [dictLoopN, Decoder.nextPair_of_none (nextObject_of_nextToken htok), List.append_nil]
  | (label, v) :: entries, last, ⟨hlast, _, hv, hentries⟩, k, j, acc, d, d', hacc, hscan, hk,
      hj => by
      obtain ⟨j, rfl⟩ : ∃ j', j = j' + 1 := ⟨j - 1, by omega⟩
      obtain ⟨d₀, htok, hscan⟩ := hscan
      change d₀.Scans (v.tokens ++ entriesTokens entries ++ [.finish]) d' at hscan
      rw [List.append_assoc, scans_append_iff] at hscan
      obtain ⟨d₂, hvalue, hrest⟩ := hscan
      have h₀ := Decoder.nextToken_reads htok
      have hless₀ := h₀.remaining_lt
      obtain ⟨o, d₁, hobj, hdec⟩ := decodeValueN_of_scans v hv hvalue (by omega : _ ≤ k)
      have h₁ := Decoder.nextObject_reads hobj
      have hless := (h₁.trans ((decodeValueN_whole k).forward hdec h₁.offset_le)).remaining_lt
      obtain ⟨hinsert, hacc'⟩ := hacc.insertEntry hlast v
      rw [dictLoopN, Decoder.nextPair_of_key (nextObject_of_nextToken htok), hobj]
      simp only [valueEntry, hdec, Except.map, hinsert]
      rw [dictLoopN_of_scans entries hentries hacc' hrest (by omega) (by omega),
        List.append_assoc]
      rfl

end

/-! ## Decoding nothing else -/

/-- What an object decoder that wants ascending keys has read, with the token of the object in
front. -/
def ScansValues (decode : Decode Value) : Prop :=
  ∀ ⦃o v⦄ ⦃d d₁ d' : Decoder⦄, d.mustOrder = true → d.nextObject = .ok (some o, d₁) →
    decode o d₁ = .ok (v, d') → d.Scans v.tokens d' ∧ v.Sound

section Loops

variable {decode : Decode Value}

theorem scans_of_listLoopN (hscans : ScansValues decode) (hwhole : decode.Whole) {j : ℕ} :
    ∀ {results items : List Value} {d d' : Decoder} {stack : List State}, d.mustOrder = true →
      d.state = .seq :: stack → listLoopN decode j results d = .ok (items, d') →
      ∃ more, items = results ++ more ∧ d.Scans (itemsTokens more ++ [.finish]) d' ∧
        itemsSound more := by
  induction j with
  | zero => intro results items d d' stack _ _ h; cases h
  | succ j ih =>
      intro results items d d' stack horder hstate h
      rw [listLoopN] at h
      split at h
      · cases h
      · next d₁ hobj =>
          obtain ⟨rfl, rfl⟩ := Prod.mk.inj (Except.ok.inj h)
          have htok := nextToken_of_nextObject_none hobj (by rw [hstate]; exact List.cons_ne_nil _ _)
          exact ⟨[], (List.append_nil _).symm, scans_cons htok rfl, trivial⟩
      · next o d₁ hobj =>
          split at h
          · cases h
          · next v d₂ hdec =>
              obtain ⟨hscan, hv⟩ := hscans horder hobj hdec
              obtain ⟨raw, -, hopened⟩ := Decoder.nextObject_item hstate hobj
              have hle := (Decoder.nextObject_reads hobj).offset_le
              have hstate₂ := hwhole.state hopened hdec hle
              obtain ⟨more, rfl, hrest, hmore⟩ :=
                ih ((mustOrder_of_scans hscan).trans horder) hstate₂ h
              refine ⟨v :: more, by rw [List.append_assoc]; rfl, ?_, hv, hmore⟩
              rw [itemsTokens, List.append_assoc]
              exact hscan.append hrest

theorem scans_of_dictLoopN (hscans : ScansValues decode) (hwhole : decode.Whole) {j : ℕ} :
    ∀ {acc entries : List (Bytes × Value)} {last : Option Bytes} {d d' : Decoder}
      {stack : List State}, d.mustOrder = true → d.state = .mapKey last :: stack →
      UpTo last acc → dictLoopN (valueEntry decode) j acc d = .ok (entries, d') →
      ∃ more, entries = acc ++ more ∧ d.Scans (entriesTokens more ++ [.finish]) d' ∧
        entriesSound last more := by
  induction j with
  | zero => intro acc entries last d d' stack _ _ _ h; cases h
  | succ j ih =>
      intro acc entries last d d' stack horder hstate hacc h
      obtain ⟨_ | ⟨label, o⟩, d₁, hpair, hx⟩ := dictLoopN_eq_ok h
      · obtain ⟨rfl, rfl⟩ := hx
        exact ⟨[], (List.append_nil _).symm, scans_cons (nextPair_none hstate hpair) rfl, trivial⟩
      · obtain ⟨acc', d₂, hentry, hrest⟩ := hx
        obtain ⟨⟨v, d₂'⟩, hdec, he⟩ := Checked.map_eq_ok.mp hentry
        obtain ⟨rfl, rfl⟩ := Prod.mk.inj he
        obtain ⟨d₀, htok, hobj⟩ := nextPair_some hpair
        -- the key is behind the last one
        obtain ⟨hlegal, -, state, hobserve, rfl⟩ := Decoder.nextToken_iff.mp htok
        rw [horder, hstate, observeToken_key] at hobserve
        split_ifs at hobserve with hlast
        obtain ⟨hscan, hv⟩ := hscans (by exact horder) hobj hdec
        obtain ⟨_, raw, -, -, hopened⟩ := Decoder.nextPair_opened hstate hpair
        have hle := (Decoder.nextPair_reads hpair).offset_le
        have hstate₂ := hwhole.state hopened hdec hle
        obtain ⟨hinsert, hacc'⟩ := hacc.insertEntry hlast v
        rw [hinsert] at hrest
        obtain ⟨more, rfl, hmore, hsound⟩ :=
          ih ((mustOrder_of_scans hscan).trans horder) hstate₂ hacc' hrest
        refine ⟨(label, v) :: more, by rw [List.append_assoc]; rfl, ?_, hlast, hlegal, hv, hsound⟩
        refine scans_cons htok ?_
        show Decoder.Scans _ (v.tokens ++ entriesTokens more ++ [.finish]) d'
        rw [List.append_assoc]
        exact hscan.append hmore

end Loops

/-- **The decoder reads the tokens** of the value it returns, and no others. -/
theorem scans_of_decodeValueN (k : ℕ) : ScansValues (decodeValueN k) := by
  have hbytes : ∀ {k s v} {d d₁ d' : Decoder}, d.nextObject = .ok (some (.bytes s), d₁) →
      decodeValueN k (.bytes s) d₁ = .ok (v, d') → d.Scans v.tokens d' ∧ v.Sound := by
    intro k s v d d₁ d' hobj hdec
    rw [decodeValueN_bytes] at hdec
    obtain ⟨rfl, rfl⟩ := Prod.mk.inj (Except.ok.inj hdec)
    obtain ⟨tok, htok, ho⟩ := nextToken_of_nextObject hobj
    cases tok with
    | string s' =>
        obtain rfl := Object.bytes.inj (Option.some.inj ho)
        exact ⟨scans_cons htok rfl, (Decoder.nextToken_iff.mp htok).1⟩
    | _ => cases ho
  have hinteger : ∀ {k s v} {d d₁ d' : Decoder}, d.nextObject = .ok (some (.integer s), d₁) →
      decodeValueN k (.integer s) d₁ = .ok (v, d') → d.Scans v.tokens d' ∧ v.Sound := by
    intro k s v d d₁ d' hobj hdec
    rw [decodeValueN_integer] at hdec
    split at hdec
    · next n hn =>
        obtain ⟨rfl, rfl⟩ := Prod.mk.inj (Except.ok.inj hdec)
        obtain ⟨tok, htok, ho⟩ := nextToken_of_nextObject hobj
        cases tok with
        | num s' =>
            obtain rfl := Object.integer.inj (Option.some.inj ho)
            obtain ⟨hsame, hrange⟩ := numeral_of_parseSigned (Decoder.nextToken_iff.mp htok).1 hn
            refine ⟨?_, hrange⟩
            rw [Value.tokens, hsame]
            exact scans_cons htok rfl
        | _ => cases ho
    · cases hdec
  induction k with
  | zero =>
      intro o v d d₁ d' _ hobj hdec
      cases o with
      | bytes s => exact hbytes hobj hdec
      | integer s => exact hinteger hobj hdec
      | list start => cases hdec
      | dict start => cases hdec
  | succ k ih =>
      intro o v d d₁ d' horder hobj hdec
      cases o with
      | bytes s => exact hbytes hobj hdec
      | integer s => exact hinteger hobj hdec
      | list start =>
          obtain ⟨⟨items, d₂⟩, hloop, he⟩ := Checked.map_eq_ok.mp hdec
          obtain ⟨rfl, rfl⟩ := Prod.mk.inj he
          obtain ⟨tok, htok, ho⟩ := nextToken_of_nextObject hobj
          cases tok with
          | list =>
              obtain ⟨-, -, state, hobserve, rfl⟩ := Decoder.nextToken_iff.mp htok
              obtain ⟨more, rfl, hrest, hsound⟩ := scans_of_listLoopN ih (decodeValueN_whole k)
                (by exact horder) (observeToken_eq_ok hobserve) hloop
              exact ⟨scans_cons htok hrest, hsound⟩
          | _ => cases ho
      | dict start =>
          obtain ⟨⟨entries, d₂⟩, hloop, he⟩ := Checked.map_eq_ok.mp hdec
          obtain ⟨rfl, rfl⟩ := Prod.mk.inj he
          obtain ⟨tok, htok, ho⟩ := nextToken_of_nextObject hobj
          cases tok with
          | dict =>
              obtain ⟨-, -, state, hobserve, rfl⟩ := Decoder.nextToken_iff.mp htok
              obtain ⟨more, rfl, hrest, hsound⟩ := scans_of_dictLoopN ih (decodeValueN_whole k)
                (by exact horder) (observeToken_eq_ok hobserve) (upTo_nil none) hloop
              exact ⟨scans_cons htok hrest, hsound⟩
          | _ => cases ho

mutual

/-- The tokens of a value are as the types of the code allow them. -/
theorem legal_of_sound : ∀ (v : Value), v.Sound → ∀ tok ∈ v.tokens, tok.Legal
  | .bytes _, hs => List.forall_mem_singleton.mpr hs
  | .integer _, hn => List.forall_mem_singleton.mpr (numeral_parses hn).1
  | .list items, hitems => List.forall_mem_cons.mpr ⟨trivial, List.forall_mem_append.mpr
      ⟨itemsLegal_of_sound items hitems, List.forall_mem_singleton.mpr trivial⟩⟩
  | .dict entries, hentries => List.forall_mem_cons.mpr ⟨trivial, List.forall_mem_append.mpr
      ⟨entriesLegal_of_sound entries hentries, List.forall_mem_singleton.mpr trivial⟩⟩

theorem itemsLegal_of_sound : ∀ (items : List Value), itemsSound items →
    ∀ tok ∈ itemsTokens items, tok.Legal
  | [], _ => nofun
  | v :: items, ⟨hv, hitems⟩ => List.forall_mem_append.mpr
      ⟨legal_of_sound v hv, itemsLegal_of_sound items hitems⟩

theorem entriesLegal_of_sound : ∀ (entries : List (Bytes × Value)) {last : Option Bytes},
    entriesSound last entries → ∀ tok ∈ entriesTokens entries, tok.Legal
  | [], _, _ => nofun
  | (_, v) :: entries, _, ⟨_, hlabel, hv, hentries⟩ =>
      List.forall_mem_cons.mpr ⟨hlabel, List.forall_mem_append.mpr
        ⟨legal_of_sound v hv, entriesLegal_of_sound entries hentries⟩⟩

end

/-! ## The entry points -/

/-- What is scanned in front of an input. -/
theorem scans_new_iff {data : Bytes} {maxDepth : ℕ} {toks : List Token} {state : List State}
    {n : ℕ} : (∃ d', (Decoder.new data true maxDepth).Scans toks d' ∧ d'.offset = n ∧
      d'.state = state) ↔ (∀ tok ∈ toks, tok.Legal) ∧ n ≤ data.length ∧
        observeTokens maxDepth true [] toks = .ok state ∧
        data.take n = toks.flatMap Token.bytes := by
  constructor
  · rintro ⟨d', hscan, rfl, rfl⟩
    obtain ⟨hlegal, ⟨rest, hunread⟩, state, hstate, rfl⟩ := Decoder.scans_iff.mp hscan
    have hdata : data = toks.flatMap Token.bytes ++ rest := hunread
    have hoffset : ((Decoder.new data true maxDepth).advance
        (toks.flatMap Token.bytes) state).offset = (toks.flatMap Token.bytes).length :=
      Nat.zero_add _
    rw [hoffset]
    refine ⟨hlegal, ?_, hstate, ?_⟩
    · rw [hdata, List.length_append]
      omega
    · rw [hdata, List.take_left]
  · rintro ⟨hlegal, hn, hstate, htake⟩
    have hunread : (Decoder.new data true maxDepth).unread =
        toks.flatMap Token.bytes ++ data.drop n := by
      rw [← htake, List.take_append_drop]
      rfl
    refine ⟨_, Decoder.scans_iff.mpr ⟨hlegal, ⟨_, hunread⟩, state, hstate, rfl⟩, ?_, rfl⟩
    show 0 + (toks.flatMap Token.bytes).length = n
    rw [← htake, List.length_take]
    omega

/-- What the decoder of a whole input reads first. -/
theorem decodeValue_iff_scans {data : Bytes} {maxDepth : ℕ} {v : Value} {d' : Decoder} :
    (∃ o d₁, (Decoder.new data true maxDepth).nextObject = .ok (some o, d₁) ∧
      decodeValue o d₁ = .ok (v, d')) ↔
      v.Sound ∧ (Decoder.new data true maxDepth).Scans v.tokens d' ∧ d'.state = [] := by
  constructor
  · rintro ⟨o, d₁, hobj, hdec⟩
    obtain ⟨hscan, hv⟩ := scans_of_decodeValueN _ rfl hobj hdec
    refine ⟨hv, hscan, ?_⟩
    -- the object stands at the outermost level
    obtain ⟨raw, stack, -, hopened, hstack⟩ := Decoder.nextObject_opened hobj
    have hstate := decodeValue_whole.state hopened hdec (Decoder.nextObject_reads hobj).offset_le
    rcases hstack with ⟨-, rfl⟩ | ⟨last, rest, s, hlast, -⟩
    · exact hstate
    · cases hlast
  · rintro ⟨hv, hscan, -⟩
    obtain ⟨o, d₁, hobj, hdec⟩ := decodeValueN_of_scans v hv hscan (Nat.le_refl _)
    have hless := (Decoder.nextObject_reads hobj).remaining_lt
    exact ⟨o, d₁, hobj, (decodeValueN_fuel o d₁ (Nat.lt_succ_self _) hless).trans hdec⟩

theorem fromBencodeFirst_eq_ok {decode : Decode Value} {maxDepth n : ℕ} {data : Bytes} {v : Value} :
    fromBencodeFirst decode maxDepth data = .ok (v, n) ↔ ∃ d', (∃ o d₁,
      (Decoder.new data true maxDepth).nextObject = .ok (some o, d₁) ∧
        decode o d₁ = .ok (v, d')) ∧ d'.offset = n := by
  unfold fromBencodeFirst
  constructor
  · intro h
    split at h
    · cases h
    · cases h
    · next o d₁ hobj =>
        obtain ⟨⟨a, d'⟩, hdec, he⟩ := Checked.map_eq_ok.mp h
        obtain ⟨rfl, rfl⟩ := Prod.mk.inj he
        exact ⟨d', ⟨o, d₁, hobj, hdec⟩, rfl⟩
  · rintro ⟨d', ⟨o, d₁, hobj, hdec⟩, rfl⟩
    rw [hobj]
    dsimp only
    rw [hdec]
    rfl

/-- **Values and bytes determine each other**: the decoder returns a value and the number of bytes it
has read if and only if the value is one of its type and the encoder writes these bytes for it. -/
theorem fromBencodeFirst_value_iff (maxDepth n : ℕ) (data : Bytes) (v : Value) :
    fromBencodeFirst decodeValue maxDepth data = .ok (v, n) ↔
      v.Sound ∧ n ≤ data.length ∧ Bendy.toBencode v.encode maxDepth = .ok (data.take n) := by
  rw [fromBencodeFirst_eq_ok, toBencode_value, emitTokens_output_iff]
  constructor
  · rintro ⟨d', hdecodes, rfl⟩
    obtain ⟨hv, hscan, hstate⟩ := decodeValue_iff_scans.mp hdecodes
    obtain ⟨-, hn, hobserve, htake⟩ := scans_new_iff.mp ⟨d', hscan, rfl, hstate⟩
    exact ⟨hv, hn, hobserve, htake⟩
  · rintro ⟨hv, hn, hobserve, htake⟩
    obtain ⟨d', hscan, hoffset, hstate⟩ :=
      scans_new_iff.mpr ⟨legal_of_sound v hv, hn, hobserve, htake⟩
    exact ⟨d', decodeValue_iff_scans.mpr ⟨hv, hscan, hstate⟩, hoffset⟩

/-- `Value::from_bencode` does not look behind the value. -/
theorem fromBencode_value_iff (maxDepth : ℕ) (data : Bytes) (v : Value) :
    fromBencode decodeValue true maxDepth data = .ok v ↔
      v.Sound ∧ ∃ raw rest, Bendy.toBencode v.encode maxDepth = .ok raw ∧ data = raw ++ rest := by
  have hfirst : fromBencode decodeValue true maxDepth data = .ok v ↔
      ∃ n, fromBencodeFirst decodeValue maxDepth data = .ok (v, n) := by
    unfold fromBencode fromBencodeFirst
    rcases (Decoder.new data true maxDepth).nextObject with e | ⟨_ | o, d⟩
    · exact ⟨nofun, nofun⟩
    · exact ⟨nofun, nofun⟩
    · dsimp only
      rcases decodeValue o d with e | ⟨a, d'⟩
      · exact ⟨nofun, nofun⟩
      · constructor
        · intro h
          obtain rfl : a = v := Except.ok.inj h
          exact ⟨d'.offset, rfl⟩
        · rintro ⟨n, h⟩
          exact congrArg Except.ok (Prod.mk.inj (Except.ok.inj h)).1
  rw [hfirst]
  constructor
  · rintro ⟨n, h⟩
    obtain ⟨hv, -, hraw⟩ := (fromBencodeFirst_value_iff maxDepth n data v).mp h
    exact ⟨hv, data.take n, data.drop n, hraw, (List.take_append_drop n data).symm⟩
  · rintro ⟨hv, raw, rest, hraw, rfl⟩
    refine ⟨raw.length, (fromBencodeFirst_value_iff maxDepth _ _ v).mpr ⟨hv, by simp, ?_⟩⟩
    rw [List.take_left]
    exact hraw

end DhtMessages
