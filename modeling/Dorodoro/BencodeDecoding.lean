/-
# Decoding what was encoded

What a decoder makes of the bytes the encoder writes, whatever comes behind them: the other half of
a round trip.

* `Decode.Reads`: what an instance makes of some bytes, in front of which it is called;
* `ReadsPairs`: what the loop over a dictionary makes of some entries, one after the other;
* `dictLoop_reads`: a dictionary is read as its entries are;
* `Decode.Reads.fromBencode`: the entry point.
-/
import Dorodoro.BencodeEncoder
import Dorodoro.SoundDecoders

namespace Bendy

open PeerWire (decimal)

/-- `MAX_DEPTH` (`core/config.rs`), for the messages of the extensions and of the DHT. -/
def maxDepth : ℕ := 10

/-! ## Decimal numbers -/

theorem decimal_of_lt {n : ℕ} (h : n < 10) : decimal n = [ascii n.digitChar] := by
  rw [decimal, Nat.toDigits_of_lt_base h]
  rfl

theorem decimal_of_le {n : ℕ} (h : 10 ≤ n) :
    decimal n = decimal (n / 10) ++ [ascii (n % 10).digitChar] := by
  rw [decimal, Nat.toDigits_of_base_le (by decide) h, List.map_append]
  rfl

/-- The characters of the digits. -/
theorem digitChar_spec : ∀ m < 10, isDigit (ascii m.digitChar) = true ∧
    (ascii m.digitChar).toNat - 48 = m ∧ (m ≠ 0 → ascii m.digitChar ≠ ascii '0') := by decide

/-- The digits stand for the number. -/
theorem digitsValue_decimal (n : ℕ) : digitsValue (decimal n) = n := by
  induction n using Nat.strongRecOn with
  | _ n ih =>
      rcases Nat.lt_or_ge n 10 with h | h
      · rw [decimal_of_lt h]
        show 0 * 10 + ((ascii n.digitChar).toNat - 48) = n
        rw [(digitChar_spec n h).2.1]
        omega
      · have hlast := (digitChar_spec (n % 10) (Nat.mod_lt n (by decide))).2.1
        have hsplit : digitsValue (decimal n) =
            digitsValue (decimal (n / 10)) * 10 + ((ascii (n % 10).digitChar).toNat - 48) := by
          rw [decimal_of_le h, digitsValue, List.foldl_append]
          rfl
        rw [hsplit, ih (n / 10) (by omega), hlast]
        omega

/-- **There are no leading zeros.** -/
theorem natural_decimal (n : ℕ) : Natural (decimal n) := by
  induction n using Nat.strongRecOn with
  | _ n ih =>
      rcases Nat.lt_or_ge n 10 with h | h
      · obtain ⟨hdigit, -, hzero⟩ := digitChar_spec n h
        rw [decimal_of_lt h]
        rcases Nat.eq_zero_or_pos n with rfl | hpos
        · exact Or.inl rfl
        · exact Or.inr ⟨_, [], rfl, hdigit, hzero (by omega), nofun⟩
      · have hlast := (digitChar_spec (n % 10) (Nat.mod_lt n (by decide))).1
        rw [decimal_of_le h]
        rcases ih (n / 10) (by omega) with hzero | ⟨c, cs, hc, hdigit, hne, hall⟩
        · -- a number of two digits is not zero without its last digit
          have hvalue := digitsValue_decimal (n / 10)
          rw [hzero] at hvalue
          have hnone : digitsValue [ascii '0'] = 0 := by decide
          omega
        · refine Or.inr ⟨c, cs ++ [ascii (n % 10).digitChar], by rw [hc]; rfl, hdigit, hne, ?_⟩
          intro b hb
          rcases List.mem_append.mp hb with hb | hb
          · exact hall b hb
          · rw [List.mem_singleton.mp hb]
            exact hlast

theorem parseUnsigned_decimal {bits n : ℕ} (h : n < 2 ^ bits) :
    parseUnsigned bits (decimal n) = some n := by
  have hhead : (decimal n).head? ≠ some (ascii '-') := by
    rcases natural_decimal n with hzero | ⟨c, cs, hc, hdigit, -, -⟩
    · rw [hzero]
      decide
    · rw [hc]
      exact fun he => isDigit_ne hdigit (by decide) (Option.some.inj he)
  rw [parseUnsigned, if_neg hhead, digitsValue_decimal, if_pos h]

/-- **A byte string** as the encoder writes it. -/
theorem text_emitBytes {s : Bytes} (h : s.length < 2 ^ 64) : Text s (PeerWire.emitBytes s) :=
  ⟨decimal s.length, Or.inl (natural_decimal _), parseUnsigned_decimal h, rfl⟩

/-! ## Strings -/

theorem toList_loop (bs : ByteArray) (i : ℕ) (r : List UInt8) :
    ByteArray.toList.loop bs i r = r.reverse ++ bs.data.toList.drop i := by
  induction i, r using ByteArray.toList.loop.induct bs with
  | case1 i r h ih =>
      have hlt : i < bs.data.toList.length := h
      have hget : bs.get! i = bs.data.toList[i] := by
        show bs.data[i]! = _
        rw [getElem!_pos bs.data i h, Array.getElem_toList]
      rw [ByteArray.toList.loop, if_pos h, ih, hget, List.reverse_cons, List.append_assoc,
        List.singleton_append, ← List.drop_eq_getElem_cons hlt]
  | case2 i r h =>
      have hle : bs.data.toList.length ≤ i := Nat.le_of_not_lt h
      rw [ByteArray.toList.loop, if_neg h, List.drop_eq_nil_of_le hle, List.append_nil]

/-- The bytes of a string are read back. -/
theorem stringFromUtf8_key (s : String) : stringFromUtf8 (key s) = some s := by
  have hbytes : (⟨(key s).toArray⟩ : ByteArray) = s.toByteArray := by
    have hlist : key s = s.toByteArray.data.toList := toList_loop _ 0 []
    rw [hlist]
  rw [stringFromUtf8, hbytes]
  exact dif_pos s.isValidUTF8

theorem key_injective : Function.Injective key := by
  intro s s' h
  have hread := congrArg stringFromUtf8 h
  rwa [stringFromUtf8_key, stringFromUtf8_key, Option.some.injEq] at hread

/-! ## Values -/

variable {T σ : Type} {d : Decoder} {raw rest : Bytes} {n : ℕ}

/-- A decoder in front of some bytes, where a value may stand and `n` more levels may be opened. -/
structure Decoder.Before (d : Decoder) (n : ℕ) (raw rest : Bytes) : Prop where
  unread : d.unread = raw ++ rest
  due : ¬ KeyDue d.state
  depth : d.state.length + n ≤ d.maxDepth
  mustOrder : d.mustOrder = false

/-- What the decoder makes of the bytes of a value. -/
def Decode.Reads (decode : Decode T) (n : ℕ) (raw : Bytes) (result : Except Error T) : Prop :=
  ∀ (d : Decoder) (rest : Bytes), d.Before n raw rest → ∃ o d₁, d.nextObject = .ok (some o, d₁) ∧
    decode o d₁ = result.map fun a => (a, d.advance raw (afterValue d.state))

/-- A decoder that goes on with what another one has read. -/
theorem Decode.Reads.andThen {decode : Decode σ} {decode' : Decode T} {result : Except Error σ}
    (h : decode.Reads n raw result) (finish : σ → Except Error T)
    (hfinish : ∀ o d, decode' o d =
      (decode o d).bind fun p => (finish p.1).map fun a => (a, p.2)) :
    decode'.Reads n raw (result.bind finish) := by
  intro d rest hd
  obtain ⟨o, d₁, hobj, hdec⟩ := h d rest hd
  refine ⟨o, d₁, hobj, ?_⟩
  rw [hfinish, hdec]
  match result with
  | .error _ => rfl
  | .ok _ => rfl

/-- The next object, where the structure checker accepts its first token. -/
theorem Decoder.nextObject_of_spells (tok : Token) {state : List State} (hspell : tok.Spells raw)
    (hd : d.unread = raw ++ rest)
    (h : observeToken d.maxDepth d.mustOrder d.state tok = .ok state) :
    d.nextObject =
      .ok (tokenObject (d.offset + raw.length) (some tok), d.advance raw state) := by
  rw [nextObject_eq, nextToken_of_spells hspell hd, h]
  rfl

/-- A decoder of byte strings. -/
theorem reads_bytes {decode : Decode T} {s : Bytes} {result : Except Error T}
    (hs : s.length < 2 ^ 64) (h : ∀ d, decode (.bytes s) d = result.map fun a => (a, d)) (n : ℕ) :
    decode.Reads n (PeerWire.emitBytes s) result := fun d _ hd =>
  ⟨.bytes s, _, Decoder.nextObject_of_spells (.string s) (text_emitBytes hs) hd.unread
    (observeToken_value (Or.inl ⟨s, rfl⟩) d.maxDepth d.mustOrder hd.due), h _⟩

/-- A decoder of numbers. -/
theorem reads_int {decode : Decode T} {i : ℕ} {result : Except Error T}
    (h : ∀ d, decode (.integer (decimal i)) d = result.map fun a => (a, d)) (n : ℕ) :
    decode.Reads n (PeerWire.emitInt i) result := fun d _ hd =>
  ⟨.integer (decimal i), _, Decoder.nextObject_of_spells (.num (decimal i))
    ⟨Or.inl (natural_decimal i), rfl⟩ hd.unread
    (observeToken_value (Or.inr ⟨decimal i, rfl⟩) d.maxDepth d.mustOrder hd.due), h _⟩

/-- A decoder that does not accept lists. -/
theorem reads_list_error {decode : Decode T} {e : Error}
    (h : ∀ start d, decode (.list start) d = .error e) (n : ℕ) (items : Bytes) :
    decode.Reads (n + 1) (ascii 'l' :: items) (.error e) := by
  intro d rest hd
  have hdepth := hd.depth
  have hopen := (observeToken_open d.mustOrder hd.due (by omega : d.state.length < d.maxDepth)).1
  have hunread : d.unread = [ascii 'l'] ++ (items ++ rest) := hd.unread
  exact ⟨_, _, Decoder.nextObject_of_spells .list rfl hunread hopen, h _ _⟩

theorem decodeUnsigned_reads {bits i : ℕ} (h : i < 2 ^ bits) (n : ℕ) :
    (decodeUnsigned bits).Reads n (PeerWire.emitInt i) (.ok i) := by
  refine reads_int (fun d => ?_) n
  rw [decodeUnsigned, parseUnsigned_decimal h]
  rfl

theorem decodeString_reads {s : String} (hs : (key s).length < 2 ^ 64) (n : ℕ) :
    decodeString.Reads n (PeerWire.emitBytes (key s)) (.ok s) := by
  refine reads_bytes hs (fun d => ?_) n
  rw [decodeString, stringFromUtf8_key]
  rfl

theorem field_reads {name : String} {decode : Decode T} {set : T → σ} {result : Except Error T}
    (h : decode.Reads n raw result) :
    (field name decode set).Reads n raw ((context name result).map set) := by
  intro d rest hd
  obtain ⟨o, d₁, hobj, hdec⟩ := h d rest hd
  refine ⟨o, d₁, hobj, ?_⟩
  rw [field, hdec]
  cases result <;> rfl

/-- An unknown byte string or number is skipped. -/
theorem unknownField_reads_int (s : σ) (i n : ℕ) :
    (unknownField s).Reads n (PeerWire.emitInt i) (.ok s) := reads_int (fun _ => rfl) n

/-! ## Dictionaries -/

variable {body : σ → Bytes → Decode σ}

/-- What the loop over a dictionary makes of its entries. -/
inductive ReadsPairs (body : σ → Bytes → Decode σ) (n : ℕ) :
    σ → List (Bytes × Bytes) → Except Error σ → Prop
  | nil (s : σ) : ReadsPairs body n s [] (.ok s)
  | cons {s u : σ} {k raw : Bytes} {pairs : List (Bytes × Bytes)} {result : Except Error σ} :
      k.length < 2 ^ 64 → (body s k).Reads n raw (.ok u) → ReadsPairs body n u pairs result →
      ReadsPairs body n s ((k, raw) :: pairs) result
  | fail {s : σ} {k raw : Bytes} {pairs : List (Bytes × Bytes)} {e : Error} :
      k.length < 2 ^ 64 → (body s k).Reads n raw (.error e) →
      ReadsPairs body n s ((k, raw) :: pairs) (.error e)

/-- An optional entry, in front of others. -/
theorem ReadsPairs.option {α : Type} {s u : σ} {k : Bytes} {raw : α → Bytes}
    {pairs : List (Bytes × Bytes)} {result : Except Error σ} {o : Option α}
    (hk : k.length < 2 ^ 64) (hnone : o = none → u = s)
    (hsome : ∀ a, o = some a → (body s k).Reads n (raw a) (.ok u))
    (hpairs : ReadsPairs body n u pairs result) :
    ReadsPairs body n s (o.toList.map (fun a => (k, raw a)) ++ pairs) result := by
  match o with
  | none => exact hnone rfl ▸ hpairs
  | some a => exact .cons hk (hsome a rfl) hpairs

/-- **An entry** is opened. -/
theorem Decoder.nextPair_of_reads {decode : Decode T} {k : Bytes} {result : Except Error T}
    {last : Option Bytes} {stack : List State} (hk : k.length < 2 ^ 64)
    (hread : decode.Reads n raw result) (hd : d.unread = pairBytes (k, raw) ++ rest)
    (hstate : d.state = .mapKey last :: stack) (hdepth : d.state.length + n ≤ d.maxDepth)
    (horder : d.mustOrder = false) :
    ∃ o d₁, d.nextPair = .ok (some (k, o), d₁) ∧
      decode o d₁ = result.map fun a =>
        (a, d.advance (pairBytes (k, raw)) (.mapKey (some k) :: stack)) := by
  have hkey : observeToken d.maxDepth d.mustOrder d.state (.string k) =
      .ok (.mapValue k :: stack) := by
    rw [hstate, horder]
    cases last with
    | none => rfl
    | some old => simp [observeToken]
  rw [pairBytes, List.append_assoc] at hd
  have hobj := nextObject_of_spells (.string k) (text_emitBytes hk) hd hkey
  have hbefore : (d.advance (PeerWire.emitBytes k) (.mapValue k :: stack)).Before n raw rest :=
    ⟨unread_advance hd _, not_keyDue_mapValue k stack, by rw [hstate] at hdepth; exact hdepth, horder⟩
  obtain ⟨o, d₁, hvalue, hdec⟩ := hread _ _ hbefore
  refine ⟨o, d₁, ?_, ?_⟩
  · rw [nextPair_of_key hobj, hvalue]
  · rw [hdec, state_advance, advance_advance]
    rfl

/-- The end of a dictionary. -/
theorem Decoder.nextPair_of_end {level : State} {stack : List State}
    (hd : d.unread = [ascii 'e'] ++ rest) (hstate : d.state = level :: stack)
    (hlevel : ∀ label, level ≠ .mapValue label) :
    d.nextPair = .ok (none, d.advance [ascii 'e'] stack) := by
  refine nextPair_of_none (nextObject_of_spells .finish rfl hd ?_)
  rw [hstate]
  match level with
  | .seq => rfl
  | .mapKey none => rfl
  | .mapKey (some _) => rfl
  | .mapValue label => exact absurd rfl (hlevel label)

/-- One round of the loop. -/
theorem dictLoopN_entry {k : ℕ} {s : σ} {label : Bytes} {result : Except Error σ}
    {last : Option Bytes} {stack : List State} (hlabel : label.length < 2 ^ 64)
    (hread : (body s label).Reads n raw result) (hd : d.unread = pairBytes (label, raw) ++ rest)
    (hstate : d.state = .mapKey last :: stack) (hdepth : d.state.length + n ≤ d.maxDepth)
    (horder : d.mustOrder = false) :
    dictLoopN body (k + 1) s d = result.bind fun s₁ =>
      dictLoopN body k s₁ (d.advance (pairBytes (label, raw)) (.mapKey (some label) :: stack)) := by
  obtain ⟨o, d₁, hpair, hbody⟩ := Decoder.nextPair_of_reads hlabel hread hd hstate hdepth horder
  rw [dictLoopN, hpair]
  simp only [hbody]
  rcases result with e | s₁
  · rfl
  · rfl

/-- **The loop** over a dictionary reads its entries one after the other. -/
theorem dictLoopN_reads {s : σ} {pairs : List (Bytes × Bytes)} {result : Except Error σ}
    (h : ReadsPairs body n s pairs result) :
    ∀ {k : ℕ} {d : Decoder} {last : Option Bytes} {stack : List State} {rest : Bytes},
      d.unread = pairs.flatMap pairBytes ++ [ascii 'e'] ++ rest →
      d.state = .mapKey last :: stack → d.state.length + n ≤ d.maxDepth → d.mustOrder = false →
      d.remaining < k →
      dictLoopN body k s d = result.map fun s' =>
        (s', d.advance (pairs.flatMap pairBytes ++ [ascii 'e']) stack) := by
  intro k d last stack rest hd hstate hdepth horder hk
  induction h generalizing k d last with
  | nil s =>
      obtain ⟨k, rfl⟩ : ∃ k', k = k' + 1 := ⟨k - 1, by omega⟩
      have hend := Decoder.nextPair_of_end hd hstate (by rintro label ⟨⟩)
      rw [dictLoopN, hend]
      rfl
  | @cons s u label raw pairs result hlabel hread _ ih =>
      obtain ⟨k, rfl⟩ : ∃ k', k = k' + 1 := ⟨k - 1, by omega⟩
      rw [List.flatMap_cons, List.append_assoc, List.append_assoc,
        ← List.append_assoc _ _ rest] at hd
      have hunread := Decoder.unread_advance hd (.mapKey (some label) :: stack)
      have hfewer : (d.advance (pairBytes (label, raw)) (.mapKey (some label) :: stack)).remaining <
          k := by
        rw [Decoder.remaining_eq, hd, List.length_append] at hk
        rw [Decoder.remaining_eq, hunread]
        have hpos : 0 < (pairBytes (label, raw)).length := by
          simp [pairBytes, PeerWire.emitBytes]
        omega
      -- the rest of the dictionary
      have hrest := ih hunread rfl (by rw [hstate] at hdepth; exact hdepth) horder hfewer
      rw [dictLoopN_entry hlabel hread hd hstate hdepth horder]
      show dictLoopN body k u _ = _
      rw [hrest, List.flatMap_cons, List.append_assoc]
      simp only [Decoder.advance_advance]
  | @fail s label raw pairs e hlabel hread =>
      obtain ⟨k, rfl⟩ : ∃ k', k = k' + 1 := ⟨k - 1, by omega⟩
      rw [List.flatMap_cons, List.append_assoc, List.append_assoc] at hd
      rw [dictLoopN_entry hlabel hread hd hstate hdepth horder]
      rfl

/-- **A dictionary.** -/
theorem dictLoop_reads {s : σ} {pairs : List (Bytes × Bytes)} {result : Except Error σ}
    (h : ReadsPairs body n s pairs result) :
    (dictLoop body s).Reads (n + 1) (PeerWire.emitDict pairs) result := by
  intro d rest hd
  have hdepth := hd.depth
  have hopen := (observeToken_open d.mustOrder hd.due (by omega : d.state.length < d.maxDepth)).2
  have hunread : d.unread = [ascii 'd'] ++ (pairs.flatMap pairBytes ++ [ascii 'e'] ++ rest) :=
    hd.unread
  have hobj := Decoder.nextObject_of_spells .dict rfl hunread hopen
  refine ⟨_, _, hobj, ?_⟩
  have hinner : (d.advance [ascii 'd'] (.mapKey none :: afterValue d.state)).state.length + n ≤
      d.maxDepth := by
    show (afterValue d.state).length + 1 + n ≤ d.maxDepth
    rw [length_afterValue]
    omega
  show dictLoopN body _ s _ = _
  rw [dictLoopN_reads h (Decoder.unread_advance hunread _) rfl hinner hd.mustOrder
    (Nat.lt_succ_self _), Decoder.advance_advance]
  rfl

/-! ## The entry point -/

theorem Decode.Reads.fromBencode {decode : Decode T} {maxDepth : ℕ} {result : Except Error T}
    (h : decode.Reads n raw result) (hle : n ≤ maxDepth) :
    Bendy.fromBencode decode false maxDepth raw = result := by
  have hbefore : (Decoder.new raw false maxDepth).Before n raw [] :=
    ⟨(List.append_nil raw).symm, not_keyDue_nil, by simpa [Decoder.new] using hle, rfl⟩
  obtain ⟨o, d₁, hobj, hdec⟩ := h _ _ hbefore
  rw [Bendy.fromBencode, hobj]
  dsimp only
  rw [hdec]
  cases result <;> rfl

end Bendy
