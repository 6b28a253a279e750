/-
# Token streams (`lib/bendy`)

Token by token, the encoder (`Encoder::emit_token`, `get_output`) and the decoder
(`Decoder::tokens`) are inverse to each other.

* `decimal_digitsValue`: there is one way to write a number, so a token has one spelling;
* `Decoder.Scans`: some tokens are read one after the other, `scans_iff` says which bytes these are
  and that the structure checker accepts them;
* `emitTokens_eq`: the encoder asks the same checker;
* `tokens_iff_emitted`: the tokens of an input, and what is written for some tokens.
-/
import Dorodoro.BencodeDecoding

namespace Bendy

open PeerWire (decimal)

/-! ## The code -/

/-- `Encoder::emit_token`, token by token. -/
def emitTokens : List Token → Encode
  | [], e => .ok e
  | tok :: toks, e => (emitToken tok e).bind (emitTokens toks)

/-- `Encoder::get_output`. -/
def Encoder.getOutput (e : Encoder) : Except EncodeError Bytes :=
  if e.state = [] then .ok e.output else .error (.structureError .unexpectedEof)

/-- `Tokens::next`, until it returns `None`; an error is reported once. -/
def Decoder.tokensN : ℕ → Decoder → List (Except StructureError Token)
  | 0, _ => []
  | k + 1, d =>
      match d.nextToken with
      | .error e => [.error e]
      | .ok (none, _) => []
      | .ok (some tok, d') => .ok tok :: tokensN k d'

/-- `Decoder::tokens`, collected. -/
def Decoder.tokens (d : Decoder) : List (Except StructureError Token) :=
  d.tokensN (d.remaining + 1)

/-- The structure checker along some tokens. -/
def observeTokens (maxDepth : ℕ) (mustOrder : Bool) :
    List State → List Token → Except StructureError (List State)
  | stack, [] => .ok stack
  | stack, tok :: toks =>
      (observeToken maxDepth mustOrder stack tok).bind
        (observeTokens maxDepth mustOrder · toks)

/-! ## One spelling -/

/-- A token as the types of the code allow it, with a numeral in a number. -/
def Token.Legal : Token → Prop
  | .string s => s.length < 2 ^ 64
  | .num s => Numeral s
  | _ => True

theorem digitsValue_snoc (s : Bytes) (b : UInt8) :
    digitsValue (s ++ [b]) = digitsValue s * 10 + (b.toNat - 48) := by
  rw [digitsValue, List.foldl_append]
  rfl

theorem le_toNat_of_isDigit {b : UInt8} (h : isDigit b = true) : 48 ≤ b.toNat ∧ b.toNat ≤ 57 := by
  rw [isDigit, Bool.and_eq_true, decide_eq_true_eq, decide_eq_true_eq] at h
  exact ⟨UInt8.le_iff_toNat_le.mp h.1, UInt8.le_iff_toNat_le.mp h.2⟩

/-- A digit is the character of its value. -/
theorem digitChar_of_isDigit {b : UInt8} (h : isDigit b = true) :
    b.toNat - 48 < 10 ∧ ascii (b.toNat - 48).digitChar = b := by
  have hb := le_toNat_of_isDigit h
  obtain ⟨hdigit, hvalue, -⟩ := digitChar_spec (b.toNat - 48) (by omega)
  have hchar := le_toNat_of_isDigit hdigit
  exact ⟨by omega, UInt8.toNat_inj.mp (by omega)⟩

theorem decimal_digitsValue_of_ne {c : UInt8} (hc : isDigit c = true) (hne : c ≠ ascii '0')
    (cs : Bytes) : (∀ b ∈ cs, isDigit b = true) →
      0 < digitsValue (c :: cs) ∧ decimal (digitsValue (c :: cs)) = c :: cs := by
  induction cs using List.reverseRecOn with
  | nil =>
      intro _
      obtain ⟨hlt, hchar⟩ := digitChar_of_isDigit hc
      have hvalue : digitsValue [c] = c.toNat - 48 := by
        show 0 * 10 + (c.toNat - 48) = _
        omega
      have hpos : c.toNat - 48 ≠ 0 := by
        intro hzero
        rw [hzero] at hchar
        exact hne hchar.symm
      rw [hvalue, decimal_of_lt hlt, hchar]
      exact ⟨by omega, rfl⟩
  | append_singleton cs b ih =>
      intro hall
      obtain ⟨hpos, hcs⟩ := ih fun b hb => hall b (List.mem_append_left _ hb)
      obtain ⟨hlt, hchar⟩ := digitChar_of_isDigit (hall b (by simp))
      have hvalue := digitsValue_snoc (c :: cs) b
      rw [List.cons_append] at hvalue
      have hdiv : (digitsValue (c :: cs) * 10 + (b.toNat - 48)) / 10 = digitsValue (c :: cs) := by
        omega
      have hmod : (digitsValue (c :: cs) * 10 + (b.toNat - 48)) % 10 = b.toNat - 48 := by omega
      rw [hvalue, decimal_of_le (by omega), hdiv, hmod, hcs, hchar]
      exact ⟨by omega, rfl⟩

/-- **There is one numeral for a number.** -/
theorem decimal_digitsValue {s : Bytes} (h : Natural s) : decimal (digitsValue s) = s := by
  rcases h with rfl | ⟨c, cs, rfl, hc, hne, hall⟩
  · decide +kernel
  · exact (decimal_digitsValue_of_ne hc hne cs hall).2

/-- The length in front of a byte string. -/
theorem Text.eq_emitBytes {s raw : Bytes} (h : Text s raw) :
    s.length < 2 ^ 64 ∧ raw = PeerWire.emitBytes s := by
  obtain ⟨n, hn, hlen, rfl⟩ := h
  rcases hn with hn | ⟨t, rfl, -⟩
  · unfold parseUnsigned at hlen
    split_ifs at hlen with hhead hlt
    have hvalue := Option.some.inj hlen
    refine ⟨hvalue ▸ hlt, ?_⟩
    rw [PeerWire.emitBytes, ← hvalue, decimal_digitsValue hn]
  · cases hlen

/-- **A token has one spelling**, the one that is written for it. -/
theorem Token.spells_iff {tok : Token} {raw : Bytes} :
    tok.Spells raw ↔ tok.Legal ∧ raw = tok.bytes := by
  match tok with
  | .list => exact (Iff.of_eq (true_and _)).symm
  | .dict => exact (Iff.of_eq (true_and _)).symm
  | .finish => exact (Iff.of_eq (true_and _)).symm
  | .num s => exact Iff.rfl
  | .string s =>
      constructor
      · exact Text.eq_emitBytes
      · rintro ⟨hlen, rfl⟩
        exact text_emitBytes hlen

/-! ## Levels -/

/-- A list or a dictionary is opened unless it is too deep. -/
theorem observeToken_open_eq (mustOrder : Bool) {maxDepth : ℕ} {stack : List State}
    (hdue : ¬ KeyDue stack) :
    observeToken maxDepth mustOrder stack .list =
        (if stack.length < maxDepth then .ok (.seq :: afterValue stack)
          else .error .nestingTooDeep) ∧
      observeToken maxDepth mustOrder stack .dict =
        (if stack.length < maxDepth then .ok (.mapKey none :: afterValue stack)
          else .error .nestingTooDeep) := by
  have hpush : ∀ level, pushLevel maxDepth (afterValue stack) level =
      if stack.length < maxDepth then .ok (level :: afterValue stack)
        else .error .nestingTooDeep := fun level => by
    rw [pushLevel, length_afterValue]
    split_ifs <;> first | rfl | omega
  rcases stack with _ | ⟨_ | last | _, rest⟩
  · exact ⟨hpush .seq, hpush (.mapKey none)⟩
  · exact ⟨hpush .seq, hpush (.mapKey none)⟩
  · exact absurd ⟨last, rest, rfl⟩ hdue
  · exact ⟨hpush .seq, hpush (.mapKey none)⟩

/-! ## Scanning -/

/-- **The next token**: its bytes are next, and the structure checker accepts it. -/
theorem Decoder.nextToken_iff {d d' : Decoder} {tok : Token} :
    d.nextToken = .ok (some tok, d') ↔ tok.Legal ∧ (∃ rest, d.unread = tok.bytes ++ rest) ∧
      ∃ state, observeToken d.maxDepth d.mustOrder d.state tok = .ok state ∧
        d' = d.advance tok.bytes state := by
  constructor
  · intro h
    obtain ⟨raw, hspell, hread, -⟩ := nextToken_spells h
    have hunread := hread.unread
    obtain ⟨hlegal, rfl⟩ := Token.spells_iff.mp hspell
    rw [nextToken_of_spells hspell hunread] at h
    obtain ⟨state, hstate, he⟩ := Checked.map_eq_ok.mp h
    exact ⟨hlegal, ⟨_, hunread⟩, state, hstate, (Prod.mk.inj he).2.symm⟩
  · rintro ⟨hlegal, ⟨rest, hunread⟩, state, hstate, rfl⟩
    rw [nextToken_of_spells (Token.spells_iff.mpr ⟨hlegal, rfl⟩) hunread, hstate]
    rfl

/-- From `d` to `d'` these tokens are read. -/
def Decoder.Scans : Decoder → List Token → Decoder → Prop
  | d, [], d' => d' = d
  | d, tok :: toks, d' => ∃ d₁, d.nextToken = .ok (some tok, d₁) ∧ Scans d₁ toks d'

theorem Decoder.Scans.append {d d' d'' : Decoder} {toks toks' : List Token}
    (h : d.Scans toks d') (h' : d'.Scans toks' d'') : d.Scans (toks ++ toks') d'' := by
  induction toks generalizing d with
  | nil => exact (show d' = d from h) ▸ h'
  | cons tok toks ih =>
      obtain ⟨d₁, htok, hrest⟩ := h
      exact ⟨d₁, htok, ih hrest⟩

/-- **Some tokens are read** where their bytes are and the structure checker accepts them. -/
theorem Decoder.scans_iff {d d' : Decoder} {toks : List Token} :
    d.Scans toks d' ↔ (∀ tok ∈ toks, tok.Legal) ∧
      (∃ rest, d.unread = toks.flatMap Token.bytes ++ rest) ∧
      ∃ state, observeTokens d.maxDepth d.mustOrder d.state toks = .ok state ∧
        d' = d.advance (toks.flatMap Token.bytes) state := by
  induction toks generalizing d with
  | nil =>
      constructor
      · intro h
        obtain rfl : d' = d := h
        exact ⟨nofun, ⟨d'.unread, rfl⟩, d'.state, rfl, rfl⟩
      · rintro ⟨-, -, state, hstate, rfl⟩
        obtain rfl := Except.ok.inj hstate
        rfl
  | cons tok toks ih =>
      constructor
      · rintro ⟨d₁, htok, hrest⟩
        obtain ⟨hlegal, ⟨rest, hunread⟩, state, hstate, rfl⟩ := nextToken_iff.mp htok
        obtain ⟨hall, ⟨rest', hunread'⟩, state', hstate', rfl⟩ := ih.mp hrest
        refine ⟨List.forall_mem_cons.mpr ⟨hlegal, hall⟩, ⟨rest', ?_⟩, state', ?_, ?_⟩
        · rw [unread_advance hunread] at hunread'
          rw [hunread, hunread', List.flatMap_cons, List.append_assoc]
        · rw [observeTokens, hstate]
          exact hstate'
        · rw [advance_advance]
          rfl
      · rintro ⟨hall, ⟨rest, hunread⟩, state, hstate, rfl⟩
        obtain ⟨hlegal, hall⟩ := List.forall_mem_cons.mp hall
        obtain ⟨state₁, hstate₁, hstate⟩ := Checked.bind_eq_ok.mp hstate
        rw [List.flatMap_cons, List.append_assoc] at hunread
        refine ⟨d.advance tok.bytes state₁,
          nextToken_iff.mpr ⟨hlegal, ⟨_, hunread⟩, state₁, hstate₁, rfl⟩, ?_⟩
        refine ih.mpr ⟨hall, ⟨rest, unread_advance hunread state₁⟩, state, hstate, ?_⟩
        rw [advance_advance]
        rfl

/-- The end of the input. -/
theorem Decoder.nextToken_none_iff {d d' : Decoder} :
    d.nextToken = .ok (none, d') ↔ d.offset = d.source.length ∧ d.state = [] ∧ d' = d := by
  unfold nextToken
  constructor
  · intro h
    split_ifs at h with hend hstate
    · exact ⟨hend, hstate, (Prod.mk.inj (Except.ok.inj h)).2.symm⟩
    · split at h
      · cases h
      · split at h <;> cases h
  · rintro ⟨hend, hstate, rfl⟩
    rw [if_pos hend, if_pos hstate]

/-! ## Tokens and objects -/

/-- The object that a token begins. -/
theorem nextObject_of_nextToken {d d' : Decoder} {tok : Token}
    (h : d.nextToken = .ok (some tok, d')) :
    d.nextObject = .ok (tokenObject d'.offset (some tok), d') := by
  rw [Decoder.nextObject_eq, h]

/-- An object was begun by a token. -/
theorem nextToken_of_nextObject {d d' : Decoder} {o : Object}
    (h : d.nextObject = .ok (some o, d')) :
    ∃ tok, d.nextToken = .ok (some tok, d') ∧ tokenObject d'.offset (some tok) = some o := by
  obtain ⟨tok, htok, ho⟩ := Decoder.nextObject_eq_ok h
  match tok with
  | none => cases ho
  | some tok => exact ⟨tok, htok, ho.symm⟩

/-- Inside a list or a dictionary no object is next at its end only. -/
theorem nextToken_of_nextObject_none {d d' : Decoder} (h : d.nextObject = .ok (none, d'))
    (hstate : d.state ≠ []) : d.nextToken = .ok (some .finish, d') := by
  obtain ⟨tok, htok, ho⟩ := Decoder.nextObject_eq_ok h
  match tok with
  | none => exact absurd (Decoder.nextToken_none_iff.mp htok).2.1 hstate
  | some .finish => exact htok
  | some .list => cases ho
  | some .dict => cases ho
  | some (.string _) => cases ho
  | some (.num _) => cases ho

/-- The tokens of an entry. -/
theorem nextPair_some {d d' : Decoder} {label : Bytes} {o : Object}
    (h : d.nextPair = .ok (some (label, o), d')) :
    ∃ d₀, d.nextToken = .ok (some (.string label), d₀) ∧ d₀.nextObject = .ok (some o, d') := by
  unfold Decoder.nextPair at h
  split at h
  · cases h
  · next label' d₀ hkey =>
      split at h
      · cases h
      · next value d₁ hvalue =>
          obtain ⟨hpair, rfl⟩ := Prod.mk.inj (Except.ok.inj h)
          obtain ⟨rfl, rfl⟩ := Prod.mk.inj (Option.some.inj hpair)
          obtain ⟨tok, htok, ho⟩ := nextToken_of_nextObject hkey
          match tok with
          | .string s =>
              obtain rfl := Object.bytes.inj (Option.some.inj ho)
              exact ⟨d₀, htok, hvalue⟩
      · cases h
  · cases h

/-- The end of a dictionary. -/
theorem nextPair_none {d d' : Decoder} {last : Option Bytes} {stack : List State}
    (hstate : d.state = .mapKey last :: stack) (h : d.nextPair = .ok (none, d')) :
    d.nextToken = .ok (some .finish, d') := by
  unfold Decoder.nextPair at h
  split at h
  · cases h
  · split at h <;> cases h
  · next o d₁ hno hobj =>
      obtain ⟨-, rfl⟩ := Prod.mk.inj (Except.ok.inj h)
      match o with
      | none => exact nextToken_of_nextObject_none hobj (by rw [hstate]; exact List.cons_ne_nil _ _)
      | some o =>
          obtain ⟨_, _, -, -, hstack⟩ := Decoder.nextObject_opened hobj
          rcases hstack with ⟨hnot, -⟩ | ⟨_, _, s, -, rfl, -⟩
          · exact absurd ⟨last, stack, hstate⟩ hnot
          · exact absurd rfl (hno s)

theorem scans_cons {d d₁ d' : Decoder} {tok : Token} {toks : List Token}
    (h : d.nextToken = .ok (some tok, d₁)) (h' : d₁.Scans toks d') : d.Scans (tok :: toks) d' :=
  ⟨d₁, h, h'⟩

/-- A scan is split where its tokens are. -/
theorem scans_append_iff {d d' : Decoder} {toks toks' : List Token} :
    d.Scans (toks ++ toks') d' ↔ ∃ d₁, d.Scans toks d₁ ∧ d₁.Scans toks' d' := by
  constructor
  · intro h
    induction toks generalizing d with
    | nil => exact ⟨d, rfl, h⟩
    | cons tok toks ih =>
        obtain ⟨d₁, htok, hrest⟩ := h
        obtain ⟨d₂, htoks, htoks'⟩ := ih hrest
        exact ⟨d₂, ⟨d₁, htok, htoks⟩, htoks'⟩
  · rintro ⟨d₁, htoks, htoks'⟩
    exact htoks.append htoks'

/-- Scanning does not change what is asked of the keys. -/
theorem mustOrder_of_scans {d d' : Decoder} {toks : List Token} (h : d.Scans toks d') :
    d'.mustOrder = d.mustOrder := by
  obtain ⟨-, -, state, -, rfl⟩ := Decoder.scans_iff.mp h
  rfl

/-! ## Streams -/

/-- The stream of tokens, without an error, is what is scanned up to the end. -/
theorem Decoder.tokensN_eq_iff {k : ℕ} {toks : List Token} :
    ∀ {d : Decoder}, d.remaining < k →
      (d.tokensN k = toks.map .ok ↔
        ∃ d', d.Scans toks d' ∧ d'.nextToken = .ok (none, d')) := by
  induction k generalizing toks with
  | zero => intro d hd; omega
  | succ k ih =>
      intro d hd
      rw [tokensN]
      match hnext : d.nextToken with
      | .error e =>
          constructor
          · intro h
            rcases toks with _ | ⟨tok, toks⟩
            · cases h
            · cases (List.cons.inj h).1
          · rintro ⟨d', hscan, hend⟩
            rcases toks with _ | ⟨tok, toks⟩
            · obtain rfl : d' = d := hscan
              rw [hnext] at hend
              cases hend
            · obtain ⟨d₁, htok, -⟩ := hscan
              rw [hnext] at htok
              cases htok
      | .ok (none, d₁) =>
          obtain ⟨-, -, rfl⟩ := nextToken_none_iff.mp hnext
          rcases toks with _ | ⟨tok, toks⟩
          · exact ⟨fun _ => ⟨d₁, rfl, hnext⟩, fun _ => rfl⟩
          · constructor
            · intro h
              cases h
            · rintro ⟨d', ⟨d₂, htok, -⟩, -⟩
              rw [hnext] at htok
              cases htok
      | .ok (some tok', d₁) =>
          have hless : d₁.remaining < k := by
            have := (nextToken_reads hnext).remaining_lt
            omega
          rcases toks with _ | ⟨tok, toks⟩
          · constructor
            · intro h
              cases h
            · rintro ⟨d', hscan, hend⟩
              obtain rfl : d' = d := hscan
              rw [hnext] at hend
              cases hend
          · rw [List.map_cons, List.cons.injEq, Except.ok.injEq, ih hless]
            constructor
            · rintro ⟨rfl, d', hscan, hend⟩
              exact ⟨d', ⟨d₁, hnext, hscan⟩, hend⟩
            · rintro ⟨d', ⟨d₂, htok, hscan⟩, hend⟩
              rw [hnext] at htok
              obtain ⟨hsame, rfl⟩ := Prod.mk.inj (Except.ok.inj htok)
              exact ⟨Option.some.inj hsame, d', hscan, hend⟩

/-! ## Emitting -/

/-- The encoder asks the structure checker. -/
theorem emitTokens_eq (toks : List Token) (e : Encoder) :
    emitTokens toks e = match observeTokens e.maxDepth true e.state toks with
      | .error err => .error (.structureError err)
      | .ok state => .ok (e.append (toks.flatMap Token.bytes) state) := by
  induction toks generalizing e with
  | nil => simp [emitTokens, observeTokens, Encoder.append]
  | cons tok toks ih =>
      rw [emitTokens, emitToken, Encoder.write, observeTokens]
      rcases observeToken e.maxDepth true e.state tok with err | state
      · rfl
      · show emitTokens toks (e.append tok.bytes state) = _
        rw [ih]
        simp only [Encoder.append, List.flatMap_cons, List.append_assoc]
        rfl

/-- What is written for some tokens. -/
theorem emitTokens_output_iff {toks : List Token} {maxDepth : ℕ} {data : Bytes} :
    (emitTokens toks (Encoder.new maxDepth)).bind Encoder.getOutput = .ok data ↔
      observeTokens maxDepth true [] toks = .ok [] ∧ data = toks.flatMap Token.bytes := by
  rw [emitTokens_eq]
  show (match observeTokens maxDepth true [] toks with
    | .error err => Except.error (EncodeError.structureError err)
    | .ok state => .ok ((Encoder.new maxDepth).append (toks.flatMap Token.bytes) state)).bind _ =
      _ ↔ _
  match observeTokens maxDepth true [] toks with
  | .error err => exact ⟨nofun, nofun⟩
  | .ok state =>
      show (if state = [] then Except.ok _ else _) = _ ↔ _
      split_ifs with hstate
      · subst hstate
        exact ⟨fun h => ⟨rfl, (Except.ok.inj h).symm⟩, fun h => h.2 ▸ rfl⟩
      · exact ⟨nofun, fun h => absurd (Except.ok.inj h.1) hstate⟩

/-- **The two ways between tokens and bytes are inverse to each other**: an input has these tokens,
and no error, if and only if it is what is written for them. -/
theorem tokens_iff_emitted (maxDepth : ℕ) (data : Bytes) (toks : List Token) :
    (Decoder.new data true maxDepth).tokens = toks.map .ok ↔
      (∀ tok ∈ toks, tok.Legal) ∧
        (emitTokens toks (Encoder.new maxDepth)).bind Encoder.getOutput = .ok data := by
  rw [Decoder.tokens, Decoder.tokensN_eq_iff (Nat.lt_succ_self _), emitTokens_output_iff]
  constructor
  · rintro ⟨d', hscan, hend⟩
    obtain ⟨hall, ⟨rest, hunread⟩, state, hstate, rfl⟩ := Decoder.scans_iff.mp hscan
    obtain ⟨hoffset, hempty, -⟩ := Decoder.nextToken_none_iff.mp hend
    obtain rfl : state = [] := hempty
    -- the decoder is behind the whole input
    have hrest : rest = [] := by
      have hnothing := Decoder.unread_advance hunread []
      rw [Decoder.unread, hoffset, List.drop_length] at hnothing
      exact hnothing.symm
    rw [hrest, List.append_nil] at hunread
    exact ⟨hall, hstate, hunread⟩
  · rintro ⟨hall, hstate, rfl⟩
    have hunread : (Decoder.new (toks.flatMap Token.bytes) true maxDepth).unread =
        toks.flatMap Token.bytes ++ [] := (List.append_nil _).symm
    refine ⟨_, Decoder.scans_iff.mpr ⟨hall, ⟨[], hunread⟩, [], hstate, rfl⟩, ?_⟩
    refine Decoder.nextToken_none_iff.mpr ⟨?_, rfl, rfl⟩
    show 0 + (toks.flatMap Token.bytes).length = _
    rw [Nat.zero_add]
    rfl

end Bendy
