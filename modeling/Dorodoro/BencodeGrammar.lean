/-
# The grammar of bencode

What the bytes look like that the decoder reads.

* `Value`, `Items` and `Pairs` are the values, the items of a list and the entries of a
  dictionary, as predicates on byte strings; keys may come in any order and more than once;
* `Decoder.Consumes raw` says that a decoder has read exactly the bytes `raw`;
* `Decoder.nextToken_spells` says what the bytes of a token are, and `consumes_dropObject_dict`
  that dropping a dictionary reads its entries and its end.
-/
import Dorodoro.Bendy

namespace Bendy

/-! ## The grammar -/

/-- A natural number without leading zeros. -/
def Natural (s : Bytes) : Prop :=
  s = [ascii '0'] ∨ ∃ c cs, s = c :: cs ∧ isDigit c ∧ c ≠ ascii '0' ∧ ∀ b ∈ cs, isDigit b

/-- An integer: a natural number, or a minus sign and a natural number other than zero. -/
def Numeral (s : Bytes) : Prop :=
  Natural s ∨ ∃ t, s = ascii '-' :: t ∧ Natural t ∧ t ≠ [ascii '0']

/-- A byte string with its length in front. -/
def Text (content raw : Bytes) : Prop :=
  ∃ n, Numeral n ∧ parseUnsigned 64 n = some content.length ∧ raw = n ++ ascii ':' :: content

mutual

/-- The values. -/
inductive Value : Bytes → Prop
  | string {content raw : Bytes} : Text content raw → Value raw
  | integer {n : Bytes} : Numeral n → Value (ascii 'i' :: n ++ [ascii 'e'])
  | list {items : Bytes} : Items items → Value (ascii 'l' :: items ++ [ascii 'e'])
  | dict {pairs : Bytes} : Pairs pairs → Value (ascii 'd' :: pairs ++ [ascii 'e'])

/-- The items of a list, one after the other. -/
inductive Items : Bytes → Prop
  | nil : Items []
  | cons {item rest : Bytes} : Value item → Items rest → Items (item ++ rest)

/-- The entries of a dictionary, one after the other. -/
inductive Pairs : Bytes → Prop
  | nil : Pairs []
  | cons {key raw value rest : Bytes} : Text key raw → Value value → Pairs rest →
      Pairs (raw ++ value ++ rest)

end

/-- Exactly one dictionary. -/
def Dictionary (raw : Bytes) : Prop :=
  ∃ pairs, Pairs pairs ∧ raw = ascii 'd' :: pairs ++ [ascii 'e']

/-- The bytes of a token. -/
def Token.Spells : Token → Bytes → Prop
  | .list, raw => raw = [ascii 'l']
  | .dict, raw => raw = [ascii 'd']
  | .string s, raw => Text s raw
  | .num s, raw => Numeral s ∧ raw = ascii 'i' :: s ++ [ascii 'e']
  | .finish, raw => raw = [ascii 'e']

/-! ## Consumed bytes -/

/-- From `d` to `d'` the bytes `raw` were read. -/
structure Decoder.Consumes (raw : Bytes) (d d' : Decoder) : Prop where
  source : d'.source = d.source
  offset : d'.offset = d.offset + raw.length
  bytes : d.source.drop d.offset = raw ++ d.source.drop d'.offset

theorem Decoder.Consumes.refl (d : Decoder) : d.Consumes [] d := ⟨rfl, rfl, rfl⟩

theorem Decoder.Consumes.trans {raw raw' : Bytes} {d d' d'' : Decoder} (h : d.Consumes raw d')
    (h' : d'.Consumes raw' d'') : d.Consumes (raw ++ raw') d'' where
  source := h'.source.trans h.source
  offset := by rw [h'.offset, h.offset, List.length_append, Nat.add_assoc]
  bytes := by
    have hbytes := h'.bytes
    rw [h.source] at hbytes
    rw [h.bytes, hbytes, List.append_assoc]

/-- The structure checker does not read. -/
theorem Decoder.Consumes.with_state {raw : Bytes} {d d' : Decoder} (h : d.Consumes raw d')
    (state : List State) : d.Consumes raw { d' with state := state } :=
  ⟨h.source, h.offset, h.bytes⟩

/-- The next byte is read. -/
theorem Decoder.consumes_byte {d : Decoder} {c : UInt8} (h : d.source[d.offset]? = some c) :
    d.Consumes [c] { d with offset := d.offset + 1 } := by
  obtain ⟨hlt, rfl⟩ := List.getElem?_eq_some_iff.mp h
  exact ⟨rfl, rfl, List.drop_eq_getElem_cons hlt⟩

/-- The bytes that were read, as a part of the source. -/
theorem Decoder.Consumes.source_eq {raw : Bytes} {d d' : Decoder} (h : d.Consumes raw d') :
    d.source = d.source.take d.offset ++ raw ++ d.source.drop d'.offset := by
  rw [List.append_assoc, ← h.bytes, List.take_append_drop]

/-- The bytes that were read, cut out of the source. -/
theorem Decoder.Consumes.slice {raw : Bytes} {d d' : Decoder} (h : d.Consumes raw d') :
    (d'.source.take d'.offset).drop d.offset = raw := by
  rw [h.source, h.offset, List.drop_take, h.bytes, Nat.add_sub_cancel_left, List.take_left]

/-! ## Tokens -/

/-- What the rest of a number looks like in a state of `take_int`. -/
def IntState.Rest : IntState → Bytes → Prop
  | .start, s => Numeral s
  | .sign, s => Natural s ∧ s ≠ [ascii '0']
  | .zero, s => s = []
  | .digits, s => ∀ b ∈ s, isDigit b

/-- **`take_int` reads a number and its terminator.** -/
theorem takeIntLoop_spells {terminator : Char} (cs : Bytes) :
    ∀ (st : IntState) (pos : ℕ) (s : Bytes), takeIntLoop terminator st pos cs = .ok s →
      st.Rest s ∧ ∃ rest, cs = s ++ ascii terminator :: rest := by
  induction cs with
  | nil =>
      intro st pos s h
      cases st <;> cases h
  | cons c cs ih =>
      intro st pos s h
      -- one more character in front of what the loop returns
      have hmore : ∀ {st' : IntState},
          (takeIntLoop terminator st' (pos + 1) cs).map (c :: ·) = .ok s →
            ∃ t, s = c :: t ∧ st'.Rest t ∧ ∃ rest, c :: cs = s ++ ascii terminator :: rest := by
        intro st' hm
        obtain ⟨t, ht, rfl⟩ := Checked.map_eq_ok.mp hm
        obtain ⟨hrest, rest, rfl⟩ := ih st' (pos + 1) t ht
        exact ⟨t, rfl, hrest, rest, rfl⟩
      have hend : c = ascii terminator → Except.ok [] = Except.ok (ε := StructureError) s →
          s = [] ∧ ∃ rest, c :: cs = s ++ ascii terminator :: rest := by
        rintro rfl hs
        obtain rfl := Except.ok.inj hs
        exact ⟨rfl, cs, rfl⟩
      have hnatural : ∀ t : Bytes, isDigit c → c ≠ ascii '0' → (∀ b ∈ t, isDigit b) →
          Natural (c :: t) ∧ c :: t ≠ [ascii '0'] := by
        intro t hc hzero ht
        exact ⟨Or.inr ⟨c, t, rfl, hc, hzero, ht⟩, fun he => hzero (List.cons.inj he).1⟩
      cases st with
      | start =>
          simp only [takeIntLoop] at h
          split_ifs at h with hminus hzero hdigit
          · obtain ⟨t, rfl, hrest, hs⟩ := hmore h
            exact ⟨Or.inr ⟨t, by rw [hminus], hrest⟩, hs⟩
          · obtain ⟨t, rfl, rfl, hs⟩ := hmore h
            exact ⟨Or.inl (Or.inl (by rw [hzero])), hs⟩
          · obtain ⟨t, rfl, hrest, hs⟩ := hmore h
            exact ⟨Or.inl (hnatural t hdigit hzero hrest).1, hs⟩
      | sign =>
          simp only [takeIntLoop] at h
          split_ifs at h with hdigit
          obtain ⟨t, rfl, hrest, hs⟩ := hmore h
          exact ⟨hnatural t hdigit.1 hdigit.2 hrest, hs⟩
      | zero =>
          simp only [takeIntLoop] at h
          split_ifs at h with hterm
          exact hend hterm h
      | digits =>
          simp only [takeIntLoop] at h
          split_ifs at h with hdigit hterm
          · obtain ⟨t, rfl, hrest, hs⟩ := hmore h
            refine ⟨fun b hb => ?_, hs⟩
            rcases List.mem_cons.mp hb with rfl | hmem
            · exact hdigit
            · exact hrest b hmem
          · obtain ⟨rfl, hs⟩ := hend hterm h
            exact ⟨fun b hb => absurd hb (List.not_mem_nil), hs⟩

theorem Decoder.takeInt_spells {d d' : Decoder} {terminator : Char} {s : Bytes}
    (h : d.takeInt terminator = .ok (s, d')) :
    Numeral s ∧ d.Consumes (s ++ [ascii terminator]) d' := by
  obtain ⟨a, ha, he⟩ := Checked.map_eq_ok.mp h
  obtain ⟨rfl, rfl⟩ := Prod.mk.inj he
  obtain ⟨hnum, rest, hrest⟩ := takeIntLoop_spells _ _ _ _ ha
  refine ⟨hnum, rfl, by simp [Nat.add_assoc], ?_⟩
  have hdrop : d.source.drop (d.offset + a.length + 1) = rest := by
    rw [Nat.add_assoc, ← List.drop_drop, hrest]
    simp
  rw [hdrop, hrest]
  simp

/-- `take_chunk` reads the chunk. -/
theorem Decoder.takeChunk_consumes {d d' : Decoder} {count : ℕ} {s : Bytes}
    (h : d.takeChunk count = some (s, d')) : s.length = count ∧ d.Consumes s d' := by
  simp only [takeChunk, Option.ite_none_right_eq_some, Option.some.injEq, Prod.mk.injEq] at h
  obtain ⟨hle, rfl, rfl⟩ := h
  have hlen : ((d.source.drop d.offset).take count).length = count := by
    rw [List.length_take, List.length_drop]
    omega
  refine ⟨hlen, rfl, by rw [hlen], ?_⟩
  rw [← List.drop_drop, List.take_append_drop]

/-- **The bytes of a token.** -/
theorem Decoder.rawNextToken_spells {d d' : Decoder} {tok : Token}
    (h : d.rawNextToken = .ok (tok, d')) : ∃ raw, tok.Spells raw ∧ d.Consumes raw d' := by
  unfold Decoder.rawNextToken at h
  split at h
  · cases h
  · next c hc =>
      have hbyte := d.consumes_byte hc
      simp only at h
      split_ifs at h with he hl hd hi hdigit
      · obtain ⟨rfl, rfl⟩ := Prod.mk.inj (Except.ok.inj h)
        exact ⟨[c], by rw [he]; rfl, hbyte⟩
      · obtain ⟨rfl, rfl⟩ := Prod.mk.inj (Except.ok.inj h)
        exact ⟨[c], by rw [hl]; rfl, hbyte⟩
      · obtain ⟨rfl, rfl⟩ := Prod.mk.inj (Except.ok.inj h)
        exact ⟨[c], by rw [hd]; rfl, hbyte⟩
      · obtain ⟨⟨s, d₁⟩, ht, hs⟩ := Checked.map_eq_ok.mp h
        obtain ⟨rfl, rfl⟩ := Prod.mk.inj hs
        obtain ⟨hnum, hread⟩ := takeInt_spells ht
        exact ⟨[c] ++ (s ++ [ascii 'e']), ⟨hnum, by rw [hi]; rfl⟩, hbyte.trans hread⟩
      · -- a string: its length, then its content
        split at h
        · cases h
        · next ival d₁ ht =>
            obtain ⟨hnum, hread⟩ := takeInt_spells ht
            split at h
            · cases h
            · next len hlen =>
                split at h
                · cases h
                · next s d₂ hchunk =>
                    obtain ⟨rfl, rfl⟩ := Prod.mk.inj (Except.ok.inj h)
                    obtain ⟨hcount, hcontent⟩ := takeChunk_consumes hchunk
                    refine ⟨ival ++ [ascii ':'] ++ s, ⟨ival, hnum, ?_, by simp⟩,
                      hread.trans hcontent⟩
                    rw [hlen, hcount]

theorem Decoder.nextToken_spells {d d' : Decoder} {tok : Token}
    (h : d.nextToken = .ok (some tok, d')) :
    ∃ raw, tok.Spells raw ∧ d.Consumes raw d' ∧
      observeToken d.maxDepth d.mustOrder d.state tok = .ok d'.state := by
  unfold Decoder.nextToken at h
  split at h
  · split at h <;> simp at h
  · split at h
    · cases h
    · next tok' d₁ hraw =>
        split at h
        · cases h
        · next state hstate =>
            obtain ⟨htok, rfl⟩ := Prod.mk.inj (Except.ok.inj h)
            obtain rfl := Option.some.inj htok
            obtain ⟨raw, hspell, hread⟩ := rawNextToken_spells hraw
            exact ⟨raw, hspell, hread.with_state state, hstate⟩

/-! ## Objects -/

/-- The open levels behind a value. -/
def afterValue : List State → List State
  | .mapValue label :: stack => .mapKey (some label) :: stack
  | stack => stack

/-- A key is due. -/
def KeyDue (stack : List State) : Prop := ∃ last rest, stack = .mapKey last :: rest

theorem not_keyDue_nil : ¬ KeyDue [] := by
  rintro ⟨_, _, hkey⟩
  nomatch hkey

theorem not_keyDue_seq (stack : List State) : ¬ KeyDue (.seq :: stack) := by
  rintro ⟨_, _, hkey⟩
  nomatch hkey

theorem not_keyDue_mapValue (label : Bytes) (stack : List State) :
    ¬ KeyDue (.mapValue label :: stack) := by
  rintro ⟨_, _, hkey⟩
  nomatch hkey

theorem pushLevel_eq_ok {maxDepth : ℕ} {stack state : List State} {level : State}
    (h : pushLevel maxDepth stack level = .ok state) : state = level :: stack := by
  unfold pushLevel at h
  split_ifs at h
  exact (Except.ok.inj h).symm

/-- What the structure checker does with a token. -/
theorem observeToken_eq_ok {maxDepth : ℕ} {mustOrder : Bool} {stack state : List State}
    {tok : Token} (h : observeToken maxDepth mustOrder stack tok = .ok state) :
    match tok with
    | .list => state = .seq :: afterValue stack
    | .dict => state = .mapKey none :: afterValue stack
    | .num _ => state = afterValue stack
    | .string label => (¬ KeyDue stack ∧ state = afterValue stack) ∨
        ∃ last rest, stack = .mapKey last :: rest ∧ state = .mapValue label :: rest
    | .finish => ∃ level, stack = level :: state ∧ ∀ label, level ≠ .mapValue label := by
  cases stack with
  | nil =>
      cases tok with
      | list => exact pushLevel_eq_ok h
      | dict => exact pushLevel_eq_ok h
      | num n => exact (Except.ok.inj h).symm
      | string label => exact Or.inl ⟨not_keyDue_nil, (Except.ok.inj h).symm⟩
      | finish => cases h
  | cons level rest =>
      cases level with
      | seq =>
          cases tok with
          | list => exact pushLevel_eq_ok h
          | dict => exact pushLevel_eq_ok h
          | num n => exact (Except.ok.inj h).symm
          | string label => exact Or.inl ⟨not_keyDue_seq rest, (Except.ok.inj h).symm⟩
          | finish => exact ⟨.seq, congrArg _ (Except.ok.inj h), fun label hl => by cases hl⟩
      | mapKey last =>
          cases tok with
          | list => cases last <;> cases h
          | dict => cases last <;> cases h
          | num n => cases last <;> cases h
          | string label =>
              refine Or.inr ⟨last, rest, rfl, ?_⟩
              cases last with
              | none => exact (Except.ok.inj h).symm
              | some old =>
                  simp only [observeToken] at h
                  split_ifs at h
                  exact (Except.ok.inj h).symm
          | finish =>
              refine ⟨.mapKey last, ?_, fun label hl => by cases hl⟩
              cases last <;> exact congrArg _ (Except.ok.inj h)
      | mapValue label =>
          cases tok with
          | list => exact pushLevel_eq_ok h
          | dict => exact pushLevel_eq_ok h
          | num n => exact (Except.ok.inj h).symm
          | string s => exact Or.inl ⟨not_keyDue_mapValue label rest, (Except.ok.inj h).symm⟩
          | finish => cases h

/-- The decoder has read the first bytes `raw` of the object, and `stack` are the levels behind
it. -/
def Object.Opened (raw : Bytes) (stack : List State) (d : Decoder) : Object → Prop
  | .list start => raw = [ascii 'l'] ∧ start + 1 = d.offset ∧ d.state = .seq :: stack
  | .dict start => raw = [ascii 'd'] ∧ start + 1 = d.offset ∧ d.state = .mapKey none :: stack
  | .integer _ => Value raw ∧ d.state = stack
  | .bytes s => Text s raw ∧ d.state = stack

/-- **The next object** was opened, at the level behind the value that it is, or is a key. -/
theorem Decoder.nextObject_opened {d d' : Decoder} {o : Object}
    (h : d.nextObject = .ok (some o, d')) :
    ∃ raw stack, d.Consumes raw d' ∧ o.Opened raw stack d' ∧
      ((¬ KeyDue d.state ∧ stack = afterValue d.state) ∨
        ∃ last rest s, d.state = .mapKey last :: rest ∧ o = .bytes s ∧
          stack = .mapValue s :: rest) := by
  unfold Decoder.nextObject at h
  split at h
  · cases h
  · next tok d₁ htok =>
      obtain ⟨ho, rfl⟩ := Prod.mk.inj (Except.ok.inj h)
      cases tok with
      | none => cases ho
      | some tok =>
          obtain ⟨raw, hspell, hread, hstate⟩ := nextToken_spells htok
          have hobs := observeToken_eq_ok hstate
          have hoff := hread.offset
          -- only a string is a key
          have hkey : (∀ s, tok ≠ .string s) → tok ≠ .finish → ¬ KeyDue d.state := by
            rintro hstring hend ⟨last, rest, hlast⟩
            rw [hlast] at hstate
            cases tok with
            | list => cases last <;> cases hstate
            | dict => cases last <;> cases hstate
            | num n => cases last <;> cases hstate
            | string s => exact hstring s rfl
            | finish => exact hend rfl
          cases tok with
          | list =>
              obtain rfl := Option.some.inj ho
              obtain rfl : raw = [ascii 'l'] := hspell
              exact ⟨_, afterValue d.state, hread, ⟨rfl, by rw [hoff]; rfl, hobs⟩,
                Or.inl ⟨hkey (by simp) (by simp), rfl⟩⟩
          | dict =>
              obtain rfl := Option.some.inj ho
              obtain rfl : raw = [ascii 'd'] := hspell
              exact ⟨_, afterValue d.state, hread, ⟨rfl, by rw [hoff]; rfl, hobs⟩,
                Or.inl ⟨hkey (by simp) (by simp), rfl⟩⟩
          | num n =>
              obtain rfl := Option.some.inj ho
              obtain ⟨hnum, rfl⟩ := hspell
              exact ⟨_, afterValue d.state, hread, ⟨.integer hnum, hobs⟩,
                Or.inl ⟨hkey (by simp) (by simp), rfl⟩⟩
          | string s =>
              obtain rfl := Option.some.inj ho
              rcases hobs with ⟨hnot, hvalue⟩ | ⟨last, rest, hlast, hvalue⟩
              · exact ⟨raw, afterValue d.state, hread, ⟨hspell, hvalue⟩, Or.inl ⟨hnot, rfl⟩⟩
              · exact ⟨raw, _, hread, ⟨hspell, hvalue⟩, Or.inr ⟨last, rest, s, hlast, rfl, rfl⟩⟩
          | finish => cases ho

/-- The next item of an open list was opened. -/
theorem Decoder.nextObject_item {d d' : Decoder} {o : Object} {stack : List State}
    (hd : d.state = .seq :: stack) (h : d.nextObject = .ok (some o, d')) :
    ∃ raw, d.Consumes raw d' ∧ o.Opened raw (.seq :: stack) d' := by
  obtain ⟨raw, stack', hread, hopened, hstack⟩ := nextObject_opened h
  rw [hd] at hstack
  rcases hstack with ⟨-, rfl⟩ | ⟨_, _, _, hkey, -⟩
  · exact ⟨raw, hread, hopened⟩
  · cases hkey

/-- The end of a list or of a dictionary. -/
theorem Decoder.nextObject_finish {d d' : Decoder} (h : d.nextObject = .ok (none, d'))
    (hopen : d.state ≠ []) :
    d.Consumes [ascii 'e'] d' ∧ ∃ level, d.state = level :: d'.state := by
  unfold Decoder.nextObject at h
  split at h
  · cases h
  · next tok d₁ htok =>
      obtain ⟨ho, rfl⟩ := Prod.mk.inj (Except.ok.inj h)
      cases tok with
      | none =>
          -- the input ends at the top level only
          unfold Decoder.nextToken at htok
          split at htok
          · cases htok
          · split at htok
            · cases htok
            · split at htok <;> simp at htok
      | some tok =>
          obtain ⟨raw, hspell, hread, hstate⟩ := nextToken_spells htok
          cases tok with
          | finish =>
              obtain rfl : raw = [ascii 'e'] := hspell
              obtain ⟨level, hlevel, -⟩ := observeToken_eq_ok hstate
              exact ⟨hread, level, hlevel⟩
          | list => cases ho
          | dict => cases ho
          | num n => cases ho
          | string s => cases ho

/-- **The next entry of a dictionary.** -/
theorem Decoder.nextPair_opened {d d' : Decoder} {key : Bytes} {value : Object}
    {last : Option Bytes} {stack : List State} (hd : d.state = .mapKey last :: stack)
    (h : d.nextPair = .ok (some (key, value), d')) :
    ∃ rawKey raw, Text key rawKey ∧ d.Consumes (rawKey ++ raw) d' ∧
      value.Opened raw (.mapKey (some key) :: stack) d' := by
  unfold Decoder.nextPair at h
  split at h
  · cases h
  · next key' d₁ hkey =>
      split at h
      · cases h
      · next value' d₂ hvalue =>
          obtain ⟨hpair, rfl⟩ := Prod.mk.inj (Except.ok.inj h)
          obtain ⟨rfl, rfl⟩ := Prod.mk.inj (Option.some.inj hpair)
          obtain ⟨rawKey, _, hread₁, ⟨htext, hstate⟩, hstack⟩ := nextObject_opened hkey
          obtain ⟨raw, _, hread₂, hopened, hafter⟩ := nextObject_opened hvalue
          rcases hstack with ⟨hnot, -⟩ | ⟨last', rest, s, hlast, hs, rfl⟩
          · exact absurd ⟨last, stack, hd⟩ hnot
          · obtain rfl := Object.bytes.inj hs
            obtain ⟨-, rfl⟩ := List.cons.inj (hd.symm.trans hlast)
            rw [hstate] at hafter
            rcases hafter with ⟨-, rfl⟩ | ⟨_, _, _, hlast', -⟩
            · exact ⟨rawKey, raw, htext, hread₁.trans hread₂, hopened⟩
            · cases hlast'
      · cases h
  · cases h

/-- The value of an entry was opened, at any level. -/
theorem Decoder.nextPair_value {d d' : Decoder} {key : Bytes} {value : Object}
    (h : d.nextPair = .ok (some (key, value), d')) :
    ∃ (d₀ : Decoder) (raw : Bytes) (stack : List State), d₀.source = d.source ∧
      d₀.Consumes raw d' ∧ value.Opened raw stack d' := by
  unfold Decoder.nextPair at h
  split at h
  · cases h
  · next key' d₁ hkey =>
      split at h
      · cases h
      · next value' d₂ hvalue =>
          obtain ⟨hpair, rfl⟩ := Prod.mk.inj (Except.ok.inj h)
          obtain ⟨-, rfl⟩ := Prod.mk.inj (Option.some.inj hpair)
          obtain ⟨_, _, hread, -, -⟩ := nextObject_opened hkey
          obtain ⟨raw, stack, hread', hopened, -⟩ := nextObject_opened hvalue
          exact ⟨d₁, raw, stack, hread.source, hread', hopened⟩
      · cases h
  · cases h

theorem Decoder.nextPair_finish {d d' : Decoder} {last : Option Bytes} {stack : List State}
    (hd : d.state = .mapKey last :: stack) (h : d.nextPair = .ok (none, d')) :
    d.Consumes [ascii 'e'] d' ∧ d'.state = stack := by
  unfold Decoder.nextPair at h
  split at h
  · cases h
  · split at h <;> cases h
  · next o d₁ hno hobj =>
      obtain ⟨-, rfl⟩ := Prod.mk.inj (Except.ok.inj h)
      cases o with
      | none =>
          obtain ⟨hread, level, hlevel⟩ := nextObject_finish hobj (by simp [hd])
          exact ⟨hread, (List.cons.inj (hlevel.symm.trans hd)).2⟩
      | some o =>
          obtain ⟨_, _, -, -, hstack⟩ := nextObject_opened hobj
          rcases hstack with ⟨hnot, -⟩ | ⟨_, _, s, -, rfl, -⟩
          · exact absurd ⟨last, stack, hd⟩ hnot
          · exact absurd rfl (hno s)

/-- From `d`, inside the object, to `d'` the rest of the object was read. -/
def Object.Closed (d d' : Decoder) : Object → Prop
  | .list _ => ∀ stack, d.state = .seq :: stack →
      ∃ items, Items items ∧ d.Consumes (items ++ [ascii 'e']) d' ∧ d'.state = stack
  | .dict _ => ∀ last stack, d.state = .mapKey last :: stack →
      ∃ pairs, Pairs pairs ∧ d.Consumes (pairs ++ [ascii 'e']) d' ∧ d'.state = stack
  | .integer _ => d' = d
  | .bytes _ => d' = d

/-- An object that was opened and closed is a value. -/
theorem Object.Opened.value {o : Object} {raw : Bytes} {stack : List State} {d d' : Decoder}
    (hopened : o.Opened raw stack d) (hclosed : o.Closed d d') :
    ∃ rest, Value (raw ++ rest) ∧ d.Consumes rest d' ∧ d'.state = stack := by
  cases o with
  | list start =>
      obtain ⟨rfl, -, hstate⟩ := hopened
      obtain ⟨items, hitems, hread, hend⟩ := hclosed stack hstate
      exact ⟨items ++ [ascii 'e'], .list hitems, hread, hend⟩
  | dict start =>
      obtain ⟨rfl, -, hstate⟩ := hopened
      obtain ⟨pairs, hpairs, hread, hend⟩ := hclosed none stack hstate
      exact ⟨pairs ++ [ascii 'e'], .dict hpairs, hread, hend⟩
  | integer n =>
      obtain ⟨hvalue, hstate⟩ := hopened
      obtain rfl : d' = d := hclosed
      exact ⟨[], by rwa [List.append_nil], .refl d', hstate⟩
  | bytes s =>
      obtain ⟨htext, hstate⟩ := hopened
      obtain rfl : d' = d := hclosed
      exact ⟨[], by rw [List.append_nil]; exact .string htext, .refl d', hstate⟩

/-- **Dropping an object** reads it to its end. -/
theorem closed_of_dropObjectN {k : ℕ} :
    ∀ {o : Object} {d d' : Decoder}, dropObjectN k o d = .ok d' → o.Closed d d' := by
  induction k with
  | zero =>
      intro o d d' h
      cases o with
      | list start => cases h
      | dict start => cases h
      | integer n => exact (Except.ok.inj h).symm
      | bytes s => exact (Except.ok.inj h).symm
  | succ k ih =>
      intro o d d' h
      cases o with
      | list start =>
          intro stack hstate
          obtain ⟨_ | item, d₁, hobj, hx⟩ := dropObjectN_list_eq_ok h
          · obtain rfl := hx
            obtain ⟨hread, level, hlevel⟩ := Decoder.nextObject_finish hobj (by simp [hstate])
            exact ⟨[], .nil, hread, (List.cons.inj (hlevel.symm.trans hstate)).2⟩
          · -- one item, and the rest of the list
            obtain ⟨d₂, hitem, hlist⟩ := hx
            obtain ⟨raw, hread, hopened⟩ := Decoder.nextObject_item hstate hobj
            obtain ⟨rest, hvalue, hread₂, hstate₂⟩ := hopened.value (ih hitem)
            obtain ⟨items, hitems, hread₃, hend⟩ := ih hlist stack hstate₂
            refine ⟨raw ++ rest ++ items, .cons hvalue hitems, ?_, hend⟩
            rw [List.append_assoc]
            exact (hread.trans hread₂).trans hread₃
      | dict start =>
          intro last stack hstate
          obtain ⟨_ | ⟨key, value⟩, d₁, hpair, hx⟩ := dropObjectN_dict_eq_ok h
          · obtain rfl := hx
            obtain ⟨hread, hend⟩ := Decoder.nextPair_finish hstate hpair
            exact ⟨[], .nil, hread, hend⟩
          · -- one entry, and the rest of the dictionary
            obtain ⟨d₂, hvalue, hdict⟩ := hx
            obtain ⟨rawKey, raw, htext, hread, hopened⟩ := Decoder.nextPair_opened hstate hpair
            obtain ⟨rest, hval, hread₂, hstate₂⟩ := hopened.value (ih hvalue)
            obtain ⟨pairs, hpairs, hread₃, hend⟩ := ih hdict (some key) stack hstate₂
            refine ⟨rawKey ++ (raw ++ rest) ++ pairs, .cons htext hval hpairs, ?_, hend⟩
            rw [List.append_assoc]
            have hall := (hread.trans hread₂).trans hread₃
            rwa [List.append_assoc rawKey] at hall
      | integer n => exact (Except.ok.inj h).symm
      | bytes s => exact (Except.ok.inj h).symm

/-- **The raw bytes of a dictionary** that was opened and dropped are one dictionary. -/
theorem dictionary_of_dropObject {start : ℕ} {d₀ d d' : Decoder} {raw : Bytes}
    {stack : List State} (hread : d₀.Consumes raw d)
    (hopened : (Object.dict start).Opened raw stack d)
    (h : dropObject (.dict start) d = .ok d') :
    start = d₀.offset ∧ ∃ slice, Dictionary slice ∧ d₀.Consumes slice d' := by
  obtain ⟨rfl, hstart, hstate⟩ := hopened
  obtain ⟨pairs, hpairs, hrest, -⟩ := closed_of_dropObjectN h none stack hstate
  have hoffset := hread.offset
  rw [List.length_singleton] at hoffset
  exact ⟨by omega, _, ⟨pairs, hpairs, rfl⟩, hread.trans hrest⟩

/-! ## The dictionary loop -/

/-- The invariant rule of the dictionary loop, for a body that uses where its value was read. -/
theorem dictLoopN_opened {σ : Type} {body : σ → Bytes → Decode σ} {I : σ → Prop} {source : Bytes}
    (hforward : ∀ s key, (body s key).Forward)
    (hbody : ∀ {s key o s'} {d₀ d d' : Decoder} {raw stack}, I s → d₀.source = source →
      d₀.Consumes raw d → o.Opened raw stack d → body s key o d = .ok (s', d') → I s') {k : ℕ} :
    ∀ {s s' : σ} {d d' : Decoder}, I s → d.source = source →
      dictLoopN body k s d = .ok (s', d') → I s' := by
  induction k with
  | zero => intro s s' d d' _ _ h; cases h
  | succ k ih =>
      intro s s' d d' hs hsource h
      obtain ⟨_ | ⟨key, value⟩, d₁, hpair, hx⟩ := dictLoopN_eq_ok h
      · obtain ⟨rfl, -⟩ := hx
        exact hs
      · obtain ⟨s₁, d₂, hval, hrest⟩ := hx
        obtain ⟨d₀, raw, stack, hd₀, hread, hopened⟩ := Decoder.nextPair_value hpair
        have hreads := Decoder.nextPair_reads hpair
        have hnext := hforward s key hval hreads.offset_le
        refine ih (hbody hs (hd₀.trans hsource) hread hopened hval) ?_ hrest
        rw [hnext.source, hreads.source, hsource]

end Bendy
