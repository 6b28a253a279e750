/-
# Reading what bencode spells

The other direction of the grammar: at the bytes of a token the decoder reads this token, whatever
comes behind them.

* `Decoder.unread` are the bytes in front of a decoder, and `Decoder.advance` moves it on;
* `Decoder.nextToken_of_spells`: the next token is the one whose bytes are next, unless the
  structure checker refuses it;
* `Decoder.nextPair_of_key`: an entry of a dictionary is a key and the object behind it.
-/
import Dorodoro.BencodeGrammar

namespace Bendy

/-! ## Where a decoder is -/

/-- The bytes that are not read yet. -/
def Decoder.unread (d : Decoder) : Bytes := d.source.drop d.offset

/-- The decoder behind some bytes, with the levels that are open there. -/
def Decoder.advance (d : Decoder) (raw : Bytes) (state : List State) : Decoder :=
  { d with offset := d.offset + raw.length, state := state }

@[simp] theorem Decoder.source_advance (d : Decoder) (raw : Bytes) (state : List State) :
    (d.advance raw state).source = d.source := rfl

@[simp] theorem Decoder.offset_advance (d : Decoder) (raw : Bytes) (state : List State) :
    (d.advance raw state).offset = d.offset + raw.length := rfl

@[simp] theorem Decoder.state_advance (d : Decoder) (raw : Bytes) (state : List State) :
    (d.advance raw state).state = state := rfl

@[simp] theorem Decoder.maxDepth_advance (d : Decoder) (raw : Bytes) (state : List State) :
    (d.advance raw state).maxDepth = d.maxDepth := rfl

@[simp] theorem Decoder.mustOrder_advance (d : Decoder) (raw : Bytes) (state : List State) :
    (d.advance raw state).mustOrder = d.mustOrder := rfl

/-- Two steps of the decoder are one over both texts. -/
theorem Decoder.advance_advance (d : Decoder) (raw raw' : Bytes) (state state' : List State) :
    (d.advance raw state).advance raw' state' = d.advance (raw ++ raw') state' := by
  simp [advance, Nat.add_assoc]

variable {d : Decoder} {raw rest : Bytes} {tok : Token}

theorem Decoder.unread_advance (h : d.unread = raw ++ rest) (state : List State) :
    (d.advance raw state).unread = rest := by
  show d.source.drop (d.offset + raw.length) = rest
  rw [← List.drop_drop]
  exact (congrArg _ h).trans List.drop_left

theorem Decoder.remaining_eq (d : Decoder) : d.remaining = d.unread.length :=
  List.length_drop.symm

/-- A decoder in front of some bytes is inside its source. -/
theorem Decoder.le_of_unread (h : d.unread = raw ++ rest) (hne : raw ≠ []) :
    d.offset + raw.length ≤ d.source.length := by
  have hlen := congrArg List.length h
  rw [← remaining_eq, List.length_append] at hlen
  have hpos := List.length_pos_iff.mpr hne
  unfold remaining at hlen
  omega

theorem Decoder.Consumes.unread {d' : Decoder} (h : d.Consumes raw d') :
    d.unread = raw ++ d'.unread := by
  rw [Decoder.unread, Decoder.unread, h.bytes, h.source]

/-! ## Numbers -/

theorem isDigit_ne {c b : UInt8} (h : isDigit c = true) (hb : isDigit b = false) : c ≠ b := by
  rintro rfl
  rw [h] at hb
  cases hb

/-- **`take_int` reads a number** that a terminator follows. -/
theorem takeIntLoop_of_rest {terminator : Char} (hterm : isDigit (ascii terminator) = false)
    {s : Bytes} : ∀ {st : IntState} (pos : ℕ) (rest : Bytes), st.Rest s →
      takeIntLoop terminator st pos (s ++ ascii terminator :: rest) = .ok s := by
  induction s with
  | nil =>
      intro st pos rest h
      have hnot : ¬ Natural [] := by
        rintro (h | ⟨c, cs, h, -⟩)
        · cases h
        · cases h
      cases st with
      | start =>
          rcases h with h | ⟨t, h, -⟩
          · exact absurd h hnot
          · cases h
      | sign => exact absurd h.1 hnot
      | zero =>
          show takeIntLoop terminator .zero pos (ascii terminator :: rest) = _
          simp [takeIntLoop]
      | digits =>
          show takeIntLoop terminator .digits pos (ascii terminator :: rest) = _
          simp [takeIntLoop, hterm]
  | cons c s ih =>
      intro st pos rest h
      -- the first character is taken, and the loop is in a state in which the others are right
      have hmore : ∀ st' : IntState, st'.Rest s →
          (takeIntLoop terminator st' (pos + 1) (s ++ ascii terminator :: rest)).map (c :: ·) =
            .ok (c :: s) := fun _ hrest => by rw [ih (pos + 1) rest hrest]; rfl
      have hminus : isDigit (ascii '-') = false := by decide
      cases st with
      | start =>
          rcases h with (h | ⟨c', cs, h, hdigit, hzero, hall⟩) | ⟨t, h, hnat, hzero⟩
          · obtain ⟨rfl, rfl⟩ := List.cons.inj h
            have hne : ascii '0' ≠ ascii '-' := by decide
            show takeIntLoop terminator .start pos (ascii '0' :: _) = _
            rw [takeIntLoop, if_neg hne, if_pos rfl]
            exact hmore .zero rfl
          · obtain ⟨rfl, rfl⟩ := List.cons.inj h
            show takeIntLoop terminator .start pos (c :: _) = _
            rw [takeIntLoop, if_neg (isDigit_ne hdigit hminus), if_neg hzero, if_pos hdigit]
            exact hmore .digits hall
          · obtain ⟨rfl, rfl⟩ := List.cons.inj h
            show takeIntLoop terminator .start pos (ascii '-' :: _) = _
            rw [takeIntLoop, if_pos rfl]
            exact hmore .sign ⟨hnat, hzero⟩
      | sign =>
          obtain ⟨h | ⟨c', cs, h, hdigit, hzero, hall⟩, hne⟩ := h
          · exact absurd h hne
          · obtain ⟨rfl, rfl⟩ := List.cons.inj h
            show takeIntLoop terminator .sign pos (c :: _) = _
            rw [takeIntLoop, if_pos ⟨hdigit, hzero⟩]
            exact hmore .digits hall
      | zero => cases h
      | digits =>
          show takeIntLoop terminator .digits pos (c :: _) = _
          rw [takeIntLoop, if_pos (h c List.mem_cons_self)]
          exact hmore .digits fun b hb => h b (List.mem_cons_of_mem _ hb)

/-- A numeral is read up to its terminator. -/
theorem Decoder.takeInt_of_numeral {terminator : Char} {s : Bytes}
    (hterm : isDigit (ascii terminator) = false) (hs : Numeral s)
    (hd : d.unread = (s ++ [ascii terminator]) ++ rest) :
    d.takeInt terminator = .ok (s, d.advance (s ++ [ascii terminator]) d.state) := by
  have hloop : takeIntLoop terminator .start d.offset d.unread = .ok s := by
    rw [hd, List.append_assoc]
    exact takeIntLoop_of_rest hterm d.offset rest hs
  show (takeIntLoop terminator .start d.offset d.unread).map _ = _
  rw [hloop]
  simp [Except.map, advance, Nat.add_assoc]

/-! ## Tokens -/

/-- A chunk is taken from the unread text. -/
theorem Decoder.takeChunk_of_unread (h : d.unread = raw ++ rest)
    (hle : d.offset ≤ d.source.length) :
    d.takeChunk raw.length = some (raw, d.advance raw d.state) := by
  have hlen := congrArg List.length h
  rw [← remaining_eq, List.length_append, remaining] at hlen
  have htake : (d.source.drop d.offset).take raw.length = raw := by
    show d.unread.take raw.length = raw
    rw [h, List.take_left]
  rw [takeChunk, if_pos (by omega), htake]
  rfl

theorem Decoder.getElem?_of_unread {c : UInt8} (h : d.unread = c :: rest) :
    d.source[d.offset]? = some c := by
  have hhead : (d.source.drop d.offset)[0]? = some c := by
    show d.unread[0]? = some c
    rw [h]
    rfl
  rwa [List.getElem?_drop, Nat.add_zero] at hhead

/-- A length is a natural number. -/
theorem Numeral.exists_digit {n : Bytes} {len : ℕ} (hn : Numeral n)
    (hlen : parseUnsigned 64 n = some len) : ∃ c cs, n = c :: cs ∧ isDigit c = true := by
  rcases hn with (rfl | ⟨c, cs, rfl, hc, -, -⟩) | ⟨t, rfl, -, -⟩
  · exact ⟨_, [], rfl, by decide⟩
  · exact ⟨c, cs, rfl, hc⟩
  · cases hlen

theorem Token.Spells.ne_nil (h : tok.Spells raw) : raw ≠ [] := by
  cases tok with
  | list => exact (show raw = [ascii 'l'] from h) ▸ List.cons_ne_nil _ _
  | dict => exact (show raw = [ascii 'd'] from h) ▸ List.cons_ne_nil _ _
  | finish => exact (show raw = [ascii 'e'] from h) ▸ List.cons_ne_nil _ _
  | num s => exact h.2 ▸ List.cons_ne_nil _ _
  | string s =>
      obtain ⟨n, -, -, rfl⟩ := h
      simp

/-- **The token whose bytes are next** is read. -/
theorem Decoder.rawNextToken_of_spells (h : tok.Spells raw) (hd : d.unread = raw ++ rest) :
    d.rawNextToken = .ok (tok, d.advance raw d.state) := by
  obtain ⟨c, cs, hc⟩ := List.exists_cons_of_ne_nil h.ne_nil
  have hget : d.source[d.offset]? = some c := getElem?_of_unread (hd.trans (by rw [hc]; rfl))
  unfold Decoder.rawNextToken
  rw [hget]
  dsimp only
  cases tok with
  | list =>
      obtain rfl : raw = [ascii 'l'] := h
      obtain ⟨rfl, rfl⟩ := List.cons.inj hc
      rfl
  | dict =>
      obtain rfl : raw = [ascii 'd'] := h
      obtain ⟨rfl, rfl⟩ := List.cons.inj hc
      rfl
  | finish =>
      obtain rfl : raw = [ascii 'e'] := h
      obtain ⟨rfl, rfl⟩ := List.cons.inj hc
      rfl
  | num s =>
      obtain ⟨hs, rfl⟩ := h
      obtain ⟨rfl, rfl⟩ := List.cons.inj hc
      have hsplit : d.unread = [ascii 'i'] ++ ((s ++ [ascii 'e']) ++ rest) := hd
      have hint := takeInt_of_numeral (by decide) hs (unread_advance hsplit d.state)
      show ((d.advance [ascii 'i'] d.state).takeInt 'e').map _ = _
      rw [hint, advance_advance]
      rfl
  | string s =>
      obtain ⟨n, hn, hlen, rfl⟩ := h
      obtain ⟨c', cs', rfl, hdigit⟩ := hn.exists_digit hlen
      obtain ⟨rfl, -⟩ := List.cons.inj hc
      have hsplit : d.unread = (c' :: cs' ++ [ascii ':']) ++ (s ++ rest) := hd.trans (by simp)
      have hint := takeInt_of_numeral (by decide) hn hsplit
      have hchunk := takeChunk_of_unread (unread_advance hsplit d.state)
        (le_of_unread hsplit (by simp))
      rw [advance_advance] at hchunk
      rw [if_neg (isDigit_ne hdigit (by decide)), if_neg (isDigit_ne hdigit (by decide)),
        if_neg (isDigit_ne hdigit (by decide)), if_neg (isDigit_ne hdigit (by decide)),
        if_pos hdigit, hint]
      dsimp only
      rw [hlen]
      dsimp only
      rw [hchunk]
      simp [advance]

/-- The next token is the one whose bytes are next, unless the structure checker refuses it. -/
theorem Decoder.nextToken_of_spells (h : tok.Spells raw) (hd : d.unread = raw ++ rest) :
    d.nextToken = (observeToken d.maxDepth d.mustOrder d.state tok).map fun state =>
      (some tok, d.advance raw state) := by
  have hlt : d.offset + raw.length ≤ d.source.length := le_of_unread hd h.ne_nil
  have hpos : 0 < raw.length := List.length_pos_iff.mpr h.ne_nil
  unfold Decoder.nextToken
  rw [if_neg (by omega), rawNextToken_of_spells h hd]
  dsimp only
  cases observeToken d.maxDepth d.mustOrder d.state tok <;> rfl

/-- The object that a token begins, with the offset behind the token. -/
def tokenObject (offset : ℕ) : Option Token → Option Object
  | none | some .finish => none
  | some .list => some (.list (offset - 1))
  | some .dict => some (.dict (offset - 1))
  | some (.string s) => some (.bytes s)
  | some (.num s) => some (.integer s)

/-- The next object is the next token, with the place of the decoder behind it. -/
theorem Decoder.nextObject_eq (d : Decoder) : d.nextObject =
    match d.nextToken with
    | .error e => .error (.ofStructure e)
    | .ok (tok, d') => .ok (tokenObject d'.offset tok, d') := by
  unfold nextObject
  cases d.nextToken with
  | error e => rfl
  | ok next =>
      match next with
      | (none, _) => rfl
      | (some .finish, _) => rfl
      | (some .list, _) => rfl
      | (some .dict, _) => rfl
      | (some (.string _), _) => rfl
      | (some (.num _), _) => rfl

/-- An object comes from a token. -/
theorem Decoder.nextObject_eq_ok {d' : Decoder} {x : Option Object}
    (h : d.nextObject = .ok (x, d')) :
    ∃ tok, d.nextToken = .ok (tok, d') ∧ x = tokenObject d'.offset tok := by
  rw [nextObject_eq] at h
  split at h
  · cases h
  · next tok d₁ htok =>
      obtain ⟨rfl, rfl⟩ := Prod.mk.inj (Except.ok.inj h)
      exact ⟨tok, htok, rfl⟩

/-! ## Entries -/

theorem Decoder.nextPair_of_error {e : Error} (h : d.nextObject = .error e) :
    d.nextPair = .error e := by
  unfold nextPair
  rw [h]

/-- Behind a key comes its value. -/
theorem Decoder.nextPair_of_key {d' : Decoder} {k : Bytes}
    (h : d.nextObject = .ok (some (.bytes k), d')) : d.nextPair =
      match d'.nextObject with
      | .error e => .error e
      | .ok (some value, d'') => .ok (some (k, value), d'')
      | .ok (none, _) =>
          .error (.ofKind (.panicked "called `Option::unwrap()` on a `None` value")) := by
  match hvalue : d'.nextObject with
  | .error e => simp only [nextPair, h, hvalue]
  | .ok (none, d'') => simp only [nextPair, h, hvalue]
  | .ok (some value, d'') => simp only [nextPair, h, hvalue]

/-- The end of a dictionary. -/
theorem Decoder.nextPair_of_none {d' : Decoder} (h : d.nextObject = .ok (none, d')) :
    d.nextPair = .ok (none, d') := by
  unfold nextPair
  rw [h]

end Bendy
