/-
# The bencode decoder (`lib/bendy`)

The token reader, the structure checker and the object decoders of the vendored
`bendy` crate, as state passing over a `Decoder`.

* `Decoder.rawNextToken` reads a token, `observeToken` checks it against the stack of
  open lists and dictionaries, `Decoder.nextObject` does both;
* `dropObject` is what dropping an unread list or dictionary does (`consume_all`);
* `dictLoop` and `listLoop` are the `while let Some(..) = ..` loops of the
  `FromBencode` instances, and `decodeString`, `decodeUnsigned`, `decodeVec` the
  instances for the base types;
* `fromBencode` is the entry point.

Every error is latched by the decoder and reported by each later read, and every
caller propagates it, so an error ends the decoding: the state `Failed` is the error
case of `Except`.  Loops are bounded by the number of unread bytes;
`Decoder.nextToken_reads` shows that every token uses at least one of them, and
`dictLoopN_fuel` and `listLoopN_fuel` that the bound is therefore never met.
-/
import Dorodoro.Bytes
import Dorodoro.Checked

namespace Bendy

/-! ## Errors -/

/-- `StructureError`; the three kinds of `SyntaxError` message are kept apart. -/
inductive StructureError where
  | invalidState (expected : String)
  | unsortedKeys
  | unexpectedEof
  | unexpected (expected : String) (got : UInt8) (offset : ℕ)
  | invalidInteger (offset : ℕ)
  | invalidToken (tok : UInt8) (offset : ℕ)
  | nestingTooDeep
  deriving DecidableEq

/-- The causes of `MalformedContent` that the decoders produce. -/
inductive MalformedCause where
  | fromUtf8
  | parseInt
  deriving DecidableEq

/-- `ErrorKind`, and the panics of the code the decoder runs. -/
inductive ErrorKind where
  | malformedContent (cause : MalformedCause)
  | missingField (name : String)
  | structureError (e : StructureError)
  | unexpectedToken (expected discovered : String)
  | panicked (message : String)
  deriving DecidableEq

/-- `Error`. -/
structure Error where
  context : Option String
  error : ErrorKind
  deriving DecidableEq

/-- `Error::from`. -/
def Error.ofKind (k : ErrorKind) : Error := ⟨none, k⟩

/-- `Error::from(StructureError)`. -/
def Error.ofStructure (e : StructureError) : Error := .ofKind (.structureError e)

/-- `Error::missing_field`. -/
def Error.missingField (name : String) : Error := .ofKind (.missingField name)

/-- `Error::context`: the path of fields down to the error.  A panic is not an error
value and passes through. -/
def Error.addContext (e : Error) (name : String) : Error :=
  match e.error with
  | .panicked _ => e
  | _ =>
      { e with
        context := match e.context with
          | some current => some (name ++ "." ++ current)
          | none => some name }

/-- `ResultExt::context`. -/
def context {α : Type} (name : String) : Except Error α → Except Error α
  | .ok a => .ok a
  | .error e => .error (e.addContext name)

theorem context_eq_ok {α : Type} {name : String} {x : Except Error α} {a : α}
    (h : context name x = .ok a) : x = .ok a := by
  cases x with
  | error e => cases h
  | ok b => exact h

/-! ## Tokens and the structure checker -/

/-- `Token`. -/
inductive Token where
  | list
  | dict
  | string (s : Bytes)
  | num (s : Bytes)
  | finish
  deriving DecidableEq

/-- `State`: what is allowed next at one nesting level. -/
inductive State where
  | seq
  | mapKey (last : Option Bytes)
  | mapValue (label : Bytes)
  deriving DecidableEq

/-- Open a list or a dictionary. -/
def pushLevel (maxDepth : ℕ) (stack : List State) (level : State) :
    Except StructureError (List State) :=
  if maxDepth ≤ stack.length then .error .nestingTooDeep else .ok (level :: stack)

/-- `StateTracker::observe_token`; the head of the list is the innermost level. -/
def observeToken (maxDepth : ℕ) (mustOrder : Bool) :
    List State → Token → Except StructureError (List State)
  | [], .finish => .error (.invalidState "End not allowed at top level")
  | .seq :: stack, .finish => .ok stack
  | .mapKey _ :: stack, .finish => .ok stack
  | .mapKey none :: stack, .string label => .ok (.mapValue label :: stack)
  | .mapKey (some old) :: stack, .string label =>
      if mustOrder ∧ ¬ old < label then .error .unsortedKeys
      else .ok (.mapValue label :: stack)
  | .mapKey _ :: _, _ => .error (.invalidState "Map keys must be strings")
  | .mapValue label :: stack, .list => pushLevel maxDepth (.mapKey (some label) :: stack) .seq
  | .mapValue label :: stack, .dict =>
      pushLevel maxDepth (.mapKey (some label) :: stack) (.mapKey none)
  | .mapValue _ :: _, .finish => .error (.invalidState "Missing map value")
  | .mapValue label :: stack, _ => .ok (.mapKey (some label) :: stack)
  | stack, .list => pushLevel maxDepth stack .seq
  | stack, .dict => pushLevel maxDepth stack (.mapKey none)
  | stack, _ => .ok stack

/-! ## The decoder -/

/-- `Decoder`. -/
structure Decoder where
  source : Bytes
  offset : ℕ
  state : List State
  maxDepth : ℕ
  mustOrder : Bool
  deriving DecidableEq

/-- `Decoder::new(..).with_must_order(..).with_max_depth(..)`. -/
def Decoder.new (source : Bytes) (mustOrder : Bool) (maxDepth : ℕ) : Decoder :=
  ⟨source, 0, [], maxDepth, mustOrder⟩

/-- The number of unread bytes. -/
def Decoder.remaining (d : Decoder) : ℕ := d.source.length - d.offset

/-- An ASCII character as a byte. -/
def ascii (c : Char) : UInt8 := c.toNat.toUInt8

/-- `'0'..='9'`. -/
def isDigit (b : UInt8) : Bool := ascii '0' ≤ b && b ≤ ascii '9'

/-- The states of `take_int`. -/
inductive IntState where
  | start
  | sign
  | zero
  | digits
  deriving DecidableEq

/-- The loop of `take_int`: the characters before the terminator. -/
def takeIntLoop (terminator : Char) : IntState → ℕ → Bytes → Except StructureError Bytes
  | _, _, [] => .error .unexpectedEof
  | .start, pos, c :: cs =>
      if c = ascii '-' then (takeIntLoop terminator .sign (pos + 1) cs).map (c :: ·)
      else if c = ascii '0' then (takeIntLoop terminator .zero (pos + 1) cs).map (c :: ·)
      else if isDigit c then (takeIntLoop terminator .digits (pos + 1) cs).map (c :: ·)
      else .error (.unexpected "'-' or '0'..'9'" c pos)
  | .zero, pos, c :: _ =>
      if c = ascii terminator then .ok []
      else .error (.unexpected ("'" ++ terminator.toString ++ "'") c pos)
  | .sign, pos, c :: cs =>
      if isDigit c ∧ c ≠ ascii '0' then
        (takeIntLoop terminator .digits (pos + 1) cs).map (c :: ·)
      else .error (.unexpected "'1'..'9'" c pos)
  | .digits, pos, c :: cs =>
      if isDigit c then (takeIntLoop terminator .digits (pos + 1) cs).map (c :: ·)
      else if c = ascii terminator then .ok []
      else .error (.unexpected ("'" ++ terminator.toString ++ "' or '0'..'9'") c pos)

/-- `Decoder::take_int`. -/
def Decoder.takeInt (d : Decoder) (terminator : Char) : Except StructureError (Bytes × Decoder) :=
  (takeIntLoop terminator .start d.offset (d.source.drop d.offset)).map fun s =>
    (s, { d with offset := d.offset + s.length + 1 })

/-- The value of a digit string. -/
def digitsValue (s : Bytes) : ℕ := s.foldl (fun acc c => acc * 10 + (c.toNat - 48)) 0

/-- `str::parse` for an unsigned integer of `bits` bits, on the strings `take_int`
returns. -/
def parseUnsigned (bits : ℕ) (s : Bytes) : Option ℕ :=
  if s.head? = some (ascii '-') then none
  else if digitsValue s < 2 ^ bits then some (digitsValue s)
  else none

/-- `Decoder::take_chunk`. -/
def Decoder.takeChunk (d : Decoder) (count : ℕ) : Option (Bytes × Decoder) :=
  if d.offset + count ≤ d.source.length then
    some ((d.source.drop d.offset).take count, { d with offset := d.offset + count })
  else none

/-- `Decoder::raw_next_token`. -/
def Decoder.rawNextToken (d : Decoder) : Except StructureError (Token × Decoder) :=
  match d.source[d.offset]? with
  | none => .error .unexpectedEof
  | some c =>
      let next : Decoder := { d with offset := d.offset + 1 }
      if c = ascii 'e' then .ok (.finish, next)
      else if c = ascii 'l' then .ok (.list, next)
      else if c = ascii 'd' then .ok (.dict, next)
      else if c = ascii 'i' then (next.takeInt 'e').map fun (s, d') => (.num s, d')
      else if isDigit c then
        match d.takeInt ':' with
        | .error e => .error e
        | .ok (ival, d') =>
            match parseUnsigned 64 ival with
            | none => .error (.invalidInteger d.offset)
            | some len =>
                match d'.takeChunk len with
                | none => .error .unexpectedEof
                | some (s, d'') => .ok (.string s, d'')
      else .error (.invalidToken c d.offset)

/-- `Decoder::next_token`. -/
def Decoder.nextToken (d : Decoder) : Except StructureError (Option Token × Decoder) :=
  if d.offset = d.source.length then
    if d.state = [] then .ok (none, d) else .error .unexpectedEof
  else
    match d.rawNextToken with
    | .error e => .error e
    | .ok (tok, d') =>
        match observeToken d.maxDepth d.mustOrder d.state tok with
        | .error e => .error e
        | .ok state => .ok (some tok, { d' with state := state })

/-- `Object`; lists and dictionaries carry the offset they start at. -/
inductive Object where
  | list (startPoint : ℕ)
  | dict (startPoint : ℕ)
  | integer (s : Bytes)
  | bytes (s : Bytes)
  deriving DecidableEq

/-- `Object::into_token` followed by `Token::name`. -/
def Object.name : Object → String
  | .list _ => "List"
  | .dict _ => "Dict"
  | .integer _ => "Num"
  | .bytes _ => "String"

/-- `Decoder::next_object`. -/
def Decoder.nextObject (d : Decoder) : Except Error (Option Object × Decoder) :=
  match d.nextToken with
  | .error e => .error (.ofStructure e)
  | .ok (tok, d') =>
      .ok (match tok with
        | none | some .finish => none
        | some .list => some (.list (d'.offset - 1))
        | some .dict => some (.dict (d'.offset - 1))
        | some (.string s) => some (.bytes s)
        | some (.num s) => some (.integer s), d')

/-- `DictDecoder::next_pair` on a dictionary that is not finished; the value after a key is
unwrapped. -/
def Decoder.nextPair (d : Decoder) : Except Error (Option (Bytes × Object) × Decoder) :=
  match d.nextObject with
  | .error e => .error e
  | .ok (some (.bytes key), d') =>
      match d'.nextObject with
      | .error e => .error e
      | .ok (some value, d'') => .ok (some (key, value), d'')
      | .ok (none, _) =>
          .error (.ofKind (.panicked "called `Option::unwrap()` on a `None` value"))
  | .ok (_, d') => .ok (none, d')

/-- Drop an object: the rest of a list or dictionary is consumed. -/
def dropObjectN : ℕ → Object → Decoder → Except Error Decoder
  | _, .integer _, d => .ok d
  | _, .bytes _, d => .ok d
  | 0, _, _ => .error (.ofStructure .unexpectedEof)
  | k + 1, .list start, d =>
      match d.nextObject with
      | .error e => .error e
      | .ok (none, d') => .ok d'
      | .ok (some item, d') => (dropObjectN k item d').bind (dropObjectN k (.list start))
  | k + 1, .dict start, d =>
      match d.nextPair with
      | .error e => .error e
      | .ok (none, d') => .ok d'
      | .ok (some (_, value), d') => (dropObjectN k value d').bind (dropObjectN k (.dict start))

@[inherit_doc dropObjectN]
def dropObject (o : Object) (d : Decoder) : Except Error Decoder :=
  dropObjectN (d.remaining + 1) o d

/-! ## Decoding values -/

/-- `FromBencode::decode_bencode_object`. -/
abbrev Decode (T : Type) := Object → Decoder → Except Error (T × Decoder)

/-- `while let Some((key, value)) = dict.next_pair()? { body }`. -/
def dictLoopN {σ : Type} (body : σ → Bytes → Decode σ) : ℕ → σ → Decoder →
    Except Error (σ × Decoder)
  | 0, _, _ => .error (.ofStructure .unexpectedEof)
  | k + 1, s, d =>
      match d.nextPair with
      | .error e => .error e
      | .ok (none, d') => .ok (s, d')
      | .ok (some (key, value), d') =>
          match body s key value d' with
          | .error e => .error e
          | .ok (s', d'') => dictLoopN body k s' d''

/-- `object.try_into_dictionary()?` and the loop over its pairs. -/
def dictLoop {σ : Type} (body : σ → Bytes → Decode σ) (s : σ) : Decode σ
  | .dict _, d => dictLoopN body (d.remaining + 1) s d
  | o, _ => .error (.ofKind (.unexpectedToken "Dict" o.name))

/-- `while let Some(object) = list.next_object()? { results.push(item(object)?) }`. -/
def listLoopN {T : Type} (item : Decode T) : ℕ → List T → Decoder →
    Except Error (List T × Decoder)
  | 0, _, _ => .error (.ofStructure .unexpectedEof)
  | k + 1, results, d =>
      match d.nextObject with
      | .error e => .error e
      | .ok (none, d') => .ok (results, d')
      | .ok (some o, d') =>
          match item o d' with
          | .error e => .error e
          | .ok (a, d'') => listLoopN item k (results ++ [a]) d''

/-- `Vec::<T>::decode_bencode_object`. -/
def decodeVec {T : Type} (item : Decode T) : Decode (List T)
  | .list _, d => listLoopN item (d.remaining + 1) [] d
  | o, _ => .error (.ofKind (.unexpectedToken "List" o.name))

/-- `AsString::decode_bencode_object`. -/
def decodeBytes : Decode Bytes
  | .bytes s, d => .ok (s, d)
  | o, _ => .error (.ofKind (.unexpectedToken "String" o.name))

/-- `String::decode_bencode_object`. -/
def decodeString : Decode String
  | .bytes s, d =>
      match stringFromUtf8 s with
      | some str => .ok (str, d)
      | none => .error (.ofKind (.malformedContent .fromUtf8))
  | o, _ => .error (.ofKind (.unexpectedToken "String" o.name))

/-- `decode_bencode_object` of the unsigned integer type with `bits` bits. -/
def decodeUnsigned (bits : ℕ) : Decode ℕ
  | .integer s, d =>
      match parseUnsigned bits s with
      | some n => .ok (n, d)
      | none => .error (.ofKind (.malformedContent .parseInt))
  | o, _ => .error (.ofKind (.unexpectedToken "Num" o.name))

/-- `FromBencode::from_bencode`. -/
def fromBencode {T : Type} (decode : Decode T) (mustOrder : Bool) (maxDepth : ℕ) (bytes : Bytes) :
    Except Error T :=
  match (Decoder.new bytes mustOrder maxDepth).nextObject with
  | .error e => .error e
  | .ok (none, _) => .error (.ofStructure .unexpectedEof)
  | .ok (some o, d) => (decode o d).map Prod.fst

/-- `FromBencode::from_bencode_first`: the value and the offset behind it.  The keys must
be ordered here. -/
def fromBencodeFirst {T : Type} (decode : Decode T) (maxDepth : ℕ) (bytes : Bytes) :
    Except Error (T × ℕ) :=
  match (Decoder.new bytes true maxDepth).nextObject with
  | .error e => .error e
  | .ok (none, _) => .error (.ofStructure .unexpectedEof)
  | .ok (some o, d) => (decode o d).map fun (a, d') => (a, d'.offset)

/-- `EXPECTED_RECURSION_DEPTH` of structures. -/
def expectedRecursionDepth : ℕ := 2048

/-! ## Progress -/

/-- `d'` has read at least `n` bytes more of the same source than `d`. -/
structure Decoder.Reads (n : ℕ) (d d' : Decoder) : Prop where
  source : d'.source = d.source
  le : d.offset + n ≤ d'.offset
  bound : d'.offset ≤ d.source.length

theorem Decoder.Reads.trans {m n : ℕ} {d d' d'' : Decoder} (h : d.Reads m d')
    (h' : d'.Reads n d'') : d.Reads (m + n) d'' where
  source := h'.source.trans h.source
  le := by have := h.le; have := h'.le; omega
  bound := h.source ▸ h'.bound

/-- A decoder that has read is inside its source. -/
theorem Decoder.Reads.offset_le {n : ℕ} {d d' : Decoder} (h : d.Reads n d') :
    d'.offset ≤ d'.source.length := by
  rw [h.source]
  exact h.bound

theorem Decoder.Reads.mono {m n : ℕ} {d d' : Decoder} (h : d.Reads m d') (hle : n ≤ m) :
    d.Reads n d' :=
  ⟨h.source, by have := h.le; omega, h.bound⟩

theorem Decoder.Reads.remaining_lt {n : ℕ} {d d' : Decoder} (h : d.Reads (n + 1) d') :
    d'.remaining < d.remaining := by
  have := h.le
  have := h.bound
  unfold Decoder.remaining
  rw [h.source]
  omega

/-- The items of a list that is dropped. -/
theorem dropObjectN_list_eq_ok {k start : ℕ} {d d' : Decoder}
    (h : dropObjectN (k + 1) (.list start) d = .ok d') :
    ∃ x d₁, d.nextObject = .ok (x, d₁) ∧
      match x with
      | none => d' = d₁
      | some item => ∃ d₂, dropObjectN k item d₁ = .ok d₂ ∧
          dropObjectN k (.list start) d₂ = .ok d' := by
  rw [dropObjectN] at h
  split at h
  · cases h
  · next d₁ hobj => exact ⟨none, d₁, hobj, (Except.ok.inj h).symm⟩
  · next item d₁ hobj => exact ⟨some item, d₁, hobj, Checked.bind_eq_ok.mp h⟩

/-- The entries of a dictionary that is dropped. -/
theorem dropObjectN_dict_eq_ok {k start : ℕ} {d d' : Decoder}
    (h : dropObjectN (k + 1) (.dict start) d = .ok d') :
    ∃ x d₁, d.nextPair = .ok (x, d₁) ∧
      match x with
      | none => d' = d₁
      | some (_, value) => ∃ d₂, dropObjectN k value d₁ = .ok d₂ ∧
          dropObjectN k (.dict start) d₂ = .ok d' := by
  rw [dropObjectN] at h
  split at h
  · cases h
  · next d₁ hpair => exact ⟨none, d₁, hpair, (Except.ok.inj h).symm⟩
  · next key value d₁ hpair => exact ⟨some (key, value), d₁, hpair, Checked.bind_eq_ok.mp h⟩

/-- The entries of a dictionary that is read. -/
theorem dictLoopN_eq_ok {σ : Type} {body : σ → Bytes → Decode σ} {k : ℕ} {s s' : σ}
    {d d' : Decoder} (h : dictLoopN body (k + 1) s d = .ok (s', d')) :
    ∃ x d₁, d.nextPair = .ok (x, d₁) ∧
      match x with
      | none => s' = s ∧ d' = d₁
      | some (key, value) => ∃ s₁ d₂, body s key value d₁ = .ok (s₁, d₂) ∧
          dictLoopN body k s₁ d₂ = .ok (s', d') := by
  rw [dictLoopN] at h
  split at h
  · cases h
  · next d₁ hpair =>
      obtain ⟨rfl, rfl⟩ := Prod.mk.inj (Except.ok.inj h)
      exact ⟨none, _, hpair, rfl, rfl⟩
  · next key value d₁ hpair =>
      split at h
      · cases h
      · next s₁ d₂ hval => exact ⟨some (key, value), d₁, hpair, s₁, d₂, hval, h⟩

/-- `take_int` leaves the terminator unread by the digits. -/
theorem takeIntLoop_length {terminator : Char} (cs : Bytes) :
    ∀ (st : IntState) (pos : ℕ) (s : Bytes), takeIntLoop terminator st pos cs = .ok s →
      s.length + 1 ≤ cs.length := by
  induction cs with
  | nil => intro st pos s h; cases st <;> cases h
  | cons c cs ih =>
      intro st pos s h
      have hmap : ∀ st', (takeIntLoop terminator st' (pos + 1) cs).map (c :: ·) = .ok s →
          s.length + 1 ≤ (c :: cs).length := by
        intro st' hm
        obtain ⟨a, ha, rfl⟩ := Checked.map_eq_ok.mp hm
        have := ih st' (pos + 1) a ha
        simpa using this
      cases st <;> simp only [takeIntLoop] at h <;> split_ifs at h <;>
        first
        | exact hmap _ h
        | (simp only [Except.ok.injEq] at h; simp [← h])

theorem Decoder.takeInt_reads {d d' : Decoder} {terminator : Char} {s : Bytes}
    (h : d.takeInt terminator = .ok (s, d')) : d.Reads 1 d' := by
  obtain ⟨a, ha, he⟩ := Checked.map_eq_ok.mp h
  simp only [Prod.mk.injEq] at he
  obtain ⟨rfl, rfl⟩ := he
  have hlen := takeIntLoop_length _ _ _ _ ha
  rw [List.length_drop] at hlen
  exact ⟨rfl, by simp only; omega, by simp only; omega⟩

theorem Decoder.rawNextToken_reads {d d' : Decoder} {tok : Token}
    (h : d.rawNextToken = .ok (tok, d')) : d.Reads 1 d' := by
  unfold Decoder.rawNextToken at h
  split at h
  · cases h
  · next c hc =>
      have hlt : d.offset < d.source.length := (List.getElem?_eq_some_iff.mp hc).1
      have hnext : d.Reads 1 { d with offset := d.offset + 1 } := ⟨rfl, le_rfl, hlt⟩
      simp only at h
      split_ifs at h
      · simp only [Except.ok.injEq, Prod.mk.injEq] at h
        exact h.2 ▸ hnext
      · simp only [Except.ok.injEq, Prod.mk.injEq] at h
        exact h.2 ▸ hnext
      · simp only [Except.ok.injEq, Prod.mk.injEq] at h
        exact h.2 ▸ hnext
      · obtain ⟨⟨s, d₁⟩, ht, he⟩ := Checked.map_eq_ok.mp h
        simp only [Prod.mk.injEq] at he
        exact he.2 ▸ (hnext.trans (takeInt_reads ht)).mono (by omega)
      · split at h
        · cases h
        · next ival d₁ ht =>
            have h₁ := takeInt_reads ht
            split at h
            · cases h
            · split at h
              · cases h
              · next s d₂ hchunk =>
                  simp only [Except.ok.injEq, Prod.mk.injEq] at h
                  obtain ⟨-, rfl⟩ := h
                  simp only [takeChunk, Option.ite_none_right_eq_some, Option.some.injEq,
                    Prod.mk.injEq] at hchunk
                  obtain ⟨hle, -, rfl⟩ := hchunk
                  exact h₁.trans (n := 0) ⟨rfl, Nat.le_add_right _ _, hle⟩

/-- **Every token uses a byte.** -/
theorem Decoder.nextToken_reads {d d' : Decoder} {tok : Token}
    (h : d.nextToken = .ok (some tok, d')) : d.Reads 1 d' := by
  unfold Decoder.nextToken at h
  split at h
  · split at h <;> simp at h
  · split at h
    · cases h
    · next tok' d₁ hraw =>
        split at h
        · cases h
        · simp only [Except.ok.injEq, Prod.mk.injEq] at h
          obtain ⟨-, rfl⟩ := h
          have h₁ := rawNextToken_reads hraw
          exact ⟨h₁.source, h₁.le, h₁.bound⟩

theorem Decoder.nextObject_reads {d d' : Decoder} {o : Object}
    (h : d.nextObject = .ok (some o, d')) : d.Reads 1 d' := by
  unfold Decoder.nextObject at h
  split at h
  · cases h
  · next tok d₁ htok =>
      simp only [Except.ok.injEq, Prod.mk.injEq] at h
      obtain ⟨ho, rfl⟩ := h
      cases tok with
      | none => cases ho
      | some tok => exact nextToken_reads htok

/-- The end of a list or of the input does not move the decoder backwards. -/
theorem Decoder.nextObject_none_reads {d d' : Decoder} (h : d.nextObject = .ok (none, d'))
    (hd : d.offset ≤ d.source.length) : d.Reads 0 d' := by
  unfold Decoder.nextObject at h
  split at h
  · cases h
  · next tok d₁ htok =>
      simp only [Except.ok.injEq, Prod.mk.injEq] at h
      obtain ⟨-, rfl⟩ := h
      cases tok with
      | some tok => exact (nextToken_reads htok).mono (by omega)
      | none =>
          unfold Decoder.nextToken at htok
          split at htok
          · split at htok <;> simp at htok
            exact htok ▸ ⟨rfl, le_rfl, hd⟩
          · split at htok
            · cases htok
            · split at htok <;> simp at htok

theorem Decoder.nextPair_reads {d d' : Decoder} {key : Bytes} {o : Object}
    (h : d.nextPair = .ok (some (key, o), d')) : d.Reads 1 d' := by
  unfold Decoder.nextPair at h
  split at h
  · cases h
  · next key' d₁ hkey =>
      split at h
      · cases h
      · next value d₂ hvalue =>
          simp only [Except.ok.injEq, Prod.mk.injEq] at h
          obtain ⟨-, rfl⟩ := h
          exact ((nextObject_reads hkey).trans (nextObject_reads hvalue)).mono (by omega)
      · cases h
  · simp at h

theorem Decoder.nextPair_none_reads {d d' : Decoder} (h : d.nextPair = .ok (none, d'))
    (hd : d.offset ≤ d.source.length) : d.Reads 0 d' := by
  unfold Decoder.nextPair at h
  split at h
  · cases h
  · split at h <;> simp at h
  · next o d₁ _ hobj =>
      simp only [Except.ok.injEq, Prod.mk.injEq, true_and] at h
      subst h
      cases o with
      | none => exact nextObject_none_reads hobj hd
      | some o => exact (nextObject_reads hobj).mono (by omega)

/-- Dropping an object never moves backwards, and its bound is never met. -/
theorem dropObjectN_reads {k : ℕ} :
    ∀ (o : Object) (d : Decoder), d.remaining < k → d.offset ≤ d.source.length →
      (∀ l, d.remaining < l → dropObjectN k o d = dropObjectN l o d) ∧
      ∀ d', dropObjectN k o d = .ok d' → d.Reads 0 d' := by
  induction k with
  | zero => intro o d hk; omega
  | succ k ih =>
      intro o d hk hd
      have hself : d.Reads 0 d := ⟨rfl, le_rfl, hd⟩
      -- what follows the first item of a list or the first pair of a dictionary
      have hrest : ∀ (item o : Object) (d₁ : Decoder), d.Reads 1 d₁ →
          (∀ l, d.remaining < l + 1 → (dropObjectN k item d₁).bind (dropObjectN k o) =
            (dropObjectN l item d₁).bind (dropObjectN l o)) ∧
          ∀ d', (dropObjectN k item d₁).bind (dropObjectN k o) = .ok d' → d.Reads 0 d' := by
        intro item o d₁ h₁
        have hlt := h₁.remaining_lt
        obtain ⟨hl, hr⟩ := ih item d₁ (by omega) h₁.offset_le
        cases hdrop : dropObjectN k item d₁ with
        | error e =>
            refine ⟨fun l hlk => ?_, fun d' h => by cases h⟩
            rw [← hl l (by omega), hdrop]
            rfl
        | ok d₂ =>
            have h₂ := h₁.trans (hr d₂ hdrop)
            have hlt₂ := h₂.remaining_lt
            obtain ⟨hl₂, hr₂⟩ := ih o d₂ (by omega) h₂.offset_le
            refine ⟨fun l hlk => ?_, fun d' h => (h₂.trans (hr₂ d' h)).mono (by omega)⟩
            rw [← hl l (by omega), hdrop]
            exact hl₂ l (by omega)
      cases o with
      | integer s =>
          refine ⟨fun l _ => by cases l <;> rfl, fun d' h => ?_⟩
          rw [dropObjectN, Except.ok.injEq] at h
          exact h ▸ hself
      | bytes s =>
          refine ⟨fun l _ => by cases l <;> rfl, fun d' h => ?_⟩
          rw [dropObjectN, Except.ok.injEq] at h
          exact h ▸ hself
      | list start =>
          refine ⟨fun l hlk => ?_, fun d' h => ?_⟩
          · obtain ⟨l, rfl⟩ : ∃ l', l = l' + 1 := ⟨l - 1, by omega⟩
            rw [dropObjectN, dropObjectN]
            split
            · rfl
            · rfl
            · next item d₁ hobj =>
                exact (hrest item _ d₁ (Decoder.nextObject_reads hobj)).1 l hlk
          · obtain ⟨_ | item, d₁, hobj, hx⟩ := dropObjectN_list_eq_ok h
            · exact hx ▸ Decoder.nextObject_none_reads hobj hd
            · obtain ⟨d₂, hitem, hlist⟩ := hx
              have hread := (hrest item (.list start) d₁ (Decoder.nextObject_reads hobj)).2 d'
              rw [hitem] at hread
              exact hread hlist
      | dict start =>
          refine ⟨fun l hlk => ?_, fun d' h => ?_⟩
          · obtain ⟨l, rfl⟩ : ∃ l', l = l' + 1 := ⟨l - 1, by omega⟩
            rw [dropObjectN, dropObjectN]
            split
            · rfl
            · rfl
            · next key value d₁ hobj =>
                exact (hrest value _ d₁ (Decoder.nextPair_reads hobj)).1 l hlk
          · obtain ⟨_ | ⟨key, value⟩, d₁, hobj, hx⟩ := dropObjectN_dict_eq_ok h
            · exact hx ▸ Decoder.nextPair_none_reads hobj hd
            · obtain ⟨d₂, hvalue, hdict⟩ := hx
              have hread := (hrest value (.dict start) d₁ (Decoder.nextPair_reads hobj)).2 d'
              rw [hvalue] at hread
              exact hread hdict

/-- A decoder of values never moves backwards. -/
def Decode.Forward {T : Type} (decode : Decode T) : Prop :=
  ∀ {o d a d'}, decode o d = .ok (a, d') → d.offset ≤ d.source.length → d.Reads 0 d'

/-- **The bound of the dictionary loop is never met.** -/
theorem dictLoopN_fuel {σ : Type} {body : σ → Bytes → Decode σ}
    (hbody : ∀ s key, (body s key).Forward) {k l : ℕ} :
    ∀ (s : σ) (d : Decoder), d.remaining < k → d.remaining < l →
      dictLoopN body k s d = dictLoopN body l s d := by
  induction k generalizing l with
  | zero => intro s d hk; omega
  | succ k ih =>
      intro s d hk hl
      obtain ⟨l, rfl⟩ : ∃ l', l = l' + 1 := ⟨l - 1, by omega⟩
      rw [dictLoopN, dictLoopN]
      split
      · rfl
      · rfl
      · next key value d₁ hpair =>
          split
          · rfl
          · next s' d₂ hval =>
              have h₁ := Decoder.nextPair_reads hpair
              have h₂ := hbody s key hval h₁.offset_le
              have hlt := (h₁.trans h₂).remaining_lt
              exact ih s' d₂ (by omega) (by omega)

/-- The invariant rule of the dictionary loop. -/
theorem dictLoopN_invariant {σ : Type} {body : σ → Bytes → Decode σ} {I : σ → Prop}
    (hbody : ∀ {s key o d s' d'}, I s → body s key o d = .ok (s', d') → I s') {k : ℕ} :
    ∀ {s s' : σ} {d d' : Decoder}, I s → dictLoopN body k s d = .ok (s', d') → I s' := by
  induction k with
  | zero => intro s s' d d' _ h; cases h
  | succ k ih =>
      intro s s' d d' hs h
      obtain ⟨_ | ⟨key, value⟩, d₁, -, hx⟩ := dictLoopN_eq_ok h
      · obtain ⟨rfl, -⟩ := hx
        exact hs
      · obtain ⟨s₁, d₂, hval, hrest⟩ := hx
        exact ih (hbody hs hval) hrest

theorem dictLoop_invariant {σ : Type} {body : σ → Bytes → Decode σ} {I : σ → Prop}
    (hbody : ∀ {s key o d s' d'}, I s → body s key o d = .ok (s', d') → I s')
    {s s' : σ} {o : Object} {d d' : Decoder} (hs : I s)
    (h : dictLoop body s o d = .ok (s', d')) : I s' := by
  cases o with
  | dict start => exact dictLoopN_invariant hbody hs h
  | list start => cases h
  | integer b => cases h
  | bytes b => cases h

/-- **The bound of the list loop is never met.** -/
theorem listLoopN_fuel {T : Type} {item : Decode T} (hitem : item.Forward) {k l : ℕ} :
    ∀ (results : List T) (d : Decoder), d.remaining < k → d.remaining < l →
      listLoopN item k results d = listLoopN item l results d := by
  induction k generalizing l with
  | zero => intro s d hk; omega
  | succ k ih =>
      intro results d hk hl
      obtain ⟨l, rfl⟩ : ∃ l', l = l' + 1 := ⟨l - 1, by omega⟩
      rw [listLoopN, listLoopN]
      split
      · rfl
      · rfl
      · next o d₁ hobj =>
          split
          · rfl
          · next a d₂ hval =>
              have h₁ := Decoder.nextObject_reads hobj
              have h₂ := hitem hval h₁.offset_le
              have hlt := (h₁.trans h₂).remaining_lt
              exact ih (results ++ [a]) d₂ (by omega) (by omega)

end Bendy
