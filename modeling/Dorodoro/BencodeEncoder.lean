/-
# The bencode encoder (`lib/bendy`)

The encoder writes tokens behind one another and has every token checked by the structure checker
of the decoder, which here always asks for ascending keys.

* `Encoder.emitToken`, `emitInt`, `emitDict`, `emitList`, `emitPair` and `emitOption` follow
  the source, `toBencode` is the entry point;
* `Encode.Emits`: what an instance writes, or the error it ends with;
* `emits_dict`: a dictionary is written as its entries are, unless a key does not ascend.

Every error is latched by the encoder and handed on by every caller.  An instance writes exactly one
value: the flag that asks for it is always set.
-/
import Dorodoro.BencodeReading
import Dorodoro.PeerWire

namespace Bendy

/-! ## Emitting -/

/-- `encoding::Error`. -/
inductive EncodeError where
  | structureError (e : StructureError)
  | malformedContent (cause : Error)
  deriving DecidableEq

/-- `Encoder`. -/
structure Encoder where
  state : List State
  maxDepth : ℕ
  output : Bytes

/-- `Encoder::new().with_max_depth(..)`. -/
def Encoder.new (maxDepth : ℕ) : Encoder := ⟨[], maxDepth, []⟩

/-- `ToBencode::encode`. -/
abbrev Encode := Encoder → Except EncodeError Encoder

/-- What `emit_token` writes. -/
def Token.bytes : Token → Bytes
  | .list => [ascii 'l']
  | .dict => [ascii 'd']
  | .string s => PeerWire.emitBytes s
  | .num s => ascii 'i' :: s ++ [ascii 'e']
  | .finish => [ascii 'e']

/-- A token is checked, and some bytes are written for it. -/
def Encoder.write (tok : Token) (raw : Bytes) : Encode := fun e =>
  match observeToken e.maxDepth true e.state tok with
  | .error err => .error (.structureError err)
  | .ok state => .ok { e with state := state, output := e.output ++ raw }

/-- `Encoder::emit_token`. -/
def emitToken (tok : Token) : Encode := Encoder.write tok tok.bytes

/-- `Encoder::emit_bytes`. -/
def emitBytes (s : Bytes) : Encode := emitToken (.string s)

/-- `Encoder::emit_str`. -/
def emitStr (s : String) : Encode := emitToken (.string s.toUTF8.toList)

/-- `Encoder::emit_int`; the checker is shown an empty number. -/
def emitInt (n : ℕ) : Encode := Encoder.write (.num []) (PeerWire.emitInt n)

/-- `Encoder::emit_dict`. -/
def emitDict (content : Encode) : Encode := fun e => do
  let e ← emitToken .dict e
  let e ← content e
  emitToken .finish e

/-- The items of a list, one after the other. -/
def emitItems : List Encode → Encode
  | [], e => .ok e
  | item :: items, e => (item e).bind (emitItems items)

/-- `Encoder::emit_list`, with a loop over the items. -/
def emitList (items : List Encode) : Encode := fun e => do
  let e ← emitToken .list e
  let e ← emitItems items e
  emitToken .finish e

/-- `SortedDictEncoder::emit_pair`. -/
def emitPair (k : Bytes) (value : Encode) : Encode := fun e => (emitToken (.string k) e).bind value

/-- `if let Some(value) = option { e.emit_pair(key, value)?; }`. -/
def emitOption {α : Type} (k : Bytes) (value : α → Encode) : Option α → Encode
  | none, e => .ok e
  | some a, e => emitPair k (value a) e

/-- `for (k, v) in pairs { e.emit_pair(k, v)?; }`. -/
def emitPairs : List (Bytes × Encode) → Encode
  | [], e => .ok e
  | (k, value) :: pairs, e => (emitPair k value e).bind (emitPairs pairs)

/-- `ToBencode::to_bencode` of a type with a depth. -/
def toBencode (encode : Encode) (maxDepth : ℕ) : Except EncodeError Bytes :=
  match encode (Encoder.new maxDepth) with
  | .error err => .error err
  | .ok e => if e.state = [] then .ok e.output else .error (.structureError .unexpectedEof)

/-! ## What is emitted -/

/-- The encoder behind some bytes, with the levels that are open there. -/
def Encoder.append (e : Encoder) (raw : Bytes) (state : List State) : Encoder :=
  { e with state := state, output := e.output ++ raw }

/-- Where a value may stand and `n` more levels may be opened, the instance writes the bytes of one
value, or ends with an error. -/
def Encode.Emits (encode : Encode) (n : ℕ) (result : Except EncodeError Bytes) : Prop :=
  ∀ e : Encoder, ¬ KeyDue e.state → e.state.length + n ≤ e.maxDepth →
    encode e = result.map fun raw => e.append raw (afterValue e.state)

theorem ite_ok_eq_ok {c : Bool} {err : EncodeError} {raw data : Bytes}
    (h : (if c then .ok raw else .error err) = Except.ok data) : c = true ∧ raw = data := by
  match c with
  | true => exact ⟨rfl, Except.ok.inj h⟩
  | false => nomatch h

/-- The entry point. -/
theorem Encode.Emits.toBencode {encode : Encode} {n maxDepth : ℕ}
    {result : Except EncodeError Bytes} (h : encode.Emits n result) (hle : n ≤ maxDepth) :
    Bendy.toBencode encode maxDepth = result := by
  have hrun := h (Encoder.new maxDepth) not_keyDue_nil (by simpa [Encoder.new] using hle)
  rw [Bendy.toBencode, hrun]
  cases result with
  | error err => rfl
  | ok raw => rfl

/-- A token that is a value. -/
theorem emits_write {tok : Token} (raw : Bytes)
    (h : ∀ maxDepth stack, ¬ KeyDue stack →
      observeToken maxDepth true stack tok = .ok (afterValue stack)) (n : ℕ) :
    Encode.Emits (Encoder.write tok raw) n (.ok raw) := by
  intro e hdue _
  rw [Encoder.write, h e.maxDepth e.state hdue]
  rfl

/-- A byte string or a number, where a value may stand. -/
theorem observeToken_value {tok : Token} (hstring : (∃ s, tok = .string s) ∨ ∃ s, tok = .num s)
    (maxDepth : ℕ) (mustOrder : Bool) {stack : List State} (hdue : ¬ KeyDue stack) :
    observeToken maxDepth mustOrder stack tok = .ok (afterValue stack) := by
  match stack with
  | [] => rcases hstring with ⟨s, rfl⟩ | ⟨s, rfl⟩ <;> rfl
  | .seq :: _ => rcases hstring with ⟨s, rfl⟩ | ⟨s, rfl⟩ <;> rfl
  | .mapValue _ :: _ => rcases hstring with ⟨s, rfl⟩ | ⟨s, rfl⟩ <;> rfl
  | .mapKey last :: rest => exact absurd ⟨last, rest, rfl⟩ hdue

/-- **A byte string.** -/
theorem emits_bytes (s : Bytes) (n : ℕ) : (emitBytes s).Emits n (.ok (PeerWire.emitBytes s)) :=
  emits_write _ (fun maxDepth _ => observeToken_value (Or.inl ⟨s, rfl⟩) maxDepth true) n

theorem emits_str (s : String) (n : ℕ) :
    (emitStr s).Emits n (.ok (PeerWire.emitBytes (key s))) := emits_bytes _ n

/-- **A number.** -/
theorem emits_int (i n : ℕ) : (emitInt i).Emits n (.ok (PeerWire.emitInt i)) :=
  emits_write _ (fun maxDepth _ => observeToken_value (Or.inr ⟨[], rfl⟩) maxDepth true) n

theorem length_afterValue (stack : List State) : (afterValue stack).length = stack.length := by
  unfold afterValue
  split <;> rfl

/-- A list or a dictionary is opened where a value may stand and the depth allows it. -/
theorem observeToken_open (mustOrder : Bool) {maxDepth : ℕ} {stack : List State}
    (hdue : ¬ KeyDue stack) (hdepth : stack.length < maxDepth) :
    observeToken maxDepth mustOrder stack .list = .ok (.seq :: afterValue stack) ∧
      observeToken maxDepth mustOrder stack .dict = .ok (.mapKey none :: afterValue stack) := by
  have hpush : ∀ level, pushLevel maxDepth (afterValue stack) level =
      .ok (level :: afterValue stack) := fun level => by
    rw [pushLevel, if_neg (by rw [length_afterValue]; omega)]
  match stack with
  | [] => exact ⟨hpush .seq, hpush (.mapKey none)⟩
  | .seq :: _ => exact ⟨hpush .seq, hpush (.mapKey none)⟩
  | .mapValue _ :: _ => exact ⟨hpush .seq, hpush (.mapKey none)⟩
  | .mapKey last :: rest => exact absurd ⟨last, rest, rfl⟩ hdue

/-! ## Lists -/

section Lists

variable {α : Type} {f : α → Encode} {raw : α → Bytes} {n : ℕ}

theorem emitItems_eq {items : List α} (h : ∀ a ∈ items, (f a).Emits n (.ok (raw a)))
    {e : Encoder} {stack : List State} (hstate : e.state = .seq :: stack)
    (hdepth : e.state.length + n ≤ e.maxDepth) :
    emitItems (items.map f) e = .ok (e.append (items.flatMap raw) e.state) := by
  induction items generalizing e with
  | nil => simp [emitItems, Encoder.append]
  | cons a items ih =>
      have hdue : ¬ KeyDue e.state := hstate ▸ not_keyDue_seq stack
      have hafter : afterValue e.state = e.state := by rw [hstate]; rfl
      rw [List.map_cons, emitItems, h a List.mem_cons_self e hdue hdepth, hafter]
      have hrest := ih (fun b hb => h b (List.mem_cons_of_mem _ hb))
        (e := e.append (raw a) e.state) hstate hdepth
      show emitItems (items.map f) (e.append (raw a) e.state) = _
      rw [hrest]
      simp [Encoder.append]

/-- **A list.** -/
theorem emits_list {items : List α} (h : ∀ a ∈ items, (f a).Emits n (.ok (raw a))) :
    (emitList (items.map f)).Emits (n + 1)
      (.ok (ascii 'l' :: items.flatMap raw ++ [ascii 'e'])) := by
  intro e hdue hdepth
  have hopen := (observeToken_open true hdue (by omega : e.state.length < e.maxDepth)).1
  have hinner : (e.append [ascii 'l'] (.seq :: afterValue e.state)).state.length + n ≤
      e.maxDepth := by
    show (afterValue e.state).length + 1 + n ≤ e.maxDepth
    rw [length_afterValue]
    omega
  show (emitToken .list e).bind _ = _
  rw [emitToken, Encoder.write, hopen]
  show (emitItems (items.map f) (e.append [ascii 'l'] (.seq :: afterValue e.state))).bind _ = _
  rw [emitItems_eq h rfl hinner]
  simp [emitToken, Encoder.write, Encoder.append, observeToken, Token.bytes, Except.bind,
    Except.map]

end Lists

/-! ## Dictionaries -/

/-- The keys ascend, from the last one on. -/
def ascends : Option Bytes → List Bytes → Bool
  | _, [] => true
  | last, k :: keys => last.all (· < k) && ascends (some k) keys

/-- The last key behind some keys. -/
def lastKey : Option Bytes → List Bytes → Option Bytes
  | last, [] => last
  | _, k :: keys => lastKey (some k) keys

theorem ascends_append (last : Option Bytes) (keys keys' : List Bytes) :
    ascends last (keys ++ keys') = (ascends last keys && ascends (lastKey last keys) keys') := by
  induction keys generalizing last with
  | nil => rfl
  | cons k keys ih => rw [List.cons_append, ascends, ih, ascends, lastKey, Bool.and_assoc]

theorem lastKey_append (last : Option Bytes) (keys keys' : List Bytes) :
    lastKey last (keys ++ keys') = lastKey (lastKey last keys) keys' := by
  induction keys generalizing last with
  | nil => rfl
  | cons k keys ih => exact ih (some k)

/-- The bytes of an entry. -/
def pairBytes (pair : Bytes × Bytes) : Bytes := PeerWire.emitBytes pair.1 ++ pair.2

theorem emitDict_eq (pairs : List (Bytes × Bytes)) :
    PeerWire.emitDict pairs = ascii 'd' :: (pairs.flatMap pairBytes ++ [ascii 'e']) := rfl

/-- Inside a dictionary, where `n` more levels may be opened, the entries are written, unless a key
does not ascend. -/
def Encode.EmitsPairs (content : Encode) (n : ℕ) (pairs : List (Bytes × Bytes)) : Prop :=
  ∀ (e : Encoder) (last : Option Bytes) (stack : List State), e.state = .mapKey last :: stack →
    e.state.length + n ≤ e.maxDepth →
    content e = if ascends last (pairs.map Prod.fst) then
      .ok (e.append (pairs.flatMap pairBytes)
        (.mapKey (lastKey last (pairs.map Prod.fst)) :: stack))
    else .error (.structureError .unsortedKeys)

/-- A key, where one is due. -/
theorem observeToken_key (maxDepth : ℕ) (last : Option Bytes) (stack : List State) (k : Bytes) :
    observeToken maxDepth true (.mapKey last :: stack) (.string k) =
      if last.all (· < k) then .ok (.mapValue k :: stack) else .error .unsortedKeys := by
  cases last with
  | none => rfl
  | some old =>
      simp only [observeToken, Option.all_some, true_and, decide_eq_true_eq]
      split <;> simp_all

section Entries

variable {α : Type} {n : ℕ} {k raw : Bytes} {value : Encode}

theorem emits_pair (h : value.Emits n (.ok raw)) : (emitPair k value).EmitsPairs n [(k, raw)] := by
  intro e last stack hstate hdepth
  have hkey := observeToken_key e.maxDepth last stack k
  rw [← hstate] at hkey
  rw [emitPair, emitToken, Encoder.write, hkey]
  simp only [List.map_cons, List.map_nil, ascends, Bool.and_true]
  cases last.all (· < k) with
  | false => rfl
  | true =>
      have hdue := not_keyDue_mapValue k stack
      have hvalue := h (e.append (PeerWire.emitBytes k) (.mapValue k :: stack)) hdue (by
        rw [hstate] at hdepth
        exact hdepth)
      show value (e.append (PeerWire.emitBytes k) (.mapValue k :: stack)) = _
      rw [hvalue]
      simp [Encoder.append, pairBytes, lastKey, Except.map, afterValue]

theorem emits_nil (n : ℕ) : Encode.EmitsPairs Except.ok n [] := by
  intro e last stack hstate _
  show Except.ok e = .ok _
  simp [Encoder.append, lastKey, ← hstate]

/-- Entries behind entries. -/
theorem emits_bind {content content' : Encode} {pairs pairs' : List (Bytes × Bytes)}
    (h : content.EmitsPairs n pairs) (h' : content'.EmitsPairs n pairs') :
    Encode.EmitsPairs (fun e => (content e).bind content') n (pairs ++ pairs') := by
  intro e last stack hstate hdepth
  dsimp only
  rw [h e last stack hstate hdepth, List.map_append, ascends_append]
  cases ascends last (pairs.map Prod.fst) with
  | false => rfl
  | true =>
      show content' _ = _
      rw [hstate] at hdepth
      rw [h' _ (lastKey last (pairs.map Prod.fst)) stack rfl hdepth]
      simp [Encoder.append, lastKey_append]

/-- **An optional entry.** -/
theorem emits_option {encode : α → Encode} {raw : α → Bytes} (o : Option α)
    (h : ∀ a ∈ o, (encode a).Emits n (.ok (raw a))) :
    (emitOption k encode o).EmitsPairs n (o.toList.map fun a => (k, raw a)) := by
  match o with
  | none => exact emits_nil n
  | some a => exact emits_pair (h a rfl)

theorem emits_pairs {label : α → Bytes} {encode : α → Encode} {raw : α → Bytes} {entries : List α}
    (h : ∀ a ∈ entries, (encode a).Emits n (.ok (raw a))) :
    (emitPairs (entries.map fun a => (label a, encode a))).EmitsPairs n
      (entries.map fun a => (label a, raw a)) := by
  induction entries with
  | nil => exact emits_nil n
  | cons a entries ih =>
      exact emits_bind (emits_pair (h a List.mem_cons_self))
        (ih fun b hb => h b (List.mem_cons_of_mem _ hb))

/-- **A dictionary.** -/
theorem emits_dict {content : Encode} {pairs : List (Bytes × Bytes)}
    (h : content.EmitsPairs n pairs) :
    (emitDict content).Emits (n + 1) (if ascends none (pairs.map Prod.fst) then
      .ok (PeerWire.emitDict pairs) else .error (.structureError .unsortedKeys)) := by
  intro e hdue hdepth
  have hopen := (observeToken_open true hdue (by omega : e.state.length < e.maxDepth)).2
  have hinner : (e.append [ascii 'd'] (.mapKey none :: afterValue e.state)).state.length + n ≤
      e.maxDepth := by
    show (afterValue e.state).length + 1 + n ≤ e.maxDepth
    rw [length_afterValue]
    omega
  show (emitToken .dict e).bind _ = _
  rw [emitToken, Encoder.write, hopen]
  show (content (e.append [ascii 'd'] (.mapKey none :: afterValue e.state))).bind _ = _
  rw [h _ none (afterValue e.state) rfl hinner]
  cases ascends none (pairs.map Prod.fst) with
  | false => rfl
  | true =>
      rw [emitDict_eq]
      simp [emitToken, Encoder.write, Encoder.append, observeToken, Token.bytes, Except.bind,
        Except.map]

end Entries

end Bendy
