/-
# Datagrams and DHT messages

What `UdpServer::parse_recv_data` (`core/udp_server.rs`) reads in a datagram: the decoder of
`DHTBase` (`bt/dht/entity.rs`) with the `Value`s of `bendy`, the addresses of
`doro-util/src/bendy_ext.rs`, and the transaction id `DHTBase::t`.

* `decodeValue` nests as deep as the input does; `decodeValueN_fuel` shows that its bound is
  never met;
* `dhtBase_calm`: the decoder does not panic on any datagram;
* `datagram_returns_iff`: `parse_recv_data` returns if and only if the datagram is refused or the
  last `t` in it is a byte string: `t()` knows no other kind of value, and the decoder accepts
  them all.
-/
import Dorodoro.SoundDecoders
import Dorodoro.UdpServer

open Bendy Transition

namespace DhtMessages

/-! ## Values -/

/-- `bendy::value::Value`; the entries of a dictionary are sorted by their keys. -/
inductive Value where
  | bytes (s : Bytes)
  | dict (entries : List (Bytes × Value))
  | integer (n : ℤ)
  | list (items : List Value)

/-- `BTreeMap::insert`. -/
def insertEntry (k : Bytes) (v : Value) : List (Bytes × Value) → List (Bytes × Value)
  | [] => [(k, v)]
  | (k', v') :: entries =>
      if k < k' then (k, v) :: (k', v') :: entries
      else if k = k' then (k, v) :: entries
      else (k', v') :: insertEntry k v entries

/-- `str::parse` for a signed integer of `bits` bits, on the strings `take_int` returns. -/
def parseSigned (bits : ℕ) (s : Bytes) : Option ℤ :=
  if s.head? = some (ascii '-') then
    if digitsValue s.tail ≤ 2 ^ (bits - 1) then some (-(digitsValue s.tail : ℤ)) else none
  else if digitsValue s < 2 ^ (bits - 1) then some (digitsValue s : ℤ)
  else none

/-- `dict.insert(key, Value::decode_bencode_object(value)?)`. -/
def valueEntry (decode : Decode Value) (entries : List (Bytes × Value)) (k : Bytes) :
    Decode (List (Bytes × Value)) :=
  fun o d => (decode o d).map fun (v, d') => (insertEntry k v entries, d')

/-- `Value::decode_bencode_object`, to a depth of `k`. -/
def decodeValueN : ℕ → Decode Value
  | _, .bytes s, d => .ok (.bytes s, d)
  | _, .integer s, d =>
      match parseSigned 64 s with
      | some n => .ok (.integer n, d)
      | none => .error (.ofKind (.malformedContent .parseInt))
  | 0, _, _ => .error (.ofStructure .unexpectedEof)
  | k + 1, .dict start, d =>
      (dictLoop (valueEntry (decodeValueN k)) [] (.dict start) d).map fun (entries, d') =>
        (.dict entries, d')
  | k + 1, .list start, d =>
      (decodeVec (decodeValueN k) (.list start) d).map fun (items, d') => (.list items, d')

/-- `Value::decode_bencode_object`. -/
def decodeValue : Decode Value := fun o d => decodeValueN (d.remaining + 1) o d

theorem decodeValueN_integer (k : ℕ) (s : Bytes) (d : Decoder) :
    decodeValueN k (.integer s) d =
      match parseSigned 64 s with
      | some n => .ok (.integer n, d)
      | none => .error (.ofKind (.malformedContent .parseInt)) := by
  cases k <;> rfl

theorem decodeValueN_bytes (k : ℕ) (s : Bytes) (d : Decoder) :
    decodeValueN k (.bytes s) d = .ok (.bytes s, d) := by
  cases k <;> rfl

theorem decodeValueN_integer_whole {k : ℕ} {s : Bytes} {d d' : Decoder} {v : Value}
    (h : decodeValueN k (.integer s) d = .ok (v, d')) : d' = d := by
  rw [decodeValueN_integer] at h
  split at h
  · exact (Prod.mk.inj (Except.ok.inj h)).2.symm
  · cases h

theorem valueEntry_whole {decode : Decode Value} (h : decode.Whole)
    (entries : List (Bytes × Value)) (k : Bytes) : (valueEntry decode entries k).Whole :=
  h.map fun v => insertEntry k v entries

/-- A value is read to its end. -/
theorem decodeValueN_whole (k : ℕ) : (decodeValueN k).Whole := by
  have hbase : ∀ {k s d v d'}, decodeValueN k (.bytes s) d = .ok (v, d') → d' = d := by
    intro k s d v d' h
    rw [decodeValueN_bytes] at h
    exact (Prod.mk.inj (Except.ok.inj h)).2.symm
  induction k with
  | zero =>
      intro o d v d' h _
      cases o with
      | bytes s => rw [hbase h]; rfl
      | integer s => rw [decodeValueN_integer_whole h]; rfl
      | list start => cases h
      | dict start => cases h
  | succ k ih =>
      intro o d v d' h hd
      cases o with
      | bytes s => rw [hbase h]; rfl
      | integer s => rw [decodeValueN_integer_whole h]; rfl
      | list start => exact (decodeVec_whole ih).map Value.list h hd
      | dict start =>
          exact (dictLoop_whole (valueEntry_whole ih) []).map Value.dict h hd

theorem decodeValueN_calm (k : ℕ) : (decodeValueN k).Calm := by
  have hinteger : ∀ k s d, ¬ Panics (decodeValueN k (.integer s) d) := by
    intro k s d
    rw [decodeValueN_integer]
    split <;> simp [Error.ofKind]
  induction k with
  | zero =>
      intro o d raw stack _
      cases o with
      | bytes s => exact not_panics_ok _
      | integer s => exact hinteger 0 s d
      | list start => exact panics_ofStructure _
      | dict start => exact panics_ofStructure _
  | succ k ih =>
      intro o d raw stack hopened
      cases o with
      | bytes s => exact not_panics_ok _
      | integer s => exact hinteger (k + 1) s d
      | list start =>
          exact (decodeVec_calm (decodeValueN_whole k) ih).map Value.list hopened
      | dict start =>
          have hloop := dictLoop_calm (valueEntry_whole (decodeValueN_whole k))
            (fun entries key => ih.map fun v => insertEntry key v entries)
          exact (hloop []).map Value.dict hopened

/-- **The bound on the depth is never met.** -/
theorem decodeValueN_fuel {k : ℕ} : ∀ {l : ℕ} (o : Object) (d : Decoder), d.remaining < k →
    d.remaining < l → decodeValueN k o d = decodeValueN l o d := by
  induction k with
  | zero => intro l o d hk; omega
  | succ k ih =>
      intro l o d hk hl
      obtain ⟨l, rfl⟩ : ∃ l', l = l' + 1 := ⟨l - 1, by omega⟩
      cases o with
      | bytes s => rfl
      | integer s => rfl
      | list start =>
          have hitem : ∀ o d, d.remaining < min k l → d.offset ≤ d.source.length →
              decodeValueN k o d = decodeValueN l o d :=
            fun o d hd _ => ih o d (by omega) (by omega)
          have hloop := listLoopN_congr (decodeValueN_whole k) hitem (k := d.remaining + 1) [] d
            (by omega)
          simp only [decodeValueN, decodeVec, hloop]
      | dict start =>
          have hentry : ∀ entries key o d, d.remaining < min k l → d.offset ≤ d.source.length →
              valueEntry (decodeValueN k) entries key o d =
                valueEntry (decodeValueN l) entries key o d := by
            intro entries key o d hd _
            rw [valueEntry, valueEntry, ih (l := l) o d (by omega) (by omega)]
          have hloop := dictLoopN_congr (valueEntry_whole (decodeValueN_whole k)) hentry
            (k := d.remaining + 1) [] d (by omega)
          simp only [decodeValueN, dictLoop, hloop]

theorem decodeValue_whole : decodeValue.Whole := fun _ _ _ _ h hd => decodeValueN_whole _ h hd

theorem decodeValue_calm : decodeValue.Calm := fun _ _ _ _ hopened => decodeValueN_calm _ hopened

/-! ## `DHTBase` -/

/-- `<[u8] as Bytes2Object<SocketAddrExt>>::to_object`. -/
def toSocketAddr (bytes : Bytes) : Except Error SocketAddr :=
  if bytes.length = 6 then
    .ok (.v4 (fromBeSlice 4 (bytes.take 4)) (fromBeSlice 2 (bytes.drop 4)))
  else if bytes.length = 18 then
    .ok (.v6 (fromBeSlice 16 (bytes.take 16)) (fromBeSlice 2 (bytes.drop 16)) 0 0)
  else
    .error (.ofKind (.unexpectedToken "6 or 18 bytes expected"
      ("Invalid socket address length: " ++ toString bytes.length)))

/-- `value.try_into_bytes()?.to_object()?`. -/
def decodeSocketAddr : Decode SocketAddr := fun value d =>
  (decodeBytes value d).bind fun (bytes, d') => (toSocketAddr bytes).map fun addr => (addr, d')

/-- Decode an address into a field. -/
def addrField {σ : Type} (set : SocketAddr → σ) : Decode σ :=
  fun value d => (decodeSocketAddr value d).map fun (addr, d') => (set addr, d')

/-- `DHTBase`. -/
structure DhtBase (T : Type) where
  a : Option T
  r : Option T
  q : Option String
  t : Value
  y : String
  p : Option ℕ
  v : Option Value
  ip : Option SocketAddr
  ipv6 : Option SocketAddr
  ipv4 : Option SocketAddr
  reqq : Option ℕ

/-- The fields collected while decoding a `DHTBase`. -/
structure DhtFields (T : Type) where
  a : Option T
  r : Option T
  q : Option String
  t : Option Value
  y : Option String
  p : Option ℕ
  v : Option Value
  ip : Option SocketAddr
  ipv6 : Option SocketAddr
  ipv4 : Option SocketAddr
  reqq : Option ℕ

section DhtBase

variable {T : Type} (decode : Decode T)

/-- One entry of a `DHTBase` dictionary. -/
def dhtEntry (s : DhtFields T) (k : Bytes) : Decode (DhtFields T) :=
  if k = key "a" then field "a" decode ({ s with a := some · })
  else if k = key "r" then field "r" decode ({ s with r := some · })
  else if k = key "q" then field "q" decodeString ({ s with q := some · })
  else if k = key "t" then field "t" decodeValue ({ s with t := some · })
  else if k = key "y" then field "y" decodeString ({ s with y := some · })
  else if k = key "p" then field "p" (decodeUnsigned 16) ({ s with p := some · })
  else if k = key "v" then field "v" decodeValue ({ s with v := some · })
  else if k = key "ip" then addrField ({ s with ip := some · })
  else if k = key "ipv6" then addrField ({ s with ipv6 := some · })
  else if k = key "ipv4" then addrField ({ s with ipv4 := some · })
  else if k = key "reqq" then field "reqq" (decodeUnsigned 32) ({ s with reqq := some · })
  else unknownField s

/-- `impl FromBencode for DHTBase`. -/
def decodeDhtBase : Decode (DhtBase T) := fun o d => do
  let (s, d') ← dictLoop (dhtEntry decode)
    ⟨none, none, none, none, none, none, none, none, none, none, none⟩ o d
  let t ← required "t" s.t
  let y ← required "y" s.y
  if s.a.isNone ∧ s.r.isNone then .error (.missingField "a or r")
  else if s.a.isSome ∧ s.q.isNone then .error (.missingField "q")
  else .ok (⟨s.a, s.r, s.q, t, y, s.p, s.v, s.ip, s.ipv6, s.ipv4, s.reqq⟩, d')

/-- `DHTBase::from_bencode`; the keys need not be ordered. -/
def DhtBase.fromBencode (data : Bytes) : Except Error (DhtBase T) :=
  Bendy.fromBencode (decodeDhtBase decode) false expectedRecursionDepth data

/-! ### The decoder reads whole values and does not panic -/

variable {decode}

theorem decodeSocketAddr_whole : decodeSocketAddr.Whole := by
  intro o d a d' h hd
  obtain ⟨⟨bytes, d₁⟩, hbytes, h⟩ := Checked.bind_eq_ok.mp h
  obtain ⟨addr, -, he⟩ := Checked.map_eq_ok.mp h
  obtain ⟨-, rfl⟩ := Prod.mk.inj he
  exact decodeBytes_whole hbytes hd

theorem decodeSocketAddr_calm : decodeSocketAddr.Calm := by
  intro o d raw stack hopened
  rw [decodeSocketAddr, panics_bind, not_or]
  refine ⟨decodeBytes_calm hopened, ?_⟩
  rintro ⟨⟨bytes, d₁⟩, -, h⟩
  rw [panics_map, toSocketAddr] at h
  split at h
  · exact not_panics_ok _ h
  · split at h
    · exact not_panics_ok _ h
    · simp [Error.ofKind] at h

theorem addrField_whole {σ : Type} (set : SocketAddr → σ) : (addrField set).Whole :=
  decodeSocketAddr_whole.map set

theorem addrField_calm {σ : Type} (set : SocketAddr → σ) : (addrField set).Calm :=
  decodeSocketAddr_calm.map set

theorem dhtEntry_whole (h : decode.Whole) (s : DhtFields T) (k : Bytes) :
    (dhtEntry decode s k).Whole := by
  unfold dhtEntry
  refine .ite (field_whole h) <| .ite (field_whole h) <| .ite (field_whole decodeString_whole) <|
    .ite (field_whole decodeValue_whole) <| .ite (field_whole decodeString_whole) <|
    .ite (field_whole (decodeUnsigned_whole 16)) <| .ite (field_whole decodeValue_whole) <|
    .ite (addrField_whole _) <| .ite (addrField_whole _) <| .ite (addrField_whole _) <|
    .ite (field_whole (decodeUnsigned_whole 32)) ?_
  exact unknownField_whole s

theorem dhtEntry_calm (h : decode.Calm) (s : DhtFields T) (k : Bytes) :
    (dhtEntry decode s k).Calm := by
  unfold dhtEntry
  refine .ite (field_calm h) <| .ite (field_calm h) <| .ite (field_calm decodeString_calm) <|
    .ite (field_calm decodeValue_calm) <| .ite (field_calm decodeString_calm) <|
    .ite (field_calm (decodeUnsigned_calm 16)) <| .ite (field_calm decodeValue_calm) <|
    .ite (addrField_calm _) <| .ite (addrField_calm _) <| .ite (addrField_calm _) <|
    .ite (field_calm (decodeUnsigned_calm 32)) ?_
  exact unknownField_calm s

theorem required_calm {α : Type} (name : String) (o : Option α) : ¬ Panics (required name o) := by
  cases o with
  | none => simp [required, Error.missingField, Error.ofKind]
  | some a => exact not_panics_ok a

/-- **The decoder does not panic** on any datagram. -/
theorem dhtBase_calm (hwhole : decode.Whole) (hcalm : decode.Calm) (data : Bytes) :
    ¬ Panics (DhtBase.fromBencode decode data) := by
  refine fromBencode_calm (fun o d raw stack hopened => ?_) false expectedRecursionDepth data
  show ¬ Panics (Except.bind _ _)
  rw [panics_bind, not_or]
  refine ⟨dictLoop_calm (dhtEntry_whole hwhole) (dhtEntry_calm hcalm) _ hopened, ?_⟩
  rintro ⟨⟨s, d'⟩, -, h⟩
  rcases panics_bind.mp h with ht | ⟨t, -, h⟩
  · exact required_calm "t" s.t ht
  · rcases panics_bind.mp h with hy | ⟨y, -, h⟩
    · exact required_calm "y" s.y hy
    · split_ifs at h
      · simp [Error.missingField, Error.ofKind] at h
      · simp [Error.missingField, Error.ofKind] at h
      · exact not_panics_ok _ h

end DhtBase

/-! ## The transaction id -/

/-- `DHTBase::t`; there is no id where the code says `unreachable!()`. -/
def DhtBase.tranId {T : Type} (base : DhtBase T) : Option UInt16 :=
  match base.t with
  | .bytes s => some (UInt16.ofNat (fromBeSlice 2 s))
  | _ => none

/-- What `parse_recv_data` makes of a datagram. -/
def parse (data : Bytes) : UdpServer.Parsed :=
  match DhtBase.fromBencode decodeValue data with
  | .ok base =>
      match base.tranId with
      | some id => .id id
      | none => .unreachable
  | .error e =>
      match e.error with
      | .panicked _ => .unreachable
      | _ => .error

/-! ## The last `t` of a datagram -/

/-- The last value under a key of a dictionary; all values are skipped. -/
def lastEntry (name : Bytes) (last : Option Object) (k : Bytes) : Decode (Option Object) :=
  fun value d => unknownField (if k = name then some value else last) value d

/-- The last value under the key `t` of the dictionary that a datagram starts with. -/
def lastT (data : Bytes) : Option Object :=
  match Bendy.fromBencode (dictLoop (lastEntry (key "t")) none) false expectedRecursionDepth
    data with
  | .ok last => last
  | .error _ => none

/-- The object is a byte string. -/
def IsBytes (o : Object) : Prop := ∃ s, o = .bytes s

/-- `DHTBase::from_bencode` accepts the datagram. -/
def Accepted (data : Bytes) : Prop := ∃ base, DhtBase.fromBencode decodeValue data = .ok base

/-- A value is a byte string if the object that it was decoded from is one. -/
theorem decodeValue_bytes_iff {o : Object} {d d' : Decoder} {v : Value}
    (h : decodeValue o d = .ok (v, d')) : (∃ s, v = .bytes s) ↔ IsBytes o := by
  unfold decodeValue at h
  cases o with
  | bytes s =>
      obtain ⟨rfl, -⟩ := Prod.mk.inj (Except.ok.inj h)
      exact ⟨fun _ => ⟨s, rfl⟩, fun _ => ⟨s, rfl⟩⟩
  | integer s =>
      rw [decodeValueN_integer] at h
      split at h
      · obtain ⟨rfl, -⟩ := Prod.mk.inj (Except.ok.inj h)
        simp [IsBytes]
      · cases h
  | list start =>
      obtain ⟨items, -, he⟩ := Checked.map_eq_ok.mp h
      obtain ⟨rfl, -⟩ := Prod.mk.inj he
      simp [IsBytes]
  | dict start =>
      obtain ⟨entries, -, he⟩ := Checked.map_eq_ok.mp h
      obtain ⟨rfl, -⟩ := Prod.mk.inj he
      simp [IsBytes]

/-- The field `t` and the last value under `t`. -/
def Agree (s : DhtFields Value) (last : Option Object) : Prop :=
  (s.t = none ∧ last = none) ∨
    ∃ v o, s.t = some v ∧ last = some o ∧ ((∃ bytes, v = .bytes bytes) ↔ IsBytes o)

/-- The entry `t` is the value of the key `t`. -/
theorem dhtEntry_t (s : DhtFields Value) :
    dhtEntry decodeValue s (key "t") = field "t" decodeValue ({ s with t := some · }) := by
  have ha : key "t" ≠ key "a" := by decide +kernel
  have hr : key "t" ≠ key "r" := by decide +kernel
  have hq : key "t" ≠ key "q" := by decide +kernel
  rw [dhtEntry, if_neg ha, if_neg hr, if_neg hq, if_pos rfl]

/-- Another entry keeps `t`. -/
theorem dhtEntry_ne_t (s : DhtFields Value) {k : Bytes} (hk : k ≠ key "t") :
    (dhtEntry decodeValue s k).Gives fun s' => s'.t = s.t := by
  have hfield : ∀ {S : Type} {name : String} {decode : Decode S} {set : S → DhtFields Value},
      (∀ a, (set a).t = s.t) → (field name decode set).Gives fun s' => s'.t = s.t :=
    fun h => field_gives h
  have haddr : ∀ {set : SocketAddr → DhtFields Value},
      (∀ a, (set a).t = s.t) → (addrField set).Gives fun s' => s'.t = s.t :=
    fun h => Decode.gives_map h
  unfold dhtEntry
  refine .ite (fun _ => hfield fun _ => rfl) fun _ => .ite (fun _ => hfield fun _ => rfl) fun _ =>
    .ite (fun _ => hfield fun _ => rfl) fun _ => .ite (fun h => absurd h hk) fun _ =>
    .ite (fun _ => hfield fun _ => rfl) fun _ => .ite (fun _ => hfield fun _ => rfl) fun _ =>
    .ite (fun _ => hfield fun _ => rfl) fun _ => .ite (fun _ => haddr fun _ => rfl) fun _ =>
    .ite (fun _ => haddr fun _ => rfl) fun _ => .ite (fun _ => haddr fun _ => rfl) fun _ =>
    .ite (fun _ => hfield fun _ => rfl) fun _ => ?_
  exact unknownField_gives rfl

/-- One entry keeps the agreement. -/
theorem Agree.entry {s s' : DhtFields Value} {last : Option Object} {k : Bytes} {o : Object}
    {d d' : Decoder} (h : Agree s last) (hd : d.offset ≤ d.source.length)
    (hentry : dhtEntry decodeValue s k o d = .ok (s', d')) :
    ∃ last', lastEntry (key "t") last k o d = .ok (last', d') ∧ Agree s' last' := by
  have hskip : dropObject o d = .ok d' := dhtEntry_whole decodeValue_whole s k hentry hd
  refine ⟨if k = key "t" then some o else last, ?_, ?_⟩
  · simp only [lastEntry, unknownField, hskip]
    rfl
  · by_cases hk : k = key "t"
    · subst hk
      rw [dhtEntry_t] at hentry
      obtain ⟨⟨v, d₁⟩, hctx, he⟩ := Checked.map_eq_ok.mp hentry
      obtain ⟨rfl, -⟩ := Prod.mk.inj he
      rw [if_pos rfl]
      exact Or.inr ⟨v, o, rfl, rfl, decodeValue_bytes_iff (context_eq_ok hctx)⟩
    · rw [if_neg hk, Agree, dhtEntry_ne_t s hk hentry]
      exact h

/-- The loop over the entries ends where the loop for the last `t` ends. -/
theorem agree_of_dictLoop {s s' : DhtFields Value} {last : Option Object} {o : Object}
    {d d' : Decoder} (h : Agree s last)
    (hloop : dictLoop (dhtEntry decodeValue) s o d = .ok (s', d')) :
    ∃ last', dictLoop (lastEntry (key "t")) last o d = .ok (last', d') ∧ Agree s' last' := by
  cases o with
  | dict start => exact dictLoopN_follows (fun h hd hentry => h.entry hd hentry) h hloop
  | list start => cases hloop
  | integer b => cases hloop
  | bytes b => cases hloop

theorem required_eq_ok {α : Type} {name : String} {o : Option α} {a : α}
    (h : required name o = .ok a) : o = some a := by
  cases o with
  | none => cases h
  | some b => exact congrArg some (Except.ok.inj h)

theorem DhtBase.isSome_tranId_iff {T : Type} {base : DhtBase T} :
    base.tranId.isSome ↔ ∃ s, base.t = .bytes s := by
  unfold tranId
  cases base.t <;> simp

/-- The `t` of an accepted datagram is a byte string if the last value under `t` is one. -/
theorem tranId_iff {data : Bytes} {base : DhtBase Value}
    (h : DhtBase.fromBencode decodeValue data = .ok base) :
    base.tranId.isSome ↔ ∃ s, lastT data = some (.bytes s) := by
  unfold DhtBase.fromBencode Bendy.fromBencode at h
  unfold lastT Bendy.fromBencode
  split at h
  · cases h
  · cases h
  · next o d hobj =>
      obtain ⟨⟨base', d'⟩, hdec, rfl⟩ := Checked.map_eq_ok.mp h
      obtain ⟨⟨s, d₁⟩, hloop, hdec⟩ := Checked.bind_eq_ok.mp hdec
      obtain ⟨t, ht, hdec⟩ := Checked.bind_eq_ok.mp hdec
      obtain ⟨y, -, hdec⟩ := Checked.bind_eq_ok.mp hdec
      have hbase : base'.t = t := by
        split_ifs at hdec
        obtain ⟨rfl, -⟩ := Prod.mk.inj (Except.ok.inj hdec)
        rfl
      obtain ⟨last, hlast, hagree⟩ := agree_of_dictLoop (Or.inl ⟨rfl, rfl⟩) hloop
      rcases hagree with ⟨hnone, -⟩ | ⟨v, o', hv, rfl, hiff⟩
      · rw [required_eq_ok ht] at hnone
        cases hnone
      · obtain rfl : t = v := Option.some.inj ((required_eq_ok ht).symm.trans hv)
        simp only [DhtBase.isSome_tranId_iff, hbase, hlast, Except.map, Option.some_inj]
        exact hiff

/-! ## `parse_recv_data` -/

/-- The datagram is refused, or the last value under `t` is a byte string. -/
def Harmless (data : Bytes) : Prop := Accepted data → ∃ s, lastT data = some (.bytes s)

/-- `parse` ends in a panic exactly for a harmful datagram. -/
theorem parse_ne_unreachable_iff (data : Bytes) : parse data ≠ .unreachable ↔ Harmless data := by
  have hcalm := dhtBase_calm decodeValue_whole decodeValue_calm data
  unfold parse Harmless Accepted
  split
  · next base hbase =>
      have hiff := tranId_iff hbase
      rw [hbase]
      cases hid : base.tranId with
      | some id => simpa [hid] using hiff
      | none => simpa [hid] using hiff
  · next e he =>
      rw [he, panics_error] at hcalm
      refine iff_of_true ?_ (by simp [he])
      split
      · next message hm => exact absurd ⟨message, hm⟩ hcalm
      · simp

open UdpServer

/-- With its own steps the receiver gets back to waiting for a datagram. -/
def Returns (s : Server) : Prop :=
  ∃ as s', (∀ a ∈ as, a = .store ∨ a = .wake) ∧ exec step s as = some s' ∧ s'.receiver = .idle

/-- A receiver that has panicked does not return. -/
theorem not_returns_of_stopped {s : Server} (h : s.receiver = .stopped) : ¬ Returns s := by
  rintro ⟨as, s', hown, hexec, hidle⟩
  cases as with
  | nil =>
      obtain rfl := Option.some.inj hexec
      rw [h] at hidle
      cases hidle
  | cons a as =>
      rcases hown a List.mem_cons_self with rfl | rfl
      · simp [step, Server.act, h] at hexec
      · simp [step, Server.act, h] at hexec

/-- A receiver that has taken out a registration stores the datagram and wakes the task. -/
theorem returns_of_removed {s : Server} {t : UInt16} {d : Datagram} {reg : Registration}
    {arrived : ℕ} (h : s.receiver = .removed t d reg arrived) : Returns s := by
  have hown : ∀ a ∈ [Action.store, .wake], a = .store ∨ a = .wake := by simp
  obtain ⟨waker, owner⟩ := reg
  cases waker with
  | none => exact ⟨[.store, .wake], _, hown, by simp only [exec, step, Server.act, h]; rfl, rfl⟩
  | some w => exact ⟨[.store, .wake], _, hown, by simp only [exec, step, Server.act, h]; rfl, rfl⟩

/-- When the receiver gets through `parse_recv_data`, in any state of the two maps. -/
theorem returns_recv_iff {s s' : Server} {d : Datagram} {parsed : Parsed}
    (h : step s (.recv d parsed) = some s') : Returns s' ↔ parsed ≠ .unreachable := by
  obtain ⟨s₁, hact, rfl⟩ := Option.map_eq_some_iff.mp h
  simp only [Server.act] at hact
  split at hact
  · next hidle =>
      obtain rfl := Option.some.inj hact
      cases parsed with
      | unreachable =>
          exact iff_of_false (not_returns_of_stopped rfl) fun hne => hne rfl
      | error => exact iff_of_true ⟨[], _, by simp, rfl, hidle⟩ (by simp)
      | id t =>
          refine iff_of_true ?_ (by simp)
          simp only [Server.recv]
          split
          · exact returns_of_removed rfl
          · exact ⟨[], _, by simp, rfl, hidle⟩
  · cases hact

/-- **Harmless datagrams.**  The decoder returns on every datagram; the transaction id is there and
`parse_recv_data` returns, in any state of the server, if and only if the datagram is harmless. -/
theorem datagram_returns_iff {s s' : Server} {d : Datagram}
    (h : step s (.recv d (parse d.data)) = some s') :
    (¬ Panics (DhtBase.fromBencode decodeValue d.data) ∧
      (∀ base, DhtBase.fromBencode decodeValue d.data = .ok base → base.tranId.isSome) ∧
      Returns s') ↔ Harmless d.data := by
  rw [returns_recv_iff h, parse_ne_unreachable_iff]
  constructor
  · exact fun hall => hall.2.2
  · intro hharmless
    refine ⟨dhtBase_calm decodeValue_whole decodeValue_calm d.data, fun base hbase => ?_, hharmless⟩
    exact (tranId_iff hbase).mpr (hharmless ⟨base, hbase⟩)

theorem datagram_returns_reply : ∃ s', step Server.new (.recv reply (parse reply.data)) = some s' ∧
    ¬ Panics (DhtBase.fromBencode decodeValue reply.data) ∧
    (∀ base, DhtBase.fromBencode decodeValue reply.data = .ok base → base.tranId.isSome) ∧
    Returns s' := by
  obtain ⟨s', hs'⟩ : ∃ s', step Server.new (.recv reply (parse reply.data)) = some s' := ⟨_, rfl⟩
  have hlast : lastT reply.data = some (.bytes [0, 0]) := by decide +kernel
  exact ⟨s', hs', (datagram_returns_iff hs').mpr fun _ => ⟨_, hlast⟩⟩

/-- `d1:rde1:ti1e1:y1:re`, with an integer for the id. -/
def integerReply : Datagram := ⟨key "d1:rde1:ti1e1:y1:re", .v4 0 6881⟩

theorem integerReply_stops_server : ∃ s',
    step Server.new (.recv integerReply (parse integerReply.data)) = some s' ∧ ¬ Returns s' := by
  obtain ⟨s', hs'⟩ : ∃ s',
      step Server.new (.recv integerReply (parse integerReply.data)) = some s' := ⟨_, rfl⟩
  have hparse : parse integerReply.data = .unreachable := by decide +kernel
  refine ⟨s', hs', ?_⟩
  rw [returns_recv_iff hs']
  exact fun hne => hne hparse

end DhtMessages
