/-
# The codec of the DHT messages

`ToBencode for DHTBase` and `ToBencode for Ping` (`bt/dht/entity.rs`) beside their `FromBencode`.

* `Value.encode`, `NodeId.encode`, `Ping.encode` and `DhtBase.encode` follow the source, as do
  `decodeNodeId` and `decodePing`;
* `DhtBase.pairs` are the entries that are written, `dhtPairs_reads` says what is read of them;
* `krpc_roundTrips_iff`: which messages come back, and that every request comes back with its
  transaction id.
-/
import Dorodoro.BencodeDecoding
import Dorodoro.DhtMessages
import Dorodoro.RoutingTable

open Bendy

namespace DhtMessages

open Routing (NodeId)

/-! ## Encoding -/

/-- `ToBencode for i64`. -/
def encodeInteger (n : ℤ) : Encode :=
  Encoder.write (.num []) (ascii 'i' ::
    ((if n < 0 then [ascii '-'] else []) ++ PeerWire.decimal n.natAbs ++ [ascii 'e']))

mutual

/-- `impl ToBencode for Value`. -/
def Value.encode : Value → Encode
  | .bytes s => emitBytes s
  | .dict entries => emitDict (emitPairs (Value.encodeEntries entries))
  | .integer n => encodeInteger n
  | .list items => emitList (Value.encodeItems items)

/-- The entries of a `BTreeMap`. -/
def Value.encodeEntries : List (Bytes × Value) → List (Bytes × Encode)
  | [] => []
  | (k, v) :: entries => (k, Value.encode v) :: Value.encodeEntries entries

/-- The items of a `Vec`. -/
def Value.encodeItems : List Value → List Encode
  | [] => []
  | v :: items => Value.encode v :: Value.encodeItems items

end

/-- `impl ToBencode for NodeId`. -/
def encodeNodeId (id : NodeId) : Encode := emitBytes id.bytes

/-- `Ping`. -/
structure Ping where
  id : NodeId
  port : Option ℕ
  deriving DecidableEq

/-- `impl ToBencode for Ping`. -/
def Ping.encode (ping : Ping) : Encode := emitDict fun e => do
  let e ← emitPair (key "id") (encodeNodeId ping.id) e
  emitOption (key "port") emitInt ping.port e

/-- The entry `q`, without which there is no `a`. -/
def DhtBase.encodeQ {T : Type} (base : DhtBase T) : Encode := fun e =>
  match base.q with
  | some q => emitPair (key "q") (emitStr q) e
  | none =>
      if base.a.isSome then .error (.malformedContent (.missingField "missing q field")) else .ok e

/-- `impl ToBencode for DHTBase`. -/
def DhtBase.encode {T : Type} (encode : T → Encode) (base : DhtBase T) : Encode :=
  emitDict fun e => do
    let e ← emitOption (key "a") encode base.a e
    let e ← emitOption (key "r") encode base.r e
    let e ← base.encodeQ e
    let e ← emitPair (key "t") base.t.encode e
    emitPair (key "y") (emitStr base.y) e

/-- `DHTBase::<Ping>::to_bencode`. -/
def DhtBase.toBencode (base : DhtBase Ping) : Except EncodeError Bytes :=
  Bendy.toBencode (base.encode Ping.encode) maxDepth

/-! ## Decoding -/

/-- `impl FromBencode for NodeId`. -/
def decodeNodeId : Decode NodeId := fun o d =>
  (decodeBytes o d).bind fun (bytes, d') =>
    if h : bytes.length = 20 then .ok (⟨bytes, h⟩, d')
    else .error (.ofKind (.unexpectedToken "expected 20-byte node ID"
      ("Invalid id length: " ++ toString bytes.length)))

/-- The fields collected while decoding a `Ping`. -/
structure PingFields where
  id : Option NodeId
  port : Option ℕ

/-- One entry of a `Ping` dictionary. -/
def pingEntry (s : PingFields) (k : Bytes) : Decode PingFields :=
  if k = key "id" then field "id" decodeNodeId ({ s with id := some · })
  else if k = key "p" then field "p" (decodeUnsigned 16) ({ s with port := some · })
  else unknownField s

/-- `impl FromBencode for Ping`. -/
def decodePing : Decode Ping := fun o d => do
  let (s, d) ← dictLoop pingEntry ⟨none, none⟩ o d
  let id ← required "id" s.id
  return (⟨id, s.port⟩, d)

/-! ## What is wanted -/

/-- `DHTBase::request`. -/
def DhtBase.request {T : Type} (a : T) (q : String) (t : UInt16) : DhtBase T where
  a := some a
  r := none
  q := some q
  t := .bytes (toBeBytes 2 t.toNat)
  y := "q"
  p := none
  v := none
  ip := none
  ipv6 := none
  ipv4 := none
  reqq := none

/-- **What is wanted**: the message is encoded, and decoded to the same. -/
def DhtBase.RoundTrips (base : DhtBase Ping) : Prop :=
  ∃ data, base.toBencode = .ok data ∧ DhtBase.fromBencode decodePing data = .ok base

/-- **The condition**: there is something to say, not a query beside a response, no ping has a port,
and there are no further fields. -/
structure DhtBase.Plain (base : DhtBase Ping) : Prop where
  content : base.a.isSome ∨ base.r.isSome
  query : base.r = none ∨ base.q = none
  port : ∀ ping, ping ∈ base.a ∨ ping ∈ base.r → ping.port = none
  p : base.p = none
  v : base.v = none
  ip : base.ip = none
  ipv6 : base.ipv6 = none
  ipv4 : base.ipv4 = none
  reqq : base.reqq = none

/-- The strings are in the range of their type. -/
structure DhtBase.InRange (base : DhtBase Ping) : Prop where
  q : ∀ q ∈ base.q, (key q).length < 2 ^ 64
  y : (key base.y).length < 2 ^ 64
  t : ∀ s, base.t = .bytes s → s.length < 2 ^ 64

/-! ## Pings -/

/-- The entries of a ping, as they are written. -/
def Ping.pairs (ping : Ping) : List (Bytes × Bytes) :=
  (key "id", PeerWire.emitBytes ping.id.bytes) ::
    ping.port.toList.map fun port => (key "port", PeerWire.emitInt port)

/-- What is left of a ping: its port is written under another key than it is read from. -/
def Ping.received (ping : Ping) : Ping := { ping with port := none }

theorem Ping.emits (ping : Ping) : ping.encode.Emits 1 (.ok (PeerWire.emitDict ping.pairs)) := by
  have hport := emits_option (k := key "port") (n := 0) ping.port fun port _ => emits_int port 0
  have hpairs : Encode.EmitsPairs _ 0 ping.pairs :=
    emits_bind (emits_pair (k := key "id") (emits_bytes ping.id.bytes 0)) hport
  have hkeys : ascends none (ping.pairs.map Prod.fst) = true := by
    have hlt : key "id" < key "port" := by decide +kernel
    rw [Ping.pairs]
    match ping.port with
    | none => rfl
    | some port => simp [ascends, hlt]
  have hemits := emits_dict hpairs
  rwa [if_pos hkeys] at hemits

theorem decodeNodeId_reads (id : NodeId) (n : ℕ) :
    decodeNodeId.Reads n (PeerWire.emitBytes id.bytes) (.ok id) := by
  have hshort : id.bytes.length < 2 ^ 64 := by rw [id.length_bytes]; decide
  exact reads_bytes hshort (fun d => dif_pos id.length_bytes) n

/-- What is made of the fields at the end of a dictionary. -/
def PingFields.finish (s : PingFields) : Except Error Ping :=
  (required "id" s.id).map fun id => ⟨id, s.port⟩

theorem decodePing_eq (o : Object) (d : Decoder) : decodePing o d =
    (dictLoop pingEntry ⟨none, none⟩ o d).bind fun p =>
      p.1.finish.map fun ping => (ping, p.2) := by
  show (dictLoop pingEntry ⟨none, none⟩ o d).bind _ = _
  congr 1
  funext p
  rcases p with ⟨⟨_ | id, _⟩, d'⟩ <;> rfl

/-- **The port of a ping is skipped.** -/
theorem decodePing_reads (ping : Ping) :
    decodePing.Reads 1 (PeerWire.emitDict ping.pairs) (.ok ping.received) := by
  have hid : pingEntry ⟨none, none⟩ (key "id") =
      field "id" decodeNodeId (⟨some ·, none⟩) := if_pos rfl
  have hport (s : PingFields) : pingEntry s (key "port") = unknownField s := by
    simp [pingEntry, key_injective.eq_iff]
  have hpairs : ReadsPairs pingEntry 0 ⟨none, none⟩ ping.pairs (.ok ⟨some ping.id, none⟩) := by
    rw [Ping.pairs, ← List.append_nil (ping.port.toList.map _)]
    refine .cons (by decide +kernel) ?_ <|
      .option (by decide +kernel) (fun _ => rfl) (fun port _ => ?_) (.nil _)
    · rw [hid]
      exact field_reads (decodeNodeId_reads ping.id 0)
    · rw [hport]
      exact unknownField_reads_int _ port 0
  exact (dictLoop_reads hpairs).andThen PingFields.finish decodePing_eq

/-! ## Messages -/

/-- The entries of a message, as they are written. -/
def DhtBase.pairs (base : DhtBase Ping) (t : Bytes) : List (Bytes × Bytes) :=
  base.a.toList.map (fun ping => (key "a", PeerWire.emitDict ping.pairs)) ++
    (base.r.toList.map (fun ping => (key "r", PeerWire.emitDict ping.pairs)) ++
      (base.q.toList.map (fun q => (key "q", PeerWire.emitBytes (key q))) ++
        [(key "t", PeerWire.emitBytes t), (key "y", PeerWire.emitBytes (key base.y))]))

/-- What is left of a message. -/
def DhtBase.received (base : DhtBase Ping) : DhtBase Ping where
  a := base.a.map Ping.received
  r := base.r.map Ping.received
  q := base.q
  t := base.t
  y := base.y
  p := none
  v := none
  ip := none
  ipv6 := none
  ipv4 := none
  reqq := none

/-- The fields in front of a dictionary. -/
def DhtFields.empty {T : Type} : DhtFields T :=
  ⟨none, none, none, none, none, none, none, none, none, none, none⟩

/-- The fields behind the entries up to the id. -/
def DhtFields.upTo {T : Type} (a r : Option T) (q : Option String) (t : Option Value) :
    DhtFields T := ⟨a, r, q, t, none, none, none, none, none, none, none⟩

/-- What is made of the fields at the end of a dictionary. -/
def DhtFields.finish {T : Type} (s : DhtFields T) : Except Error (DhtBase T) :=
  (required "t" s.t).bind fun t => (required "y" s.y).bind fun y =>
    if s.a.isNone ∧ s.r.isNone then .error (.missingField "a or r")
    else if s.a.isSome ∧ s.q.isNone then .error (.missingField "q")
    else .ok ⟨s.a, s.r, s.q, t, y, s.p, s.v, s.ip, s.ipv6, s.ipv4, s.reqq⟩

theorem decodeDhtBase_eq {T : Type} (decode : Decode T) (o : Object) (d : Decoder) :
    decodeDhtBase decode o d = (dictLoop (dhtEntry decode) DhtFields.empty o d).bind fun p =>
      p.1.finish.map fun base => (base, p.2) := by
  show (dictLoop (dhtEntry decode) DhtFields.empty o d).bind _ = _
  congr 1
  funext p
  rcases p with ⟨⟨a, r, q, _ | t, _ | y, _, _, _, _, _, _⟩, d'⟩
  · rfl
  · rfl
  · rfl
  · simp only [DhtFields.finish, required]
    show (if _ then _ else _) = Except.map _ (if _ then _ else _)
    split_ifs <;> rfl

section Message

variable {base : DhtBase Ping} {t : Bytes}

theorem DhtBase.emits (ht : base.t = .bytes t) (hq : base.a.isSome → base.q.isSome) :
    (base.encode Ping.encode).Emits 2 (if ascends none ((base.pairs t).map Prod.fst) then
      .ok (PeerWire.emitDict (base.pairs t)) else .error (.structureError .unsortedKeys)) := by
  have hping (o : Option Ping) (k : Bytes) :=
    emits_option (k := k) (n := 1) o fun ping _ => ping.emits
  have hvalue : base.t.encode.Emits 1 (.ok (PeerWire.emitBytes t)) := by
    rw [ht]
    exact emits_bytes t 1
  -- the encoder has an error for a query without a name only
  have hquery : base.encodeQ.EmitsPairs 1
      (base.q.toList.map fun q => (key "q", PeerWire.emitBytes (key q))) := by
    unfold DhtBase.encodeQ
    match hb : base.q with
    | some q => exact emits_pair (emits_str q 1)
    | none =>
        have hnone : ¬ base.a.isSome := fun ha => by simpa [hb] using hq ha
        simp only [if_neg hnone]
        exact emits_nil 1
  exact emits_dict <| emits_bind (hping base.a (key "a")) <| emits_bind (hping base.r (key "r")) <|
    emits_bind hquery <| emits_bind (emits_pair (k := key "t") hvalue) <|
    emits_pair (k := key "y") (emits_str base.y 1)

theorem ascends_dhtPairs :
    ascends none ((base.pairs t).map Prod.fst) = true ↔ base.r = none ∨ base.q = none := by
  have har : key "a" < key "r" := by decide +kernel
  have haq : key "a" < key "q" := by decide +kernel
  have hat : key "a" < key "t" := by decide +kernel
  have hrq : ¬ key "r" < key "q" := by decide +kernel
  have hrt : key "r" < key "t" := by decide +kernel
  have hqt : key "q" < key "t" := by decide +kernel
  have hty : key "t" < key "y" := by decide +kernel
  rw [DhtBase.pairs]
  rcases base.a with _ | a <;> rcases base.r with _ | r <;> rcases base.q with _ | q <;>
    simp [ascends, har, haq, hat, hrq, hrt, hqt, hty]

theorem decodeValue_reads {s : Bytes} (hs : s.length < 2 ^ 64) (n : ℕ) :
    decodeValue.Reads n (PeerWire.emitBytes s) (.ok (.bytes s)) :=
  reads_bytes hs (fun _ => rfl) n

/-- **What is read**: the pings without their ports, and no further fields. -/
theorem dhtPairs_reads (ht : base.t = .bytes t) (hr : base.InRange) :
    ReadsPairs (dhtEntry decodePing) 1 DhtFields.empty (base.pairs t)
      (.ok ⟨base.a.map Ping.received, base.r.map Ping.received, base.q, some (.bytes t),
        some base.y, none, none, none, none, none, none⟩) := by
  have hname (s : DhtFields Ping) : dhtEntry decodePing s (key "q") =
      field "q" decodeString ({ s with q := some · }) := by
    simp [dhtEntry, key_injective.eq_iff]
  have hrequest (s : DhtFields Ping) : dhtEntry decodePing s (key "a") =
      field "a" decodePing ({ s with a := some · }) := if_pos rfl
  have hresponse (s : DhtFields Ping) : dhtEntry decodePing s (key "r") =
      field "r" decodePing ({ s with r := some · }) := by
    simp [dhtEntry, key_injective.eq_iff]
  have hid (s : DhtFields Ping) : dhtEntry decodePing s (key "t") =
      field "t" decodeValue ({ s with t := some · }) := by
    simp [dhtEntry, key_injective.eq_iff]
  have hkind (s : DhtFields Ping) : dhtEntry decodePing s (key "y") =
      field "y" decodeString ({ s with y := some · }) := by
    simp [dhtEntry, key_injective.eq_iff]
  refine .option (u := .upTo (base.a.map Ping.received) none none none)
      (by decide +kernel) (fun ha => by rw [ha]; rfl) (fun ping ha => ?_) <|
    .option (u := .upTo (base.a.map Ping.received) (base.r.map Ping.received) none none)
      (by decide +kernel) (fun hb => by rw [hb]; rfl) (fun ping hb => ?_) <|
    .option (u := .upTo (base.a.map Ping.received) (base.r.map Ping.received) base.q none)
      (by decide +kernel) (fun hb => by rw [hb]) (fun q hb => ?_) <|
    .cons (u := .upTo (base.a.map Ping.received) (base.r.map Ping.received) base.q
      (some (.bytes t))) (by decide +kernel) ?_ <|
    .cons (by decide +kernel) ?_ (.nil _)
  · rw [hrequest, ha]
    exact field_reads (decodePing_reads ping)
  · rw [hresponse, hb]
    exact field_reads (decodePing_reads ping)
  · rw [hname, hb]
    exact field_reads (decodeString_reads (hr.q q hb) 1)
  · rw [hid]
    exact field_reads (decodeValue_reads (hr.t t ht) 1)
  · rw [hkind]
    exact field_reads (decodeString_reads hr.y 1)

/-- What is decoded from the bytes that were written. -/
theorem fromBencode_dhtPairs (ht : base.t = .bytes t) (hr : base.InRange)
    (hq : base.a.isSome → base.q.isSome) :
    DhtBase.fromBencode decodePing (PeerWire.emitDict (base.pairs t)) =
      if base.a.isNone ∧ base.r.isNone then .error (.missingField "a or r")
      else .ok base.received := by
  have hrun : DhtBase.fromBencode decodePing (PeerWire.emitDict (base.pairs t)) = _ :=
    ((dictLoop_reads (dhtPairs_reads ht hr)).andThen DhtFields.finish
      (decodeDhtBase_eq decodePing)).fromBencode (by decide)
  have hquery : ¬ (base.a.isSome ∧ base.q.isNone) := by
    rintro ⟨ha, hnone⟩
    have hsome := hq ha
    rw [Option.isNone_iff_eq_none.mp hnone] at hsome
    nomatch hsome
  rw [hrun]
  show (if _ then _ else _) = _
  rw [Option.isNone_map, Option.isNone_map, Option.isSome_map, if_neg hquery, DhtBase.received, ht]

theorem map_received_eq_iff (o : Option Ping) :
    o.map Ping.received = o ↔ ∀ ping ∈ o, ping.port = none := by
  match o with
  | none => simp
  | some ⟨id, port⟩ => simp [Ping.received, eq_comm]

/-- What comes back is the message itself. -/
theorem received_eq_iff : base.received = base ↔
    (∀ ping, ping ∈ base.a ∨ ping ∈ base.r → ping.port = none) ∧ base.p = none ∧ base.v = none ∧
      base.ip = none ∧ base.ipv6 = none ∧ base.ipv4 = none ∧ base.reqq = none := by
  have hpings : (∀ ping, ping ∈ base.a ∨ ping ∈ base.r → ping.port = none) ↔
      base.a.map Ping.received = base.a ∧ base.r.map Ping.received = base.r := by
    simp only [map_received_eq_iff, or_imp, forall_and]
  rw [hpings]
  obtain ⟨a, r, q, t, y, p, v, ip, ipv6, ipv4, reqq⟩ := base
  simp [DhtBase.received, eq_comm, and_assoc]

theorem toBencode_dht (ht : base.t = .bytes t) (hq : base.a.isSome → base.q.isSome) :
    base.toBencode = if ascends none ((base.pairs t).map Prod.fst) then
      .ok (PeerWire.emitDict (base.pairs t)) else .error (.structureError .unsortedKeys) :=
  (DhtBase.emits ht hq).toBencode (by decide)

theorem dht_plain_of_roundTrips (ht : base.t = .bytes t) (hr : base.InRange)
    (hq : base.a.isSome → base.q.isSome) (hback : base.RoundTrips) : base.Plain := by
  obtain ⟨data, hto, hfrom⟩ := hback
  rw [toBencode_dht ht hq] at hto
  obtain ⟨hsorted, rfl⟩ := ite_ok_eq_ok hto
  rw [fromBencode_dhtPairs ht hr hq] at hfrom
  have hsome : ¬ (base.a.isNone ∧ base.r.isNone) := by
    intro hnone
    rw [if_pos hnone] at hfrom
    nomatch hfrom
  rw [if_neg hsome, Except.ok.injEq, received_eq_iff] at hfrom
  obtain ⟨hport, hp, hv, hip, hipv6, hipv4, hreqq⟩ := hfrom
  refine ⟨?_, ascends_dhtPairs.mp hsorted, hport, hp, hv, hip, hipv6, hipv4, hreqq⟩
  by_contra hnone
  exact hsome (by simpa using hnone)

theorem dht_roundTrips_of_plain (ht : base.t = .bytes t) (hr : base.InRange)
    (hq : base.a.isSome → base.q.isSome) (hplain : base.Plain) : base.RoundTrips := by
  have hsome : ¬ (base.a.isNone ∧ base.r.isNone) := by
    rintro ⟨ha, hb⟩
    rcases hplain.content with hsome | hsome
    · simp [Option.isNone_iff_eq_none.mp ha] at hsome
    · simp [Option.isNone_iff_eq_none.mp hb] at hsome
  have hreceived : base.received = base := received_eq_iff.mpr
    ⟨hplain.port, hplain.p, hplain.v, hplain.ip, hplain.ipv6, hplain.ipv4, hplain.reqq⟩
  have hto := toBencode_dht ht hq
  rw [if_pos (ascends_dhtPairs.mpr hplain.query)] at hto
  refine ⟨_, hto, ?_⟩
  rw [fromBencode_dhtPairs ht hr hq, if_neg hsome, hreceived]

end Message

/-- The id of a request is that of what is left of it. -/
theorem tranId_request (a : Ping) (q : String) (id : UInt16) :
    (DhtBase.request a q id).received.tranId = some id := by
  show some (UInt16.ofNat (fromBeSlice 2 (toBeBytes 2 id.toNat))) = some id
  rw [fromBeSlice_toBeBytes 2 id.toNat id.toNat_lt, UInt16.ofNat_toNat]

/-- **A message comes back exactly if it says something, has not both a query and a response, and
has no port and no further field**; and every request comes back with its transaction id. -/
theorem krpc_roundTrips_iff (base : DhtBase Ping) (t : Bytes) (ht : base.t = .bytes t)
    (hr : base.InRange) (hq : base.a.isSome → base.q.isSome) :
    (base.RoundTrips ↔ base.Plain) ∧
      ∀ a q id, base = .request a q id → ∃ data base', base.toBencode = .ok data ∧
        DhtBase.fromBencode decodePing data = .ok base' ∧ base'.tranId = some id := by
  refine ⟨⟨dht_plain_of_roundTrips ht hr hq, dht_roundTrips_of_plain ht hr hq⟩, ?_⟩
  rintro a q id rfl
  have hto := toBencode_dht ht hq
  rw [if_pos (ascends_dhtPairs.mpr (Or.inl rfl))] at hto
  have hfrom := fromBencode_dhtPairs ht hr hq
  rw [if_neg (fun hnone => Bool.noConfusion hnone.1)] at hfrom
  exact ⟨_, _, hto, hfrom, tranId_request a q id⟩

/-- The ping of `Dht::ping` comes back. -/
theorem krpc_roundTrips_ping :
    (DhtBase.request (Ping.mk NodeId.zero none) "ping" 7).RoundTrips :=
  (krpc_roundTrips_iff _ _ rfl
    ⟨by rintro q ⟨⟩; decide +kernel, by decide +kernel, by rintro s ⟨⟩; decide +kernel⟩
    (fun _ => rfl)).1.mpr
    ⟨Or.inl rfl, Or.inl rfl, by simp [DhtBase.request], rfl, rfl, rfl, rfl, rfl, rfl⟩

/-- The port of a ping does not come back, and neither does a response beside a query. -/
theorem krpc_not_roundTrips :
    ¬ (DhtBase.request (Ping.mk NodeId.zero (some 6881)) "ping" 7).RoundTrips ∧
      ¬ (DhtBase.mk none (some (Ping.mk NodeId.zero none)) (some "ping") (.bytes [0, 7]) "r"
        none none none none none none).RoundTrips := by
  constructor
  · intro hback
    have hplain := dht_plain_of_roundTrips (t := toBeBytes 2 7) rfl
      ⟨by rintro q ⟨⟩; decide +kernel, by decide +kernel, by rintro s ⟨⟩; decide +kernel⟩
      (fun _ => rfl) hback
    have hport := hplain.port _ (Or.inl rfl)
    nomatch hport
  · intro hback
    have hplain := dht_plain_of_roundTrips (t := [0, 7]) rfl
      ⟨by rintro q ⟨⟩; decide +kernel, by decide +kernel, by rintro s ⟨⟩; decide +kernel⟩
      (fun _ => rfl) hback
    rcases hplain.query with hquery | hquery
    · nomatch hquery
    · nomatch hquery

end DhtMessages
