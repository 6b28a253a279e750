/-
# The ids of the extension protocol

Extension messages carry an id, and each side numbers the extensions for itself in its
handshake dictionary `m`.  `handle_handshake` (`bt/default_servant.rs`) records the ids
of the other side in `extend_id_map` (`bt/base_peer.rs`), `request_metadata_piece` sends
with the id of the other side, and `handle_extension_protocol` looks the id of an
incoming message up in the same map.

An incoming message, however, carries the id *this* client announced, so the look-up is
right only where both sides chose the same number: `agreement_iff`.
-/
import Dorodoro.PeerWire
import Mathlib.Data.List.AList

open Bendy PeerWire

namespace ExtensionIds

/-! ## The handshake dictionary (`extend_data.rs`) -/

/-- `HashMap<String, u8>`. -/
abbrev IdMap := AList (fun _ : String => UInt8)

instance : DecidableEq IdMap := fun a b =>
  decidable_of_iff (a.entries = b.entries) AList.ext_iff.symm

/-- `HandshakeData`. -/
structure HandshakeData where
  m : IdMap
  p : Option ℕ
  v : Option String
  yourip : Option Bytes
  ipv6 : Option Bytes
  ipv4 : Option Bytes
  reqq : Option ℕ
  metadataSize : Option ℕ
  deriving DecidableEq

/-- One entry of `HashMap::<String, u8>::decode_bencode_object`. -/
def idMapEntry (m : IdMap) (k : Bytes) : Decode IdMap := fun o d => do
  let (name, d) ← decodeString (.bytes k) d
  let (id, d) ← decodeUnsigned 8 o d
  return (m.insert name (UInt8.ofNat id), d)

/-- `HashMap::<String, u8>::decode_bencode_object`. -/
def decodeIdMap : Decode IdMap := dictLoop idMapEntry ∅

/-- The optional fields collected while decoding a `HandshakeData`. -/
structure HandshakeFields where
  m : Option IdMap
  p : Option ℕ
  v : Option String
  yourip : Option Bytes
  ipv6 : Option Bytes
  ipv4 : Option Bytes
  reqq : Option ℕ
  metadataSize : Option ℕ

/-- One entry of a `HandshakeData` dictionary. -/
def handshakeEntry (s : HandshakeFields) (k : Bytes) : Decode HandshakeFields :=
  if k = key "m" then field "m" decodeIdMap ({ s with m := some · })
  else if k = key "p" then field "p" (decodeUnsigned 16) ({ s with p := some · })
  else if k = key "v" then field "v" decodeString ({ s with v := some · })
  else if k = key "yourip" then field "yourip" decodeBytes ({ s with yourip := some · })
  else if k = key "ipv6" then field "ipv6" decodeBytes ({ s with ipv6 := some · })
  else if k = key "ipv4" then field "ipv4" decodeBytes ({ s with ipv4 := some · })
  else if k = key "reqq" then field "reqq" (decodeUnsigned 64) ({ s with reqq := some · })
  else if k = key "metadata_size" then
    field "metadata_size" (decodeUnsigned 32) ({ s with metadataSize := some · })
  else unknownField s

/-- `impl FromBencode for HandshakeData`. -/
def decodeHandshakeData : Decode HandshakeData := fun o d => do
  let (s, d) ← dictLoop handshakeEntry ⟨none, none, none, none, none, none, none, none⟩ o d
  let m ← required "m" s.m
  return (⟨m, s.p, s.v, s.yourip, s.ipv6, s.ipv4, s.reqq, s.metadataSize⟩, d)

/-- `HandshakeData::from_bencode`. -/
def HandshakeData.fromBencode (payload : Bytes) : Except Error HandshakeData :=
  Bendy.fromBencode decodeHandshakeData false expectedRecursionDepth payload

/-! ## The peer -/

/-- `ExtendedId::from_name`. -/
def fromName (name : String) : Option ExtendedId :=
  if name = "handshake" then some .handshake
  else if name = "ut_pex" then some .utPex
  else if name = "ut_metadata" then some .utMetadata
  else if name = "upload_only" then some .uploadOnly
  else if name = "ut_holepunch" then some .utHolepunch
  else if name = "ut_comment" then some .utComment
  else none

/-- `reserved::LTEP`. -/
def ltep : ℕ := 1 <<< 20

/-- The fields of a peer that the extension protocol uses. -/
structure Peer where
  runnable : Bool
  opReserved : ℕ
  extendIdMap : UInt8 → Option UInt8
  extendHandshakeData : Option HandshakeData

/-- `Peer::new`: the id of the handshake is fixed. -/
def Peer.new (opReserved : ℕ) : Peer where
  runnable := true
  opReserved := opReserved
  extendIdMap := Function.update (fun _ => none) 0 (some ExtendedId.handshake.getValue)
  extendHandshakeData := none

/-- `Peer::is_ltep`. -/
def Peer.isLtep (peer : Peer) : Bool := peer.opReserved &&& ltep != 0

/-- `Peer::extend_id_transform`. -/
def Peer.extendIdTransform (peer : Peer) (id : UInt8) : Option UInt8 := peer.extendIdMap id

/-- `Peer::add_extend_id`. -/
def Peer.addExtendId (peer : Peer) (sourceId : UInt8) (targetId : ExtendedId) : Peer :=
  { peer with extendIdMap := Function.update peer.extendIdMap sourceId (some targetId.getValue) }

/-- `Peer::is_can_be_request_metadata`. -/
def Peer.isCanBeRequestMetadata (peer : Peer) : Bool :=
  peer.isLtep && peer.extendHandshakeData.any fun data =>
    (data.m.lookup ExtendedId.utMetadata.getName).isSome

/-- `Peer::request_metadata_piece`: the bytes sent, or `none` for an error. -/
def Peer.requestMetadataPiece (peer : Peer) (piece : UInt32) : Option Bytes :=
  if !peer.runnable then none
  else if !peer.isCanBeRequestMetadata then none
  else
    match peer.extendHandshakeData.bind fun data =>
        data.m.lookup ExtendedId.utMetadata.getName with
    | some msgType => some (PeerWire.requestMetadataPiece msgType piece)
    | none => none

/-! ## The handlers (`default_servant.rs`) -/

/-- The loop of `handle_handshake` over the entries of `m`, in the order `order`. -/
def Peer.addExtendIds (peer : Peer) (order : List (Sigma fun _ : String => UInt8)) : Peer :=
  order.foldl (fun peer e =>
    match fromName e.1 with
    | some targetId => peer.addExtendId e.2 targetId
    | none => peer) peer

/-- How `handle_handshake` can fail. -/
inductive HandshakeFault where
  | decode (e : Error)
  /-- `"扩展协议握手数据已存在"` -/
  | alreadySet

/-- `handle_handshake`, with the order in which the hash map is gone through. -/
def Peer.handleHandshake (peer : Peer) (payload : Bytes)
    (order : List (Sigma fun _ : String => UInt8)) : Peer × Option HandshakeFault :=
  match HandshakeData.fromBencode payload with
  | .error e => (peer, some (.decode e))
  | .ok data =>
      let peer := peer.addExtendIds order
      match peer.extendHandshakeData with
      | some _ => (peer, some .alreadySet)
      | none => ({ peer with extendHandshakeData := some data }, none)

/-- The handler an extension message is passed to. -/
inductive Handler where
  | handshake
  | utPex
  | utMetadata
  | uploadOnly
  | utHolepunch
  | utComment
  | unknown
  deriving DecidableEq

/-- `handle_extension_protocol`: the handler and its payload; an empty message is an
error. -/
def Peer.handleExtensionProtocol (peer : Peer) : Bytes → Option (Handler × Bytes)
  | [] => none
  | sourceId :: payload =>
      match peer.extendIdTransform sourceId with
      | none => some (.unknown, payload)
      | some val =>
          if val = ExtendedId.handshake.getValue then some (.handshake, payload)
          else if val = ExtendedId.utPex.getValue then some (.utPex, payload)
          else if val = ExtendedId.utMetadata.getValue then some (.utMetadata, payload)
          else if val = ExtendedId.uploadOnly.getValue then some (.uploadOnly, payload)
          else if val = ExtendedId.utHolepunch.getValue then some (.utHolepunch, payload)
          else if val = ExtendedId.utComment.getValue then some (.utComment, payload)
          else some (.unknown, payload)

/-! ## Agreement on the ids -/

/-- **Agreement.**  Messages with the id this client announced for `ut_metadata` go to
`handle_ut_metadata`, messages with id 0 to `handle_handshake`, and metadata is requested
with the id the other side announced. -/
def Agreement (peer : Peer) (m : IdMap) : Prop :=
  (∀ payload, peer.handleExtensionProtocol (ExtendedId.utMetadata.getValue :: payload) =
    some (.utMetadata, payload)) ∧
  (∀ payload, peer.handleExtensionProtocol (0 :: payload) = some (.handshake, payload)) ∧
  ∀ id, m.lookup "ut_metadata" = some id → peer.isLtep = true →
    ∀ piece, peer.requestMetadataPiece piece = some (PeerWire.requestMetadataPiece id piece)

section AddExtendIds

variable {peer : Peer} {order : List (Sigma fun _ : String => UInt8)}

theorem addExtendIds_cons (e : Sigma fun _ : String => UInt8) :
    peer.addExtendIds (e :: order) = ((match fromName e.1 with
      | some targetId => peer.addExtendId e.2 targetId
      | none => peer) : Peer).addExtendIds order := rfl

/-- Only the map of ids changes. -/
theorem addExtendIds_frame : (peer.addExtendIds order).runnable = peer.runnable ∧
    (peer.addExtendIds order).opReserved = peer.opReserved ∧
    (peer.addExtendIds order).extendHandshakeData = peer.extendHandshakeData := by
  induction order generalizing peer with
  | nil => exact ⟨rfl, rfl, rfl⟩
  | cons e order ih =>
      rw [addExtendIds_cons]
      cases fromName e.1 with
      | none => exact ih
      | some targetId => exact ih

/-- An id that no known name has keeps its entry. -/
theorem addExtendIds_of_unknown {id : UInt8}
    (h : ∀ e ∈ order, e.2 = id → fromName e.1 = none) :
    (peer.addExtendIds order).extendIdMap id = peer.extendIdMap id := by
  induction order generalizing peer with
  | nil => rfl
  | cons e order ih =>
      rw [addExtendIds_cons, ih fun e' he' => h e' (List.mem_cons_of_mem _ he')]
      cases hname : fromName e.1 with
      | none => rfl
      | some targetId =>
          have hne : id ≠ e.2 := by
            intro heq
            rw [h e List.mem_cons_self heq.symm] at hname
            cases hname
          exact Function.update_of_ne hne _ _

/-- With distinct ids, the id of a known name is mapped to it. -/
theorem addExtendIds_of_mem (hnodup : (order.map Sigma.snd).Nodup)
    {e : Sigma fun _ : String => UInt8} (he : e ∈ order) {targetId : ExtendedId}
    (hname : fromName e.1 = some targetId) :
    (peer.addExtendIds order).extendIdMap e.2 = some targetId.getValue := by
  induction order generalizing peer with
  | nil => cases he
  | cons e' order ih =>
      rw [List.map_cons, List.nodup_cons] at hnodup
      rw [addExtendIds_cons]
      rcases List.mem_cons.mp he with rfl | he
      · -- no later entry has the same id
        rw [addExtendIds_of_unknown, hname]
        · exact Function.update_self _ _ _
        · intro e' he' heq
          exact absurd (heq ▸ List.mem_map_of_mem he') hnodup.1
      · exact ih hnodup.2 he

end AddExtendIds

/-- The number of an extension determines it. -/
theorem getValue_injective : Function.Injective ExtendedId.getValue := by
  intro a b h
  cases a <;> cases b <;> first | rfl | exact absurd h (by decide)

theorem fromName_eq_utMetadata {name : String} :
    fromName name = some .utMetadata ↔ name = "ut_metadata" := by
  constructor
  · intro h
    unfold fromName at h
    split_ifs at h <;> simp_all
  · rintro rfl
    rfl

/-- A message goes to `handle_ut_metadata` when its id is mapped to that extension. -/
theorem handleExtensionProtocol_eq_utMetadata {peer : Peer} {id : UInt8} {payload : Bytes} :
    peer.handleExtensionProtocol (id :: payload) = some (.utMetadata, payload) ↔
      peer.extendIdMap id = some ExtendedId.utMetadata.getValue := by
  rw [Peer.handleExtensionProtocol, Peer.extendIdTransform]
  constructor
  · intro h
    split at h
    · simp at h
    · next val hval =>
        rw [hval]
        split_ifs at h <;> simp_all
  · intro h
    rw [h]
    rfl

/-- What `handle_handshake` does with the first handshake of a peer. -/
theorem handleHandshake_new {opReserved : ℕ} {payload : Bytes} {data : HandshakeData}
    (hdata : HandshakeData.fromBencode payload = .ok data)
    (order : List (Sigma fun _ : String => UInt8)) :
    (Peer.new opReserved).handleHandshake payload order =
      ({ (Peer.new opReserved).addExtendIds order with extendHandshakeData := some data }, none) := by
  rw [Peer.handleHandshake, hdata]
  simp only
  rw [addExtendIds_frame.2.2]
  rfl

/-- Metadata is requested with the id of the other side. -/
theorem requestMetadataPiece_eq {peer : Peer} {data : HandshakeData} {id : UInt8}
    (hrun : peer.runnable = true) (hltep : peer.isLtep = true)
    (hdata : peer.extendHandshakeData = some data) (hid : data.m.lookup "ut_metadata" = some id)
    (piece : UInt32) :
    peer.requestMetadataPiece piece = some (PeerWire.requestMetadataPiece id piece) := by
  have hid' : data.m.lookup ExtendedId.utMetadata.getName = some id := hid
  have hcan : peer.isCanBeRequestMetadata = true := by
    simp [Peer.isCanBeRequestMetadata, hltep, hdata, hid']
  rw [Peer.requestMetadataPiece, hrun, hcan]
  simp [hdata, hid']

/-- **Extension ids.**  After the first handshake of a peer, with any dictionary `m` of
distinct non-zero ids and whatever the order in which it is gone through, the ids agree
if and only if the peer happens to have given `ut_metadata` the id this client uses. -/
theorem agreement_iff (opReserved : ℕ) {payload : Bytes} {data : HandshakeData}
    (hdata : HandshakeData.fromBencode payload = .ok data)
    (hnodup : (data.m.entries.map Sigma.snd).Nodup) (hzero : ∀ e ∈ data.m.entries, e.2 ≠ 0)
    {order : List (Sigma fun _ : String => UInt8)} (horder : order.Perm data.m.entries) :
    Agreement ((Peer.new opReserved).handleHandshake payload order).1 data.m ↔
      data.m.lookup "ut_metadata" = some 2 := by
  rw [handleHandshake_new hdata order]
  have hnodup' : (order.map Sigma.snd).Nodup := (horder.map Sigma.snd).nodup_iff.mpr hnodup
  constructor
  · rintro ⟨hmeta, -, -⟩
    have hmap := handleExtensionProtocol_eq_utMetadata.mp (hmeta [])
    change ((Peer.new opReserved).addExtendIds order).extendIdMap 2 = some 2 at hmap
    -- some known name has the id 2, for the map starts without it
    have hknown : ∃ e ∈ order, e.2 = 2 ∧ fromName e.1 ≠ none := by
      by_contra hnone
      push Not at hnone
      rw [addExtendIds_of_unknown hnone] at hmap
      cases hmap
    obtain ⟨⟨name, id⟩, he, hid, hname⟩ := hknown
    obtain ⟨targetId, htarget⟩ := Option.ne_none_iff_exists'.mp hname
    have hvalue : ((Peer.new opReserved).addExtendIds order).extendIdMap id =
        some targetId.getValue := addExtendIds_of_mem hnodup' he htarget
    simp only at hid
    subst hid
    rw [hmap, Option.some.injEq] at hvalue
    have hmetadata : targetId = .utMetadata := getValue_injective hvalue.symm
    rw [hmetadata, fromName_eq_utMetadata] at htarget
    simp only at htarget
    subst htarget
    exact AList.mem_lookup_iff.mpr (horder.mem_iff.mp he)
  · intro hlookup
    have he : (⟨"ut_metadata", 2⟩ : Sigma fun _ : String => UInt8) ∈ order :=
      horder.mem_iff.mpr (AList.mem_lookup_iff.mp hlookup)
    refine ⟨fun payload' => ?_, fun payload' => ?_, fun id hid hltep piece => ?_⟩
    · apply handleExtensionProtocol_eq_utMetadata.mpr
      exact addExtendIds_of_mem hnodup' he (fromName_eq_utMetadata.mpr rfl)
    · have hkeep : ((Peer.new opReserved).addExtendIds order).extendIdMap 0 =
          (Peer.new opReserved).extendIdMap 0 :=
        addExtendIds_of_unknown fun e he' h0 => absurd h0 (hzero e (horder.mem_iff.mp he'))
      rw [Peer.handleExtensionProtocol, Peer.extendIdTransform]
      simp only [hkeep]
      rfl
    · exact requestMetadataPiece_eq addExtendIds_frame.1 hltep rfl hid piece

/-- `d1:md11:ut_metadatai2e6:ut_pexi1eee`. -/
def sameIds : Bytes := key "d1:md11:ut_metadatai2e6:ut_pexi1eee"

/-- `d1:md11:ut_metadatai3eee`. -/
def otherIds : Bytes := key "d1:md11:ut_metadatai3eee"

/-- The dictionary of a handshake that only says `m`. -/
def onlyIds (m : IdMap) : HandshakeData := ⟨m, none, none, none, none, none, none, none⟩

theorem agreement_sameIds :
    Agreement ((Peer.new ltep).handleHandshake sameIds [⟨"ut_metadata", 2⟩, ⟨"ut_pex", 1⟩]).1
      (((∅ : IdMap).insert "ut_metadata" 2).insert "ut_pex" 1) := by
  have hdata : HandshakeData.fromBencode sameIds =
      .ok (onlyIds (((∅ : IdMap).insert "ut_metadata" 2).insert "ut_pex" 1)) := by decide +kernel
  exact (agreement_iff ltep hdata (by decide +kernel) (by decide +kernel)
    (by decide +kernel)).mpr (by decide +kernel)

/-- A peer that gave `ut_metadata` the id 3: its metadata messages, which carry the id 2
this client announced, are dropped as unknown. -/
theorem not_agreement_otherIds :
    ¬ Agreement ((Peer.new ltep).handleHandshake otherIds [⟨"ut_metadata", 3⟩]).1
      ((∅ : IdMap).insert "ut_metadata" 3) ∧
    ((Peer.new ltep).handleHandshake otherIds [⟨"ut_metadata", 3⟩]).1.handleExtensionProtocol [2] =
      some (.unknown, []) := by
  have hdispatch : ((Peer.new ltep).handleHandshake otherIds
      [⟨"ut_metadata", 3⟩]).1.handleExtensionProtocol [2] = some (.unknown, []) := by
    decide +kernel
  refine ⟨fun h => ?_, hdispatch⟩
  have hmeta := h.1 []
  change Peer.handleExtensionProtocol _ [2] = _ at hmeta
  rw [hdispatch] at hmeta
  exact absurd hmeta (by decide)

end ExtensionIds
