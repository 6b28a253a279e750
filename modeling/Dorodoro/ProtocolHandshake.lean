/-
# The protocol handshake

`BasePeer::protocol_handshake` (`bt/base_peer.rs`): what this side sends, the one read that
takes the response off the `TcpStreamWrapper`, and the fields that are cut out of it behind
the length byte.

* `RightResponse`: what a response consists of;
* `protocolHandshake_of_short` and `protocolHandshake_of_whole`: the two ways through the
  function, for a read that did not bring the whole response and for one that did;
* `responseValidated_iff`: the response is validated without a panic if and only if it comes
  in one piece, its length byte leaves room for the other fields, and the protocol is the right
  one: the length byte is trusted, and the protocol is not compared with anything.
-/
import Dorodoro.Checked
import Dorodoro.EncryptedStream
import Dorodoro.RemoteControl

open Checked EncryptedStream

namespace ProtocolHandshake

/-! ## The function -/

/-- `[u8; 20]`: an info hash, or the id of a peer. -/
abbrev Array20 := { bytes : Bytes // bytes.length = 20 }

/-- `bytes.try_into()` for an array of 20 bytes. -/
def tryInto (bytes : Bytes) : Option Array20 :=
  if h : bytes.length = 20 then some ⟨bytes, h⟩ else none

/-- `BIT_TORRENT_PROTOCOL_LEN`. -/
def bitTorrentProtocolLen : UInt8 := 19

/-- `reserved::LTEP | reserved::DHT`. -/
def localReserved : ℕ := 2 ^ 20 ||| 1

/-- The handshake of this side. -/
def handshake (infoHash peerId : Array20) : Bytes :=
  bitTorrentProtocolLen :: (bitTorrentProtocol ++ toBeBytes 8 localReserved ++ infoHash ++ peerId)

/-- The errors of `protocol_handshake` about the response. -/
inductive HandshakeError where
  | wrongSize
  | wrongInfoHash
  | wrongPeerId
  deriving DecidableEq

/-- `opposite_peer_id` and `opposite_reserved`, as they are stored at the end. -/
structure Opposite where
  peerId : Option Array20
  reserved : ℕ
  deriving DecidableEq

/-- `BasePeer::protocol_handshake` behind the sending, when the socket has `n` bytes for the
read.  An error stores nothing. -/
def protocolHandshake (infoHash peerId : Array20) (w : TcpStreamWrapper) (n : ℕ) :
    Except Fault (Except HandshakeError Opposite) :=
  let bytes := handshake infoHash peerId
  let handshakeResp := (w.read (min n bytes.length)).1
  if handshakeResp.length ≠ bytes.length then .ok (.error .wrongSize)
  else
    (index handshakeResp 0).bind fun b =>
      let protocolLen := b.toNat
      (slice handshakeResp (1 + protocolLen) (1 + protocolLen + 8)).bind fun reserved =>
      (slice handshakeResp (1 + protocolLen + 8) (1 + protocolLen + 8 + 20)).bind
        fun respInfoHash =>
      (slice handshakeResp (1 + protocolLen + 8 + 20) handshakeResp.length).map fun opPeerId =>
        if infoHash.val ≠ respInfoHash then .error .wrongInfoHash
        else
          match tryInto opPeerId with
          | none => .error .wrongPeerId
          | some id => .ok ⟨some id, fromBeSlice 8 reserved⟩

/-! ## Responses -/

/-- The response consists of the protocol with its length, the reserved bits, the info hash of
this side, and the id of the other side. -/
def RightResponse (infoHash : Array20) (resp reserved : Bytes) (peerId : Array20) : Prop :=
  reserved.length = 8 ∧
    resp = bitTorrentProtocolLen :: (bitTorrentProtocol ++ reserved ++ infoHash ++ peerId)

@[simp] theorem length_bitTorrentProtocol : bitTorrentProtocol.length = 19 := by
  decide +kernel

@[simp] theorem length_handshake (infoHash peerId : Array20) :
    (handshake infoHash peerId).length = 68 := by
  simp [handshake, infoHash.property, peerId.property]

theorem tryInto_eq_some {bytes : Bytes} {id : Array20} : tryInto bytes = some id ↔ bytes = id := by
  unfold tryInto
  split
  · next h => rw [Option.some_inj, Subtype.ext_iff]
  · next h =>
      refine iff_of_false (by simp) ?_
      rintro rfl
      exact h id.property

theorem RightResponse.length_eq {infoHash peerId : Array20} {resp reserved : Bytes}
    (h : RightResponse infoHash resp reserved peerId) : resp.length = 68 := by
  obtain ⟨hreserved, rfl⟩ := h
  simp [hreserved, infoHash.property, peerId.property]

/-- What stands between two places, behind what stands before them. -/
theorem take_eq_append {l : Bytes} {a b : ℕ} (h : a ≤ b) :
    l.take b = l.take a ++ (l.take b).drop a := by
  conv_lhs => rw [← List.take_append_drop a (l.take b), List.take_take, min_eq_left h]

/-- The fields of a right response, by their places. -/
theorem rightResponse_iff {infoHash peerId : Array20} {resp reserved : Bytes}
    (hlen : resp.length = 68) :
    RightResponse infoHash resp reserved peerId ↔
      resp.take 1 = [bitTorrentProtocolLen] ∧ (resp.take 20).drop 1 = bitTorrentProtocol ∧
        (resp.take 28).drop 20 = reserved ∧ (resp.take 48).drop 28 = infoHash.val ∧
        resp.drop 48 = peerId.val := by
  constructor
  · rintro ⟨hreserved, rfl⟩
    have hprotocol := length_bitTorrentProtocol
    have hinfo := infoHash.property
    refine ⟨rfl, ?_, ?_, ?_, ?_⟩
    all_goals simp [List.take_append, List.drop_append, List.drop_of_length_le, *]
  · rintro ⟨hfirst, hprotocol, rfl, hinfo, hid⟩
    refine ⟨by simp [hlen], ?_⟩
    calc resp = resp.take 48 ++ resp.drop 48 := (List.take_append_drop 48 resp).symm
      _ = resp.take 1 ++ (resp.take 20).drop 1 ++ (resp.take 28).drop 20 ++
            (resp.take 48).drop 28 ++ resp.drop 48 := by
          rw [← take_eq_append (by omega : 1 ≤ 20), ← take_eq_append (by omega : 20 ≤ 28),
            ← take_eq_append (by omega : 28 ≤ 48)]
      _ = _ := by
          rw [hfirst, hprotocol, hinfo, hid]
          simp

/-! ## The two ways through the function -/

section Ways

variable {infoHash peerId : Array20} {w : TcpStreamWrapper} {n : ℕ}

/-- A read that does not bring the whole response is an error. -/
theorem protocolHandshake_of_short (h : n < 68 ∨ w.plain.length < 68) :
    protocolHandshake infoHash peerId w n = .ok (.error .wrongSize) := by
  have hshort : (w.read (min n 68)).1.length ≠ 68 := by
    rw [(w.read_eq _).1, List.length_take]
    omega
  simp [protocolHandshake, hshort]

/-- What becomes of a whole response with a length byte of `pl`. -/
def checkFields (infoHash : Array20) (resp : Bytes) (pl : ℕ) : Except HandshakeError Opposite :=
  if infoHash.val ≠ (resp.take (1 + pl + 8 + 20)).drop (1 + pl + 8) then .error .wrongInfoHash
  else
    match tryInto (resp.drop (1 + pl + 8 + 20)) with
    | none => .error .wrongPeerId
    | some id => .ok ⟨some id, fromBeSlice 8 ((resp.take (1 + pl + 8)).drop (1 + pl))⟩

/-- A read that brings the whole response panics unless the length byte leaves room for the
reserved bits and the info hash. -/
theorem protocolHandshake_of_whole {post : Except HandshakeError Opposite → Prop} (hn : 68 ≤ n)
    (hw : 68 ≤ w.plain.length) :
    Ensures post (protocolHandshake infoHash peerId w n) ↔
      ∃ b, w.plain[0]? = some b ∧ b.toNat ≤ 39 ∧
        post (checkFields infoHash (w.plain.take 68) b.toNat) := by
  have hread : (w.read (min n 68)).1 = w.plain.take 68 := by
    rw [(w.read_eq _).1, min_eq_right hn]
  have hlen : (w.plain.take 68).length = 68 := by
    rw [List.length_take, min_eq_left hw]
  have hfirst : (w.plain.take 68)[0]? = w.plain[0]? := List.getElem?_take_of_lt (by omega)
  simp only [protocolHandshake, length_handshake, hread, hlen, ne_eq, not_true_eq_false, if_false,
    ensures_bind, ensures_index, ensures_slice, ensures_map, hfirst]
  refine exists_congr fun b => and_congr_right fun _ => ?_
  have hroom : (1 + b.toNat ≤ 1 + b.toNat + 8 ∧ 1 + b.toNat + 8 ≤ 68) ∧
      (1 + b.toNat + 8 ≤ 1 + b.toNat + 8 + 20 ∧ 1 + b.toNat + 8 + 20 ≤ 68) ∧
      (1 + b.toNat + 8 + 20 ≤ 68 ∧ 68 ≤ 68) ↔ b.toNat ≤ 39 := by
    omega
  rw [← hroom, List.take_of_length_le hlen.le]
  simp only [and_assoc]
  rfl

/-- A length byte other than 19 leaves a peer id of another size. -/
theorem checkFields_of_ne {resp : Bytes} {pl : ℕ} (hlen : resp.length = 68) (hpl : pl ≠ 19)
    (o : Opposite) : checkFields infoHash resp pl ≠ .ok o := by
  unfold checkFields
  split
  · simp
  · split
    · simp
    · next id hid =>
        have hsize := congrArg List.length (tryInto_eq_some.mp hid)
        rw [List.length_drop, hlen, id.property] at hsize
        omega

/-- With a length byte of 19 the fields are where they belong. -/
theorem checkFields_eq_ok {resp : Bytes} {o : Opposite} :
    checkFields infoHash resp 19 = .ok o ↔
      (resp.take 48).drop 28 = infoHash.val ∧ ∃ id : Array20, resp.drop 48 = id.val ∧
        o = ⟨some id, fromBeSlice 8 ((resp.take 28).drop 20)⟩ := by
  unfold checkFields
  split
  · next hinfo => exact iff_of_false (by simp) fun h => hinfo h.1.symm
  · next hinfo =>
      rw [ne_eq, not_not] at hinfo
      have hid (id : Array20) : resp.drop 48 = id.val ↔ tryInto (resp.drop 48) = some id :=
        tryInto_eq_some.symm
      simp only [hid, ← hinfo, true_and, Nat.reduceAdd]
      cases tryInto (resp.drop 48) with
      | none => simp
      | some id => simp [eq_comm]

end Ways

/-! ## Validation -/

/-- The result is a success exactly for a right response, and then stores what stands in it. -/
def Validated (infoHash : Array20) (resp : Bytes) (r : Except HandshakeError Opposite) : Prop :=
  ∀ o, r = .ok o ↔ ∃ reserved peerId, RightResponse infoHash resp reserved peerId ∧
    o = ⟨some peerId, fromBeSlice 8 reserved⟩

/-- A response that is read in pieces is not a right one; of one that is read at once, the length
byte leaves room for the other fields, and the protocol is right when its length and the info
hash are. -/
def Harmless (infoHash : Array20) (received : Bytes) (n : ℕ) : Prop :=
  (n < 68 → ∀ reserved peerId, ¬ RightResponse infoHash (received.take 68) reserved peerId) ∧
    (68 ≤ n → 68 ≤ received.length → ∀ b, received[0]? = some b → b.toNat ≤ 39 ∧
      (b = bitTorrentProtocolLen → (received.take 48).drop 28 = infoHash.val →
        (received.take 20).drop 1 = bitTorrentProtocol))

/-- What the fields of a whole response come to. -/
theorem validated_checkFields_iff (infoHash : Array20) {resp : Bytes} {b : UInt8}
    (hlen : resp.length = 68) (hb : resp[0]? = some b) :
    Validated infoHash resp (checkFields infoHash resp b.toNat) ↔
      (b = bitTorrentProtocolLen → (resp.take 48).drop 28 = infoHash.val →
        (resp.take 20).drop 1 = bitTorrentProtocol) := by
  have hfirst : resp.take 1 = [b] := by
    rw [List.take_one, List.head?_eq_getElem?, hb]
    rfl
  by_cases h19 : b = bitTorrentProtocolLen
  · subst h19
    have hid : ∃ id : Array20, resp.drop 48 = id.val := ⟨⟨resp.drop 48, by simp [hlen]⟩, rfl⟩
    simp only [Validated, show bitTorrentProtocolLen.toNat = 19 from rfl, checkFields_eq_ok,
      rightResponse_iff hlen, hfirst, true_and, true_imp_iff]
    constructor
    · intro h hinfo
      obtain ⟨id, hid⟩ := hid
      obtain ⟨reserved, peerId, ⟨hprotocol, -⟩, -⟩ := (h _).mp ⟨hinfo, id, hid, rfl⟩
      exact hprotocol
    · intro h o
      constructor
      · rintro ⟨hinfo, id, hid, rfl⟩
        exact ⟨_, id, ⟨h hinfo, rfl, hinfo, hid⟩, rfl⟩
      · rintro ⟨_, id, ⟨-, rfl, hinfo, hid⟩, rfl⟩
        exact ⟨hinfo, id, hid, rfl⟩
  · refine iff_of_true (fun o => ?_) (fun h => absurd h h19)
    have hpl : b.toNat ≠ 19 := fun h => h19 (UInt8.toNat_inj.mp h)
    refine iff_of_false (checkFields_of_ne hlen hpl o) ?_
    rintro ⟨reserved, peerId, hright, -⟩
    have hlead := ((rightResponse_iff hlen).mp hright).1
    exact h19 (List.cons.inj (hfirst.symm.trans hlead)).1

/-- An error is right where there is no right response. -/
theorem validated_error_iff {infoHash : Array20} {resp : Bytes} {e : HandshakeError} :
    Validated infoHash resp (.error e) ↔
      ∀ reserved peerId, ¬ RightResponse infoHash resp reserved peerId := by
  constructor
  · intro h reserved peerId hright
    cases (h _).mpr ⟨reserved, peerId, hright, rfl⟩
  · intro h o
    refine iff_of_false (by simp) ?_
    rintro ⟨reserved, peerId, hright, -⟩
    exact h reserved peerId hright

/-- **Validation.**  The handshake response is validated, without a panic, if and only if it is
harmless. -/
theorem responseValidated_iff (infoHash peerId : Array20) (w : TcpStreamWrapper) (n : ℕ) :
    Ensures (Validated infoHash (w.plain.take 68)) (protocolHandshake infoHash peerId w n) ↔
      Harmless infoHash w.plain n := by
  by_cases hshort : n < 68 ∨ w.plain.length < 68
  · rw [protocolHandshake_of_short hshort, ensures_ok, validated_error_iff]
    constructor
    · exact fun h => ⟨fun _ => h, fun hn hw => by omega⟩
    · rintro ⟨hpieces, -⟩ reserved peerId hright
      -- a stream that ends early holds no right response
      have hlen := hright.length_eq
      rw [List.length_take] at hlen
      exact hpieces (by omega) reserved peerId hright
  · obtain ⟨hn, hw⟩ : 68 ≤ n ∧ 68 ≤ w.plain.length := by omega
    have hlen : (w.plain.take 68).length = 68 := by
      rw [List.length_take, min_eq_left hw]
    obtain ⟨b, hb⟩ : ∃ b, w.plain[0]? = some b := ⟨w.plain[0], List.getElem?_eq_getElem _⟩
    have hfirst : (w.plain.take 68)[0]? = some b := by
      rw [List.getElem?_take_of_lt (by omega), hb]
    have hvalid := validated_checkFields_iff infoHash hlen hfirst
    rw [List.take_take, List.take_take] at hvalid
    simp only [protocolHandshake_of_whole hn hw, Harmless, hb, Option.some_inj, exists_eq_left',
      forall_eq', hn, hw, true_imp_iff, hvalid, not_lt.mpr hn, false_imp_iff, true_and]
    exact Iff.rfl

/-- The id of 20 zeros. -/
def zeros : Array20 := ⟨List.replicate 20 0, rfl⟩

/-- A length byte of 40, a right response of which 20 bytes arrive first, and a response for
another protocol, which are all misjudged. -/
theorem responses_misjudged :
    let answer (bytes : Bytes) (n : ℕ) :=
      protocolHandshake zeros zeros ⟨bytes, .plaintext, .plaintext⟩ n
    answer (40 :: List.replicate 67 0) 68 = .error .outOfRange ∧
      ¬ Ensures (Validated zeros (handshake zeros zeros)) (answer (handshake zeros zeros) 20) ∧
      ¬ Ensures (Validated zeros (19 :: List.replicate 67 0))
          (answer (19 :: List.replicate 67 0) 68) := by
  intro answer
  have hpieces : answer (handshake zeros zeros) 20 = .ok (.error .wrongSize) := by decide +kernel
  have hother : answer (19 :: List.replicate 67 0) 68 = .ok (.ok ⟨some zeros, 0⟩) := by
    decide +kernel
  refine ⟨by decide +kernel, ?_, ?_⟩
  · rw [hpieces, ensures_ok, validated_error_iff]
    intro h
    exact h (toBeBytes 8 localReserved) zeros ⟨length_toBeBytes 8 _, rfl⟩
  · rw [hother, ensures_ok]
    intro h
    obtain ⟨reserved, peerId, hright, -⟩ := (h _).mp rfl
    have hprotocol := ((rightResponse_iff (by decide)).mp hright).2.1
    exact absurd hprotocol (by decide +kernel)

end ProtocolHandshake
