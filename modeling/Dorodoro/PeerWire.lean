/-
# Peer messages on the wire

The framing of peer messages: the byte strings the `Peer::request_*` functions build
(`bt/base_peer.rs`), the encrypting socket halves (`bt/socket.rs`), the parser future
`PeerResp` (`bt/base_peer/peer_resp.rs`) and the task `ReadFuture::run` that polls one
`PeerResp` after the other (`bt/base_peer/listener.rs`).

* `Outgoing` lists what a peer sends, with `Outgoing.bytes` the bytes on the wire and
  `Outgoing.message` the pair the other side should see;
* `Crypto.writeEach` is the sending side, `OwnedReadHalfExt.pollRead` the receiving
  side, RC4 being a keystream combined byte by byte (`StreamCipher`);
* `peerResp` is the parser, `ReadFuture.poll` one turn of the receiving task.

`readFuture_yields` is the round trip, for every fragmentation and both variants of
`Crypto`.  The parser waits for five bytes before it looks at the length, so that a
keep-alive (four zero bytes) is never recognised: `transparent_iff` states that the
frames are reported as they were sent exactly when there is no keep-alive among them.
-/
import Dorodoro.Bytes
import Dorodoro.StreamCipher
import Dorodoro.RemoteControl
import Dorodoro.MagnetMetadata
import Mathlib.Data.Nat.Digits.Defs
import Mathlib.Logic.Function.Iterate

open FrameReader StreamCipher

namespace PeerWire

/-! ## Message types -/

/-- `MsgType`. -/
inductive MsgType where
  | choke
  | unChoke
  | interested
  | notInterested
  | have
  | bitfield
  | request
  | piece
  | cancel
  | port
  | suggest
  | haveAll
  | haveNone
  | rejectRequest
  | allowedFast
  | extensionProtocol
  | hashRequest
  | hashes
  | hashReject
  deriving DecidableEq

/-- `msg_type as u8`. -/
def MsgType.toU8 : MsgType → UInt8
  | .choke => 0
  | .unChoke => 1
  | .interested => 2
  | .notInterested => 3
  | .have => 4
  | .bitfield => 5
  | .request => 6
  | .piece => 7
  | .cancel => 8
  | .port => 9
  | .suggest => 13
  | .haveAll => 14
  | .haveNone => 15
  | .rejectRequest => 16
  | .allowedFast => 17
  | .extensionProtocol => 20
  | .hashRequest => 21
  | .hashes => 22
  | .hashReject => 23

/-- `MsgType::try_from`. -/
def MsgType.tryFrom (value : UInt8) : Option MsgType :=
  match value.toNat with
  | 0 => some .choke
  | 1 => some .unChoke
  | 2 => some .interested
  | 3 => some .notInterested
  | 4 => some .have
  | 5 => some .bitfield
  | 6 => some .request
  | 7 => some .piece
  | 8 => some .cancel
  | 9 => some .port
  | 13 => some .suggest
  | 14 => some .haveAll
  | 15 => some .haveNone
  | 16 => some .rejectRequest
  | 17 => some .allowedFast
  | 20 => some .extensionProtocol
  | 21 => some .hashRequest
  | 22 => some .hashes
  | 23 => some .hashReject
  | _ => none

@[simp] theorem MsgType.tryFrom_toU8 (ty : MsgType) : MsgType.tryFrom ty.toU8 = some ty := by
  cases ty <;> rfl

/-! ## What a peer sends -/

/-- The decimal digits of a number. -/
def decimal (n : ℕ) : Bytes := (Nat.toDigits 10 n).map Bendy.ascii

/-- `emit_int`. -/
def emitInt (n : ℕ) : Bytes := Bendy.ascii 'i' :: (decimal n ++ [Bendy.ascii 'e'])

/-- `emit_bytes`. -/
def emitBytes (s : Bytes) : Bytes := decimal s.length ++ Bendy.ascii ':' :: s

/-- `emit_dict`, given the pairs in the order of their keys. -/
def emitDict (pairs : List (Bytes × Bytes)) : Bytes :=
  Bendy.ascii 'd' :: (pairs.flatMap (fun p => emitBytes p.1 ++ p.2) ++ [Bendy.ascii 'e'])

/-- `Metadata::request(piece).to_bencode()`. -/
def metadataRequest (piece : UInt32) : Bytes :=
  emitDict [(key "msg_type", emitInt 0), (key "piece", emitInt piece.toNat)]

/-- `ExtendedId`. -/
inductive ExtendedId where
  | handshake
  | utPex
  | utMetadata
  | uploadOnly
  | utHolepunch
  | utComment
  deriving DecidableEq

/-- `ExtendedId::get_value`. -/
def ExtendedId.getValue : ExtendedId → UInt8
  | .handshake => 0
  | .utPex => 1
  | .utMetadata => 2
  | .uploadOnly => 3
  | .utHolepunch => 4
  | .utComment => 6

/-- `ExtendedId::get_name`. -/
def ExtendedId.getName : ExtendedId → String
  | .handshake => "handshake"
  | .utPex => "ut_pex"
  | .utMetadata => "ut_metadata"
  | .uploadOnly => "upload_only"
  | .utHolepunch => "ut_holepunch"
  | .utComment => "ut_comment"

/-- The bencoding of `HandshakeData { m: {"ut_metadata": 2}, .. }`, the only handshake
this client sends. -/
def handshakeData : Bytes :=
  emitDict [(key "m",
    emitDict [(key ExtendedId.utMetadata.getName, emitInt ExtendedId.utMetadata.getValue.toNat)])]

/-- A message of type `ty`: `length:u32 | type:u8 | payload`. -/
def frame (ty : MsgType) (payload : Bytes) : Bytes :=
  toBeBytes 4 (1 + payload.length) ++ ty.toU8 :: payload

/-- `Peer::request_bitfield`. -/
def requestBitfield (bitfield : Bytes) : Bytes :=
  toBeBytes 4 (1 + bitfield.length) ++ [MsgType.bitfield.toU8] ++ bitfield

/-- `Peer::request_interested`. -/
def requestInterested : Bytes := toBeBytes 4 1 ++ [MsgType.interested.toU8]

/-- `Peer::request_un_choke`. -/
def requestUnChoke : Bytes := toBeBytes 4 1 ++ [MsgType.unChoke.toU8]

/-- `Peer::request_choke`. -/
def requestChoke : Bytes := toBeBytes 4 1 ++ [MsgType.choke.toU8]

/-- `Peer::request_piece`. -/
def requestPiece (pieceIdx blockOffset blockSize : UInt32) : Bytes :=
  toBeBytes 4 13 ++ [MsgType.request.toU8] ++ toBeBytes 4 pieceIdx.toNat ++
    toBeBytes 4 blockOffset.toNat ++ toBeBytes 4 blockSize.toNat

/-- `Peer::request_extend_handsake`, to a peer with the extension protocol. -/
def requestExtendHandsake : Bytes :=
  toBeBytes 4 (2 + handshakeData.length) ++ [MsgType.extensionProtocol.toU8] ++
    [ExtendedId.handshake.getValue] ++ handshakeData

/-- `Peer::request_metadata_piece`, to a peer whose id for `ut_metadata` is `msgType`. -/
def requestMetadataPiece (msgType : UInt8) (piece : UInt32) : Bytes :=
  toBeBytes 4 (2 + (metadataRequest piece).length) ++ [MsgType.extensionProtocol.toU8] ++
    [msgType] ++ metadataRequest piece

/-- What a peer sends: a message of any type, or one of the requests of `Peer`. -/
inductive Outgoing where
  | raw (ty : MsgType) (payload : Bytes)
  | bitfield (bitfield : Bytes)
  | interested
  | unChoke
  | choke
  | piece (pieceIdx blockOffset blockSize : UInt32)
  | extendHandsake
  | metadataPiece (msgType : UInt8) (piece : UInt32)

/-- The bytes on the wire. -/
def Outgoing.bytes : Outgoing → Bytes
  | .raw ty payload => frame ty payload
  | .bitfield b => requestBitfield b
  | .interested => requestInterested
  | .unChoke => requestUnChoke
  | .choke => requestChoke
  | .piece i o n => requestPiece i o n
  | .extendHandsake => requestExtendHandsake
  | .metadataPiece ty i => requestMetadataPiece ty i

/-- The type and the payload the receiver should see. -/
def Outgoing.message : Outgoing → MsgType × Bytes
  | .raw ty payload => (ty, payload)
  | .bitfield b => (.bitfield, b)
  | .interested => (.interested, [])
  | .unChoke => (.unChoke, [])
  | .choke => (.choke, [])
  | .piece i o n => (.request, toBeBytes 4 i.toNat ++ toBeBytes 4 o.toNat ++ toBeBytes 4 n.toNat)
  | .extendHandsake => (.extensionProtocol, ExtendedId.handshake.getValue :: handshakeData)
  | .metadataPiece ty i => (.extensionProtocol, ty :: metadataRequest i)

/-- The payload fits a `u32` length field, which counts the type as well.  Only the
messages whose length is up to the sender are restricted. -/
def Outgoing.Fits : Outgoing → Prop
  | .raw _ payload => payload.length ≤ 2 ^ 32 - 2
  | .bitfield b => b.length ≤ 2 ^ 32 - 2
  | _ => True

/-- Every request of `Peer` is a message of its type. -/
theorem Outgoing.bytes_eq_frame (m : Outgoing) : m.bytes = frame m.message.1 m.message.2 := by
  cases m with
  | raw ty payload => rfl
  | bitfield b => simp [bytes, message, frame, requestBitfield]
  | interested => rfl
  | unChoke => rfl
  | choke => rfl
  | piece i o n => simp [bytes, message, frame, requestPiece]
  | extendHandsake =>
      simp only [bytes, message, frame, requestExtendHandsake, List.length_cons,
        List.append_assoc, List.singleton_append]
      rw [show 2 + handshakeData.length = 1 + (handshakeData.length + 1) by omega]
      rfl
  | metadataPiece ty i =>
      simp only [bytes, message, frame, requestMetadataPiece, List.length_cons,
        List.append_assoc, List.singleton_append]
      rw [show 2 + (metadataRequest i).length = 1 + ((metadataRequest i).length + 1) by omega]
      rfl

/-- The request for a metadata piece is short. -/
theorem length_metadataRequest_le (piece : UInt32) : (metadataRequest piece).length ≤ 64 := by
  have hdigits : (decimal piece.toNat).length ≤ 10 := by
    rw [decimal, List.length_map]
    apply Nat.toDigits_length 10 piece.toNat 10 (by decide)
    exact lt_trans (UInt32.toNat_lt piece) (by decide)
  have hzero : (decimal 0).length = 1 := by decide +kernel
  have hmsg : (emitBytes (key "msg_type")).length = 10 := by decide +kernel
  have hpiece : (emitBytes (key "piece")).length = 7 := by decide +kernel
  simp only [metadataRequest, emitDict, emitInt, List.flatMap_cons, List.flatMap_nil,
    List.length_cons, List.length_append, List.length_nil, hzero, hmsg, hpiece]
  omega

/-- Every payload fits. -/
theorem Outgoing.Fits.length_le {m : Outgoing} (h : m.Fits) :
    m.message.2.length ≤ 2 ^ 32 - 2 := by
  cases m with
  | raw ty payload => exact h
  | bitfield b => exact h
  | interested => simp [message]
  | unChoke => simp [message]
  | choke => simp [message]
  | piece i o n => simp [message]
  | extendHandsake => decide +kernel
  | metadataPiece ty i =>
      have := length_metadataRequest_le i
      simp only [message, List.length_cons]
      omega

/-! ## The socket (`bt/socket.rs`) -/

/-- `Crypto`. -/
inductive Crypto where
  | plaintext
  | rc4 (cipher : Cipher)

/-- `OwnedWriteHalfExt::write_all`: the bytes put on the wire, and the cipher after. -/
def Crypto.writeAll : Crypto → Bytes → Bytes × Crypto
  | .plaintext, buf => (buf, .plaintext)
  | .rc4 c, buf => ((c.applyKeystream buf).1, .rc4 (c.applyKeystream buf).2)

/-- `WriteFuture::run`: the buffers are written one after the other. -/
def Crypto.writeEach : Crypto → List Bytes → Bytes
  | _, [] => []
  | c, buf :: bufs => (c.writeAll buf).1 ++ (c.writeAll buf).2.writeEach bufs

/-- `OwnedReadHalfExt`. -/
structure OwnedReadHalfExt where
  inner : Source IoErrorKind
  crypto : Crypto

/-- `OwnedReadHalfExt::poll_read`: the bytes just read are decrypted. -/
def OwnedReadHalfExt.pollRead (n : ℕ) (io : OwnedReadHalfExt) :
    Poll (Except IoErrorKind Bytes) × OwnedReadHalfExt :=
  match io.crypto with
  | .plaintext =>
      ((Source.pollRead n io.inner).1, ⟨(Source.pollRead n io.inner).2, .plaintext⟩)
  | .rc4 c =>
      ((StreamCipher.pollRead n (c, io.inner)).1,
        ⟨(StreamCipher.pollRead n (c, io.inner)).2.2, .rc4 (StreamCipher.pollRead n (c, io.inner)).2.1⟩)

/-- The decrypted source. -/
def OwnedReadHalfExt.plain (io : OwnedReadHalfExt) : Source IoErrorKind :=
  match io.crypto with
  | .plaintext => io.inner
  | .rc4 c => decipher c.keystream c.pos io.inner

theorem OwnedReadHalfExt.reads_plain : Reads pollRead OwnedReadHalfExt.plain := by
  rintro n ⟨t, crypto⟩
  cases crypto with
  | plaintext => rfl
  | rc4 c => exact reads_decipher n (c, t)

/-- Writing buffers one after the other is writing them at once. -/
theorem Crypto.writeEach_rc4 (c : Cipher) (bufs : List Bytes) :
    (Crypto.rc4 c).writeEach bufs = xorFrom c.keystream c.pos bufs.flatten := by
  induction bufs generalizing c with
  | nil => rfl
  | cons buf bufs ih =>
      rw [writeEach, List.flatten_cons, xorFrom_append]
      simp only [writeAll, Cipher.applyKeystream, ih, Cipher.advance]

theorem Crypto.writeEach_plaintext (bufs : List Bytes) :
    Crypto.plaintext.writeEach bufs = bufs.flatten := by
  induction bufs with
  | nil => rfl
  | cons buf bufs ih => rw [writeEach, List.flatten_cons, writeAll, ih]

/-- **Synchronised ciphers.**  The reader sees the buffers as they were written. -/
theorem delivered_plain {c : Crypto} {t : Source IoErrorKind} {bufs : List Bytes}
    (h : delivered t = c.writeEach bufs) :
    delivered (OwnedReadHalfExt.plain ⟨t, c⟩) = bufs.flatten := by
  cases c with
  | plaintext => exact h.trans (Crypto.writeEach_plaintext bufs)
  | rc4 cipher =>
      rw [OwnedReadHalfExt.plain, delivered_decipher, h, Crypto.writeEach_rc4, xorFrom_xorFrom]

/-! ## The parser (`PeerResp`) -/

/-- `RespType`. -/
inductive RespType where
  | normal (msgType : MsgType) (buf : Bytes)
  | heartbeat
  deriving DecidableEq

/-- The states of `PeerResp`; the type is known once the head was read. -/
inductive PeerRespState where
  | head
  | content (msgType : MsgType)
  | finished
  deriving DecidableEq

/-- `PeerResp::poll` on a full buffer. -/
def peerRespNext : PeerRespState → Bytes → Reply PeerRespState (FutureRet RespType)
  | .head, buf =>
      if h : buf.length < 5 then .done (.ok .heartbeat) .head
      else
        let length := fromBeSlice 4 (buf.take 4)
        match MsgType.tryFrom (buf.get ⟨4, by omega⟩) with
        | some msgType =>
            if 1 < length then .more (length - 1) (.content msgType)
            else .done (.ok (.normal msgType [])) .head
        | none => .done (.error .invalidData) .head
  | .content msgType, buf => .done (.ok (.normal msgType buf)) .finished
  | .finished, _ => .done (.error .permissionDenied) .finished

/-- A request for more bytes comes from a head. -/
theorem peerRespNext_more {s s' : PeerRespState} {buf : Bytes} {n : ℕ}
    (h : peerRespNext s buf = .more n s') : s = .head ∧ ∃ ty, s' = .content ty := by
  cases s with
  | head =>
      simp only [peerRespNext] at h
      split at h
      · cases h
      · split at h
        · split at h
          · simp only [Reply.more.injEq] at h
            exact ⟨rfl, _, h.2.symm⟩
          · cases h
        · cases h
  | content ty => cases h
  | finished => cases h

/-- `PeerResp`. -/
def peerResp : Machine PeerRespState (FutureRet RespType) where
  next := peerRespNext
  rank := fun
    | .head => 2
    | .content _ => 1
    | .finished => 0
  rank_lt := by
    intro s buf n s' h
    obtain ⟨rfl, ty, rfl⟩ := peerRespNext_more h
    exact Nat.lt_succ_self 1

theorem peerResp_next (s : PeerRespState) (buf : Bytes) :
    peerResp.next s buf = peerRespNext s buf := rfl

/-- `PeerResp::new`. -/
def PeerResp.new : Fut PeerRespState := ⟨.new 5, .head⟩

/-- `PeerResp::poll`. -/
def PeerResp.poll (f : Fut PeerRespState) (io : OwnedReadHalfExt) :
    Poll (FutureRet RespType) × Fut PeerRespState × OwnedReadHalfExt :=
  match peerResp.pollVia OwnedReadHalfExt.pollRead .connectionAborted f io with
  | (.pending, f', io') => (.pending, f', io')
  | (.ready r, f', io') => (.ready (r.bind id), f', io')

/-- **The parser reads a frame back**, and nothing after it. -/
theorem peerResp_parse_frame (ty : MsgType) {payload : Bytes} (h : payload.length ≤ 2 ^ 32 - 2)
    (rest : Bytes) :
    peerResp.parse 5 .head (frame ty payload ++ rest) = some (.ok (.normal ty payload), rest) := by
  have hlen : fromBeSlice 4 (toBeBytes 4 (1 + payload.length)) = 1 + payload.length :=
    fromBeSlice_toBeBytes 4 _ (by omega)
  have hsplit : frame ty payload ++ rest =
      (toBeBytes 4 (1 + payload.length) ++ [ty.toU8]) ++ (payload ++ rest) := by
    simp [frame]
  have hhead : (toBeBytes 4 (1 + payload.length) ++ [ty.toU8]).length = 5 := by simp
  have htake : (frame ty payload ++ rest).take 5 =
      toBeBytes 4 (1 + payload.length) ++ [ty.toU8] := by
    rw [hsplit, List.take_left' hhead]
  have hdrop : (frame ty payload ++ rest).drop 5 = payload ++ rest := by
    rw [hsplit, List.drop_left' hhead]
  have hnext : peerResp.next .head ((frame ty payload ++ rest).take 5) =
      if 1 < 1 + payload.length then .more payload.length (.content ty)
      else .done (.ok (.normal ty [])) .head := by
    have hget : ∀ h4, (toBeBytes 4 (1 + payload.length) ++ [ty.toU8]).get ⟨4, h4⟩ = ty.toU8 := by
      intro h4
      simp [List.get_eq_getElem]
    have hfour : (toBeBytes 4 (1 + payload.length) ++ [ty.toU8]).take 4 =
        toBeBytes 4 (1 + payload.length) := List.take_left' (by simp)
    rw [htake]
    simp only [peerResp, peerRespNext, hhead, lt_irrefl, dite_false, hget, hfour, hlen,
      MsgType.tryFrom_toU8, Nat.add_sub_cancel_left]
  have hle : 5 ≤ (frame ty payload ++ rest).length := by
    rw [hsplit, List.length_append, hhead]
    omega
  by_cases hnil : payload = []
  · subst hnil
    rw [peerResp.parse_of_done hle (by rw [hnext]; rfl), hdrop, List.nil_append]
  · have hpos : 0 < payload.length := List.length_pos_of_ne_nil hnil
    rw [if_pos (by omega)] at hnext
    rw [peerResp.parse_of_more hle hnext, hdrop,
      peerResp.parse_of_done (by simp) (show _ = _ from rfl)]
    simp

/-- **No heartbeat.**  The parser never reports one: it waits for five bytes. -/
theorem peerResp_parse_ne_heartbeat (bs rest : Bytes) :
    peerResp.parse 5 .head bs ≠ some (.ok .heartbeat, rest) := by
  intro h
  obtain ⟨hle, ⟨s', hdone, -⟩ | ⟨n', s', hmore, hparse⟩⟩ := peerResp.parse_eq_some_iff.mp h
  · have hlen : ¬ (bs.take 5).length < 5 := by
      rw [List.length_take]
      omega
    simp only [peerResp, peerRespNext, dif_neg hlen] at hdone
    split at hdone
    · split at hdone <;> simp at hdone
    · simp at hdone
  · rw [peerResp_next] at hmore
    obtain ⟨-, ty, rfl⟩ := peerRespNext_more hmore
    rw [peerResp.parse_iff_of_done fun _ => rfl] at hparse
    obtain ⟨buf, -, -, heq⟩ := hparse
    cases heq

/-! ## The receiving task (`ReadFuture::run`) -/

/-- `PeerExitReason`, as far as the receiving task tells exits apart. -/
inductive PeerExitReason where
  | clientExit
  | exception
  deriving DecidableEq

/-- What the receiving task sends to the peer (`peer_sender`). -/
inductive Transfer where
  | peerTransfer (msgType : MsgType) (buf : Bytes) (readSize : ℕ)
  | heartbeat
  | exit (reason : PeerExitReason)
  deriving DecidableEq

/-- `ReadFuture` while it runs: the future being polled, the transfers sent so far,
what was acknowledged to the rate control, and whether the loop was left. -/
structure ReadFuture where
  reader : OwnedReadHalfExt
  btResp : Fut PeerRespState
  sent : List Transfer
  acked : List ℕ
  exited : Bool

/-- `ReadFuture::run` before its first poll. -/
def ReadFuture.new (reader : OwnedReadHalfExt) : ReadFuture := ⟨reader, PeerResp.new, [], [], false⟩

/-- `PeerTransfer` for a message. -/
def transferOf (m : MsgType × Bytes) : Transfer := .peerTransfer m.1 m.2 (5 + m.2.length)

/-- One turn of `ReadFuture::run`: poll the current future; when it is ready, pass its
result on and start a new one. -/
def ReadFuture.poll (f : ReadFuture) : ReadFuture :=
  if f.exited then f
  else
    match PeerResp.poll f.btResp f.reader with
    | (.pending, btResp, reader) => { f with reader := reader, btResp := btResp }
    | (.ready (.ok (.normal msgType buf)), _, reader) =>
        { f with
          reader := reader
          btResp := PeerResp.new
          sent := f.sent ++ [transferOf (msgType, buf)]
          acked := if msgType = .piece then f.acked ++ [(5 + buf.length) % 2 ^ 32] else f.acked }
    | (.ready (.ok .heartbeat), _, reader) =>
        { f with reader := reader, btResp := PeerResp.new, sent := f.sent ++ [.heartbeat] }
    | (.ready (.error e), btResp, reader) =>
        { f with
          reader := reader
          btResp := btResp
          sent := f.sent ++ [.exit (if e.isDisconnect then .clientExit else .exception)]
          exited := true }

/-- What the current future will return, in terms of the decrypted bytes. -/
def ReadFuture.view (f : ReadFuture) : Option (FutureRet RespType × Bytes) :=
  peerResp.view f.btResp f.reader.plain

/-- Polling the future is polling the parser over the decrypted source. -/
theorem PeerResp.poll_eq {f : Fut PeerRespState} (h : f.reader.Open) (io : OwnedReadHalfExt) :
    (PeerResp.poll f io).1 = (pinPoll peerResp f io.plain).1 ∧
      (PeerResp.poll f io).2.1 = (pinPoll peerResp f io.plain).2.1 ∧
      (PeerResp.poll f io).2.2.plain = (pinPoll peerResp f io.plain).2.2 := by
  have hpoll := OwnedReadHalfExt.reads_plain.pollVia_eq peerResp .connectionAborted f io h
  unfold PeerResp.poll pinPoll
  rw [hpoll]
  rcases peerResp.pollVia OwnedReadHalfExt.pollRead .connectionAborted f io with ⟨_ | r, f', io'⟩
  · exact ⟨rfl, rfl, rfl⟩
  · exact ⟨rfl, rfl, rfl⟩

/-- The result of a poll over the decrypted source is the result of the poll. -/
theorem PeerResp.poll_of_pinPoll {f f' : Fut PeerRespState} {io : OwnedReadHalfExt}
    {p : Poll (FutureRet RespType)} {t' : Source IoErrorKind} (hopen : f.reader.Open)
    (h : pinPoll peerResp f io.plain = (p, f', t')) :
    ∃ io', PeerResp.poll f io = (p, f', io') ∧ io'.plain = t' := by
  obtain ⟨h1, h2, h3⟩ := PeerResp.poll_eq hopen io
  rw [h] at h1 h2 h3
  exact ⟨(PeerResp.poll f io).2.2, Prod.ext h1 (Prod.ext h2 rfl), h3⟩

/-- Pending polls in a row only move the future and the reader. -/
theorem ReadFuture.iterate_poll_of_polls {n : ℕ} {f f' : Fut PeerRespState}
    {t t' : Source IoErrorKind} (h : peerResp.Polls .connectionAborted n f t f' t') :
    ∀ g : ReadFuture, g.exited = false → g.btResp = f → g.reader.plain = t → f.reader.Open →
      ∃ io, ReadFuture.poll^[n] g = { g with reader := io, btResp := f' } ∧ io.plain = t' ∧
        f'.reader.Open := by
  induction h with
  | refl f t =>
      intro g _ hf ht hopen
      refine ⟨g.reader, ?_, ht, hopen⟩
      rw [Function.iterate_zero_apply, ← hf]
  | @step n f f₁ f' t t₁ t' hpoll _ ih =>
      intro g hrun hf ht hopen
      subst hf ht
      obtain ⟨io, hp, hio⟩ :=
        PeerResp.poll_of_pinPoll hopen (by rw [pinPoll, hpoll])
      have hstep : g.poll = { g with reader := io, btResp := f₁ } := by
        rw [ReadFuture.poll, hrun, if_neg Bool.false_ne_true, hp]
      obtain ⟨io', hiter, hio', hopen'⟩ := ih { g with reader := io, btResp := f₁ } hrun rfl hio
        (peerResp.poll_pending hopen hpoll).1
      exact ⟨io', by rw [Function.iterate_succ_apply, hstep, hiter], hio', hopen'⟩

/-- `f.Fresh bs`: the task runs, a new future was just started, and the decrypted
bytes it has not read yet are `bs`. -/
structure ReadFuture.Fresh (f : ReadFuture) (bs : Bytes) : Prop where
  running : f.exited = false
  btResp : f.btResp = PeerResp.new
  unread : delivered f.reader.plain = bs

theorem ReadFuture.Fresh.view {f : ReadFuture} {bs : Bytes} (h : f.Fresh bs) :
    f.view = peerResp.parse 5 .head bs := by
  rw [ReadFuture.view, h.btResp, PeerResp.new, peerResp.view_new, h.unread]

@[simp] theorem ReadFuture.new_sent (reader : OwnedReadHalfExt) :
    (ReadFuture.new reader).sent = [] := rfl

/-- A task that starts on a socket with a synchronised cipher has all buffers before it. -/
theorem ReadFuture.fresh_new {c : Crypto} {t : Source IoErrorKind} {bufs : List Bytes}
    (h : delivered t = c.writeEach bufs) : (ReadFuture.new ⟨t, c⟩).Fresh bufs.flatten :=
  ⟨rfl, rfl, delivered_plain h⟩

/-- **One message.**  A message at the front of the unread bytes is passed on after
finitely many polls, and only its bytes are consumed. -/
theorem ReadFuture.Fresh.exists_poll {f : ReadFuture} {bs rest : Bytes} (h : f.Fresh bs)
    {ty : MsgType} {buf : Bytes}
    (hparse : peerResp.parse 5 .head bs = some (.ok (.normal ty buf), rest)) :
    ∃ n, (ReadFuture.poll^[n] f).sent = f.sent ++ [transferOf (ty, buf)] ∧
      (ReadFuture.poll^[n] f).Fresh rest := by
  have hopen : f.btResp.reader.Open := by
    rw [h.btResp]
    exact ExactReader.open_new 5
  obtain ⟨n, f₁, t₁, f', t', hpolls, hpoll, hrest⟩ :=
    peerResp.exists_polls_of_view .connectionAborted _ f.btResp f.reader.plain le_rfl hopen
      (h.view.trans hparse)
  obtain ⟨io, hiter, hio, hopen₁⟩ := iterate_poll_of_polls hpolls f h.running rfl rfl hopen
  subst hio
  have hpin : pinPoll peerResp f₁ io.plain = (.ready (.ok (.normal ty buf)), f', t') := by
    rw [pinPoll, hpoll]
    rfl
  obtain ⟨io', hp, hio'⟩ := PeerResp.poll_of_pinPoll hopen₁ hpin
  refine ⟨n + 1, ?_⟩
  rw [Function.iterate_succ_apply', hiter, ReadFuture.poll]
  simp only [h.running, Bool.false_eq_true, if_false, hp]
  exact ⟨trivial, ⟨rfl, rfl, by rw [hio', hrest]⟩⟩

/-- A list of messages at the front of the unread bytes is passed on in order. -/
theorem ReadFuture.Fresh.exists_polls {later : Bytes} (msgs : List Outgoing)
    (hfits : ∀ m ∈ msgs, m.Fits) :
    ∀ f : ReadFuture, f.Fresh ((msgs.map Outgoing.bytes).flatten ++ later) →
      ∃ n, (ReadFuture.poll^[n] f).sent =
          f.sent ++ msgs.map (fun m => transferOf m.message) ∧
        (ReadFuture.poll^[n] f).Fresh later := by
  induction msgs with
  | nil =>
      intro f h
      exact ⟨0, by simp, h⟩
  | cons m msgs ih =>
      intro f h
      rw [List.map_cons, List.flatten_cons, m.bytes_eq_frame, List.append_assoc] at h
      have hm : m.Fits := hfits m List.mem_cons_self
      obtain ⟨n, hsent, hfresh⟩ := h.exists_poll (peerResp_parse_frame _ hm.length_le _)
      obtain ⟨k, hsent', hfresh'⟩ := ih (fun m' h' => hfits m' (List.mem_cons_of_mem _ h')) _ hfresh
      refine ⟨k + n, ?_, ?_⟩
      · rw [Function.iterate_add_apply, hsent', hsent]
        simp
      · rwa [Function.iterate_add_apply]

/-- Transfers are only added. -/
theorem ReadFuture.sent_prefix_poll (f : ReadFuture) : f.sent <+: f.poll.sent := by
  unfold ReadFuture.poll
  split
  · exact List.prefix_rfl
  · split
    · exact List.prefix_rfl
    · exact List.prefix_append _ _
    · exact List.prefix_append _ _
    · exact List.prefix_append _ _

theorem ReadFuture.sent_prefix_iterate (f : ReadFuture) {k n : ℕ} (h : k ≤ n) :
    (ReadFuture.poll^[k] f).sent <+: (ReadFuture.poll^[n] f).sent := by
  induction n, h using Nat.le_induction with
  | base => exact List.prefix_rfl
  | succ n _ ih =>
      rw [Function.iterate_succ_apply']
      exact ih.trans (ReadFuture.sent_prefix_poll _)

/-- **Round trip.**  Messages are sent through a socket with cipher state `c`, followed
by any bytes `later`, and received by a socket with the same cipher state.  However the
transport cuts the bytes into reads and delays them, the receiving task passes on
exactly these messages, in this order, before it reads a byte of `later`. -/
theorem readFuture_yields (c : Crypto) (msgs : List Outgoing) (hfits : ∀ m ∈ msgs, m.Fits)
    (later : Bytes) (t : Source IoErrorKind)
    (ht : delivered t = c.writeEach (msgs.map Outgoing.bytes ++ [later])) :
    ∃ n, (ReadFuture.poll^[n] (.new ⟨t, c⟩)).sent = msgs.map (fun m => transferOf m.message) ∧
      (ReadFuture.poll^[n] (.new ⟨t, c⟩)).Fresh later ∧
      ∀ k ≤ n, (ReadFuture.poll^[k] (.new ⟨t, c⟩)).sent <+:
        msgs.map (fun m => transferOf m.message) := by
  have hfresh : (ReadFuture.new ⟨t, c⟩).Fresh ((msgs.map Outgoing.bytes).flatten ++ later) := by
    simpa using ReadFuture.fresh_new ht
  obtain ⟨n, hsent, hrest⟩ := hfresh.exists_polls msgs hfits
  rw [ReadFuture.new_sent, List.nil_append] at hsent
  refine ⟨n, hsent, hrest, fun k hk => ?_⟩
  rw [← hsent]
  exact ReadFuture.sent_prefix_iterate _ hk

/-- Two messages and a byte of the next one under RC4, cut in the middle of the first
length field and of the second head. -/
def twoMessages : OwnedReadHalfExt where
  inner := [.data [7, 14], .pending, .data [21, 29, 33, 42, 49, 56], .pending, .pending,
    .data [59, 65, 76, 86, 88, 98]]
  crypto := .rc4 ⟨fun i => UInt8.ofNat (7 * i), 1⟩

theorem readFuture_yields_twoMessages :
    ∃ n, (ReadFuture.poll^[n] (.new twoMessages)).sent =
        [.peerTransfer .interested [] 5, .peerTransfer .piece [1, 2, 3] 8] ∧
      (ReadFuture.poll^[n] (.new twoMessages)).Fresh [0] := by
  obtain ⟨n, hsent, hfresh, -⟩ := readFuture_yields twoMessages.crypto
    [.interested, .raw .piece [1, 2, 3]] (by simp [Outgoing.Fits]) [0] twoMessages.inner
    (by decide +kernel)
  exact ⟨n, hsent, hfresh⟩

/-! ## Keep-alives -/

/-- A frame of the peer protocol: a keep-alive, or a message. -/
inductive Frame where
  | keepAlive
  | message (m : Outgoing)

/-- The bytes of a frame; a keep-alive is a length of zero. -/
def Frame.bytes : Frame → Bytes
  | .keepAlive => [0, 0, 0, 0]
  | .message m => m.bytes

/-- Whether a frame is a keep-alive. -/
def Frame.isKeepAlive : Frame → Bool
  | .keepAlive => true
  | .message _ => false

/-- The message of a frame. -/
def Frame.message? : Frame → Option Outgoing
  | .keepAlive => none
  | .message m => some m

/-- Whether a transfer is a message (`Normal`). -/
def Transfer.isNormal : Transfer → Bool
  | .peerTransfer _ _ _ => true
  | _ => false

/-- `Transparent frames`: whatever the ciphers and the fragmentation, the receiving task
passes on the messages among the frames as if there were no keep-alives, and one
heartbeat for each keep-alive. -/
def Transparent (frames : List Frame) : Prop :=
  ∀ (c : Crypto) (t : Source IoErrorKind), delivered t = c.writeEach (frames.map Frame.bytes) →
    ∃ n, (ReadFuture.poll^[n] (.new ⟨t, c⟩)).sent.filter Transfer.isNormal =
        (frames.filterMap Frame.message?).map (fun m => transferOf m.message) ∧
      (ReadFuture.poll^[n] (.new ⟨t, c⟩)).sent.count .heartbeat =
        frames.countP Frame.isKeepAlive

/-- No heartbeat was sent, and the current future will not report one. -/
structure ReadFuture.Heartless (f : ReadFuture) : Prop where
  sent : Transfer.heartbeat ∉ f.sent
  running : f.exited = false →
    f.btResp.reader.Open ∧ ∀ rest, f.view ≠ some (.ok .heartbeat, rest)

/-- A new future will not report a heartbeat. -/
theorem ReadFuture.heartless_new {f : ReadFuture} (hsent : Transfer.heartbeat ∉ f.sent)
    (hnew : f.btResp = PeerResp.new) : f.Heartless := by
  refine ⟨hsent, fun _ => ⟨?_, fun rest => ?_⟩⟩
  · rw [hnew]
    exact ExactReader.open_new 5
  · rw [ReadFuture.view, hnew, PeerResp.new, peerResp.view_new]
    exact peerResp_parse_ne_heartbeat _ _

theorem ReadFuture.Heartless.poll {f : ReadFuture} (h : f.Heartless) : f.poll.Heartless := by
  unfold ReadFuture.poll
  split
  · exact h
  · next hrun =>
      obtain ⟨hopen, hview⟩ := h.running (by simpa using hrun)
      obtain ⟨p, f', t', hpin⟩ : ∃ p f' t', pinPoll peerResp f.btResp f.reader.plain = (p, f', t') :=
        ⟨_, _, _, rfl⟩
      obtain ⟨io, hp, hio⟩ := PeerResp.poll_of_pinPoll hopen hpin
      rw [hp]
      rcases p with _ | (e | (⟨ty, buf⟩ | _))
      · obtain ⟨hopen', hview'⟩ := pinPoll_pending hopen hpin
        refine ⟨h.sent, fun _ => ⟨hopen', fun rest => ?_⟩⟩
        rw [ReadFuture.view, hio, hview']
        exact hview rest
      · refine ⟨?_, fun hrun' => by simp at hrun'⟩
        simpa using h.sent
      · refine ReadFuture.heartless_new ?_ rfl
        simpa [transferOf] using h.sent
      · exact absurd (pinPoll_ok hopen hpin) (hview _)

/-- **No heartbeat is ever sent**, whatever arrives. -/
theorem ReadFuture.heartbeat_not_mem_sent (io : OwnedReadHalfExt) (n : ℕ) :
    Transfer.heartbeat ∉ (ReadFuture.poll^[n] (.new io)).sent := by
  have hinv : (ReadFuture.poll^[n] (.new io)).Heartless := by
    induction n with
    | zero => exact ReadFuture.heartless_new (by simp [ReadFuture.new]) rfl
    | succ n ih =>
        rw [Function.iterate_succ_apply']
        exact ih.poll
  exact hinv.sent

/-- Messages alone are frames without keep-alives. -/
theorem exists_messages_of_keepAlive_not_mem {frames : List Frame} (h : Frame.keepAlive ∉ frames) :
    ∃ msgs : List Outgoing, frames = msgs.map Frame.message := by
  induction frames with
  | nil => exact ⟨[], rfl⟩
  | cons f frames ih =>
      obtain ⟨hf, hrest⟩ : f ≠ .keepAlive ∧ Frame.keepAlive ∉ frames := by
        simpa [eq_comm] using h
      obtain ⟨msgs, rfl⟩ := ih hrest
      cases f with
      | keepAlive => exact absurd rfl hf
      | message m => exact ⟨m :: msgs, rfl⟩

/-- **Keep-alives.**  Frames are reported as they were sent if and only if there is no
keep-alive among them: the parser takes the byte after the four zero bytes for a
message type, so that a keep-alive is never reported and the next message is cut. -/
theorem transparent_iff (frames : List Frame)
    (hfits : ∀ m, Frame.message m ∈ frames → m.Fits) :
    Transparent frames ↔ Frame.keepAlive ∉ frames := by
  constructor
  · intro h hmem
    obtain ⟨n, -, hcount⟩ := h .plaintext [.data (frames.map Frame.bytes).flatten] (by
      have hne : (frames.map Frame.bytes).flatten ≠ [] := by
        intro hnil
        have := List.flatten_eq_nil_iff.mp hnil _ (List.mem_map_of_mem hmem)
        simp [Frame.bytes] at this
      rw [delivered_data hne, Crypto.writeEach_plaintext, delivered_nil, List.append_nil])
    have hpos : 0 < frames.countP Frame.isKeepAlive := List.countP_pos_iff.mpr ⟨_, hmem, rfl⟩
    rw [← hcount, List.count_pos_iff] at hpos
    exact ReadFuture.heartbeat_not_mem_sent _ n hpos
  · intro h c t ht
    obtain ⟨msgs, rfl⟩ := exists_messages_of_keepAlive_not_mem h
    have hfits' : ∀ m ∈ msgs, m.Fits := fun m hm => hfits m (List.mem_map_of_mem hm)
    have hbytes : (msgs.map Frame.message).map Frame.bytes = msgs.map Outgoing.bytes := by
      rw [List.map_map]
      rfl
    rw [hbytes] at ht
    have hfresh : (ReadFuture.new ⟨t, c⟩).Fresh ((msgs.map Outgoing.bytes).flatten ++ []) := by
      simpa using ReadFuture.fresh_new ht
    obtain ⟨n, hsent, -⟩ := hfresh.exists_polls msgs hfits'
    rw [ReadFuture.new_sent, List.nil_append] at hsent
    refine ⟨n, ?_, ?_⟩
    · have hmsgs : (msgs.map Frame.message).filterMap Frame.message? = msgs := by
        rw [List.filterMap_map]
        exact List.filterMap_some
      rw [hsent, hmsgs, List.filter_eq_self]
      intro a ha
      obtain ⟨m, -, rfl⟩ := List.mem_map.mp ha
      rfl
    · have hzero : (msgs.map Frame.message).countP Frame.isKeepAlive = 0 := by
        rw [List.countP_eq_zero]
        intro a ha
        obtain ⟨m, -, rfl⟩ := List.mem_map.mp ha
        exact Bool.false_ne_true
      rw [hzero]
      exact List.count_eq_zero.mpr (ReadFuture.heartbeat_not_mem_sent _ n)

theorem transparent_iff_interested :
    Transparent [.message .interested, .message (.raw .piece [1, 2])] :=
  (transparent_iff _ (by simp [Outgoing.Fits])).mpr (by simp)

/-- A keep-alive before an `Interested`: the receiving task sees a `Choke` first, and
never a heartbeat. -/
theorem not_transparent_keepAlive :
    ¬ Transparent [.keepAlive, .message .interested] ∧
      (ReadFuture.poll^[1] (.new ⟨[.data [0, 0, 0, 0, 0, 0, 0, 1, 2]], .plaintext⟩)).sent =
        [.peerTransfer .choke [] 5] := by
  refine ⟨fun h => ?_, by decide +kernel⟩
  obtain ⟨n, -, hcount⟩ := h .plaintext [.data [0, 0, 0, 0, 0, 0, 0, 1, 2]] (by decide +kernel)
  have hzero := List.count_eq_zero.mpr (ReadFuture.heartbeat_not_mem_sent
    ⟨[.data [0, 0, 0, 0, 0, 0, 0, 1, 2]], .plaintext⟩ n)
  rw [hzero] at hcount
  exact absurd hcount (by decide)

end PeerWire
