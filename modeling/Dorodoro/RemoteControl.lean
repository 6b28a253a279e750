/-
# The remote-control wire protocol

The futures that read a control connection, as parsers over full buffers
(`FrameReader.Machine`), in the order the server runs them on one socket:

* `accept` (`core/tcp_server/future.rs`, `Accept`): protocol-name length, protocol
  name, protocol payload;
* `handshakeParse` (`core/protocol/remote_control.rs`, `HandshakeParse`): user name
  and password, each with a two-byte length;
* `requestParse` (`core/control/request_parse.rs`, `RequestParse`): a twelve-byte
  head and an optional body.

`authVerify` is the credential check of the same file, and `sendHandshakeSuccess`,
`sendHandshakeFailed`, `packResponse` are the byte strings the server writes.

The result of the module is `handshakeOf_eq_some_iff`: the two handshake futures
accept a byte stream exactly when it starts with the documented handshake request.
-/
import Dorodoro.Bytes
import Dorodoro.FrameReader

open FrameReader

/-! ## I/O errors and futures (`doro-util/src/net.rs`) -/

/-- The `io::ErrorKind`s the control connection distinguishes. -/
inductive IoErrorKind where
  | connectionAborted
  | connectionReset
  | permissionDenied
  | invalidData
  | other
  deriving DecidableEq

/-- `is_disconnect!`. -/
def IoErrorKind.isDisconnect (e : IoErrorKind) : Bool :=
  e == .connectionAborted || e == .connectionReset

/-- `FutureRet<T>`. -/
abbrev FutureRet (T : Type) := Except IoErrorKind T

/-- Poll a parser future whose own result is a `FutureRet`: a read error is
reported like an error of the parser (`pin_poll!`).  A read of zero bytes is
`ConnectionAborted`. -/
def pinPoll {S T : Type} (M : Machine S (FutureRet T)) (f : Fut S) (t : Source IoErrorKind) :
    Poll (FutureRet T) × Fut S × Source IoErrorKind :=
  match M.poll .connectionAborted f t with
  | (.pending, f', t') => (.pending, f', t')
  | (.ready r, f', t') => (.ready (r.bind id), f', t')

section PinPoll

variable {S T : Type} {M : Machine S (FutureRet T)} {f f' : Fut S} {t t' : Source IoErrorKind}

/-- A pending poll does not change what the future will return. -/
theorem pinPoll_pending (hopen : f.reader.Open) (h : pinPoll M f t = (.pending, f', t')) :
    f'.reader.Open ∧ M.view f' t' = M.view f t := by
  unfold pinPoll at h
  split at h
  · next f₁ t₁ hp =>
      simp only [Prod.mk.injEq, true_and] at h
      obtain ⟨rfl, rfl⟩ := h
      exact M.poll_pending hopen hp
  · simp at h

/-- A value is the value of the parser on the delivered bytes. -/
theorem pinPoll_ok {a : T} (hopen : f.reader.Open)
    (h : pinPoll M f t = (.ready (.ok a), f', t')) :
    M.view f t = some (.ok a, delivered t') := by
  unfold pinPoll at h
  split at h
  · simp at h
  · next r f₁ t₁ hp =>
      simp only [Prod.mk.injEq, Poll.ready.injEq] at h
      obtain ⟨hr, rfl, rfl⟩ := h
      cases r with
      | error e => cases hr
      | ok x =>
          have hx : x = .ok a := hr
          subst hx
          exact M.poll_ok hopen hp

end PinPoll

/-! ## Protocol identification (`Accept`) -/

/-- `Identifier`. -/
inductive Identifier where
  | bitTorrent
  | remoteControl
  deriving DecidableEq

/-- `Protocol`. -/
structure Protocol where
  id : Identifier
  payload : Bytes
  deriving DecidableEq

/-- `BIT_TORRENT_PROTOCOL`. -/
def bitTorrentProtocol : Bytes := "BitTorrent protocol".toUTF8.toList

/-- `REMOTE_CONTROL_PROTOCOL`. -/
def remoteControlProtocol : Bytes := "Remote control protocol".toUTF8.toList

/-- `PROTOCOL_SIZE`. -/
def protocolSize : ℕ := 1

/-- `BIT_TORRENT_PAYLOAD_LEN`. -/
def bitTorrentPayloadLen : ℕ := 48

/-- `REMOTE_CONTROL_PAYLOAD_LEN`. -/
def remoteControlPayloadLen : ℕ := 0

/-- `Accept::parse_protocol`: the protocol and the length of its payload. -/
def parseProtocol (protocol : Bytes) : Option (Identifier × ℕ) :=
  if protocol = bitTorrentProtocol then some (.bitTorrent, bitTorrentPayloadLen)
  else if protocol = remoteControlProtocol then some (.remoteControl, remoteControlPayloadLen)
  else none

/-- The states of `Accept`; the payload is only awaited once the protocol is known. -/
inductive AcceptState where
  | protocolLen
  | protocol
  | parseProtocol (id : Identifier)
  | finished
  deriving DecidableEq

/-- `Accept::poll` on a full buffer. -/
def acceptNext : AcceptState → Bytes → Reply AcceptState (FutureRet Protocol)
  | .protocolLen, buf => .more (buf.headD 0).toNat .protocol
  | .protocol, buf =>
      match parseProtocol buf with
      | some (id, size) => .more size (.parseProtocol id)
      | none => .done (.error .invalidData) .finished
  | .parseProtocol id, buf => .done (.ok ⟨id, buf⟩) .finished
  | .finished, _ => .done (.error .permissionDenied) .finished

/-- `Accept`. -/
def accept : Machine AcceptState (FutureRet Protocol) where
  next := acceptNext
  rank := fun
    | .protocolLen => 3
    | .protocol => 2
    | .parseProtocol _ => 1
    | .finished => 0
  rank_lt := by
    intro s buf n s' h
    cases s with
    | protocolLen =>
        simp only [acceptNext, Reply.more.injEq] at h
        simp [← h.2]
    | protocol =>
        simp only [acceptNext] at h
        split at h
        · simp only [Reply.more.injEq] at h
          simp [← h.2]
        · cases h
    | parseProtocol id => cases h
    | finished => cases h

/-- `Accept::new`. -/
def Accept.new : Fut AcceptState := ⟨.new protocolSize, .protocolLen⟩

/-! ## Credentials (`HandshakeParse`) -/

/-- `AuthInfo`. -/
structure AuthInfo where
  username : Bytes
  password : Bytes
  deriving DecidableEq

/-- `USERNAME_LEN_SIZE`. -/
def usernameLenSize : ℕ := 2

/-- `PASSWORD_LEN_SIZE`. -/
def passwordLenSize : ℕ := 2

/-- The states of `HandshakeParse`; the user name is stored once it was read. -/
inductive HandshakeState where
  | usernameLen
  | username
  | passwordLen (username : Bytes)
  | password (username : Bytes)
  | finished
  deriving DecidableEq

/-- `HandshakeParse::poll` on a full buffer. -/
def handshakeNext : HandshakeState → Bytes → Reply HandshakeState (FutureRet AuthInfo)
  | .usernameLen, buf => .more (fromBeSlice usernameLenSize buf) .username
  | .username, buf => .more passwordLenSize (.passwordLen buf)
  | .passwordLen username, buf => .more (fromBeSlice passwordLenSize buf) (.password username)
  | .password username, buf => .done (.ok ⟨username, buf⟩) .finished
  | .finished, _ => .done (.error .permissionDenied) .finished

/-- `HandshakeParse`. -/
def handshakeParse : Machine HandshakeState (FutureRet AuthInfo) where
  next := handshakeNext
  rank := fun
    | .usernameLen => 4
    | .username => 3
    | .passwordLen _ => 2
    | .password _ => 1
    | .finished => 0
  rank_lt := by
    intro s buf n s' h
    cases s <;> simp only [handshakeNext, Reply.more.injEq, reduceCtorEq] at h <;> simp [← h.2]

/-- `HandshakeParse::new`. -/
def HandshakeParse.new : Fut HandshakeState := ⟨.new usernameLenSize, .usernameLen⟩

/-- `ClientAuth`. -/
structure ClientAuth where
  username : String
  password : String

/-- `auth_verify`. -/
def authVerify (clientAuth : ClientAuth) (authInfo : AuthInfo) : Except String Unit :=
  match stringFromUtf8 authInfo.username with
  | none => .error "username invalid"
  | some username =>
      match stringFromUtf8 authInfo.password with
      | none => .error "password invalid"
      | some password =>
          if clientAuth.username ≠ username ∨ clientAuth.password ≠ password then
            .error "auth failed"
          else .ok ()

/-! ## What the server writes -/

/-- `ControlStatus`. -/
inductive ControlStatus where
  | ok
  | authFailed
  | serverError
  deriving DecidableEq

/-- The numeric value of a `ControlStatus`. -/
def ControlStatus.code : ControlStatus → ℕ
  | .ok => 200
  | .authFailed => 401
  | .serverError => 500

/-- The bytes of `send_handshake_success`. -/
def sendHandshakeSuccess : Bytes :=
  toBeBytes 1 remoteControlProtocol.length ++ remoteControlProtocol ++
    toBeBytes 4 ControlStatus.ok.code

/-- The bytes of `send_handshake_failed`. -/
def sendHandshakeFailed (status : ControlStatus) (errorMsg : String) : Bytes :=
  toBeBytes 1 remoteControlProtocol.length ++ remoteControlProtocol ++
    toBeBytes 4 status.code ++ toBeBytes 4 errorMsg.toUTF8.size ++ errorMsg.toUTF8.toList

/-- `ControlResponsePacket`. -/
inductive ControlResponsePacket where
  | ok (code tranId : ℕ) (data : Bytes)
  | error (code tranId : ℕ) (status : ControlStatus) (message : String)

/-- `Dispatcher::pack_response`. -/
def packResponse : ControlResponsePacket → Bytes
  | .ok code tranId data =>
      toBeBytes 4 code ++ toBeBytes 4 tranId ++ toBeBytes 4 ControlStatus.ok.code ++
        toBeBytes 4 data.length ++ data
  | .error code tranId status message =>
      toBeBytes 4 code ++ toBeBytes 4 tranId ++ toBeBytes 4 status.code ++
        toBeBytes 4 message.toUTF8.size ++ message.toUTF8.toList

/-! ## Requests (`RequestParse`) -/

/-- `command::Request`. -/
structure Request where
  code : ℕ
  tranId : ℕ
  data : Option Bytes
  deriving DecidableEq

/-- `CODE_SIZE`, `TRAN_ID_SIZE` and `LENGTH_SIZE`. -/
def codeSize : ℕ := 4

@[inherit_doc codeSize] def tranIdSize : ℕ := 4

@[inherit_doc codeSize] def lengthSize : ℕ := 4

/-- The states of `RequestParse`; the body is awaited once the head was read. -/
inductive RequestState where
  | head
  | content (code tranId : ℕ)
  | finished
  deriving DecidableEq

/-- `RequestParse::poll` on a full buffer. -/
def requestNext : RequestState → Bytes → Reply RequestState (FutureRet Request)
  | .head, buf =>
      let code := fromBeSlice codeSize buf
      let tranId := fromBeSlice tranIdSize (buf.drop codeSize)
      let length := fromBeSlice lengthSize (buf.drop (codeSize + tranIdSize))
      if length = 0 then .done (.ok ⟨code, tranId, none⟩) .finished
      else .more length (.content code tranId)
  | .content code tranId, buf => .done (.ok ⟨code, tranId, some buf⟩) .finished
  | .finished, _ => .done (.error .permissionDenied) .finished

/-- `RequestParse`. -/
def requestParse : Machine RequestState (FutureRet Request) where
  next := requestNext
  rank := fun
    | .head => 2
    | .content _ _ => 1
    | .finished => 0
  rank_lt := by
    intro s buf n s' h
    cases s with
    | head =>
        simp only [requestNext] at h
        split at h
        · cases h
        · simp only [Reply.more.injEq] at h
          simp [← h.2]
    | content code tranId => cases h
    | finished => cases h

/-- `RequestParse::new`. -/
def RequestParse.new : Fut RequestState := ⟨.new (codeSize + tranIdSize + lengthSize), .head⟩

/-! ## The handshake on the wire -/

/-- The credentials on the wire: `<username_len:u16><username><password_len:u16><password>`. -/
def credentials (info : AuthInfo) : Bytes :=
  toBeBytes usernameLenSize info.username.length ++ info.username ++
    toBeBytes passwordLenSize info.password.length ++ info.password

/-- The documented handshake request
`<protocol_len:u8><protocol_name><username_len:u16><username><password_len:u16><password>`. -/
def handshakeRequest (info : AuthInfo) : Bytes :=
  toBeBytes 1 remoteControlProtocol.length ++ remoteControlProtocol ++ credentials info

/-- What the two handshake futures make of a byte string: the credentials of a
remote-control client and the unread rest. -/
def handshakeOf (bs : Bytes) : Option (AuthInfo × Bytes) :=
  match accept.parse protocolSize .protocolLen bs with
  | some (.ok ⟨.remoteControl, _⟩, rest) =>
      match handshakeParse.parse usernameLenSize .usernameLen rest with
      | some (.ok info, rest') => some (info, rest')
      | _ => none
  | _ => none

theorem length_remoteControlProtocol : remoteControlProtocol.length = 23 := by decide +kernel

/-- A list is its first `n` elements followed by the rest. -/
theorem eq_append_drop_of_take_eq {bs xs : Bytes} {n : ℕ} (h : bs.take n = xs) :
    bs = xs ++ bs.drop n := by
  rw [← h, List.take_append_drop]

/-- The payload of a parsed protocol is the declared number of bytes. -/
theorem accept_parse_parseProtocol {n : ℕ} {id : Identifier} {bs rest : Bytes} {p : Protocol} :
    accept.parse n (.parseProtocol id) bs = some (.ok p, rest) ↔
      n ≤ bs.length ∧ p = ⟨id, bs.take n⟩ ∧ rest = bs.drop n := by
  rw [accept.parse_eq_some_iff]
  simp only [accept, acceptNext, Reply.done.injEq, Except.ok.injEq, reduceCtorEq, false_and,
    exists_false, or_false, exists_and_right]
  constructor
  · rintro ⟨h, ⟨-, rfl, -⟩, rfl⟩
    exact ⟨h, rfl, rfl⟩
  · rintro ⟨h, rfl, rfl⟩
    exact ⟨h, ⟨_, rfl, rfl⟩, rfl⟩

/-- `Accept` finds the remote-control protocol exactly on its name. -/
theorem accept_parse_protocol {n : ℕ} {bs rest payload : Bytes} :
    accept.parse n .protocol bs = some (.ok ⟨.remoteControl, payload⟩, rest) ↔
      n = remoteControlProtocol.length ∧ bs = remoteControlProtocol ++ rest ∧ payload = [] := by
  rw [accept.parse_eq_some_iff]
  constructor
  · rintro ⟨hn, ⟨s', hd, -⟩ | ⟨n', s', hm, hp⟩⟩
    · exfalso
      simp only [accept, acceptNext] at hd
      split at hd <;> simp at hd
    · simp only [accept, acceptNext, parseProtocol] at hm
      split at hm
      · next id size hps =>
          simp only [Reply.more.injEq] at hm
          obtain ⟨rfl, rfl⟩ := hm
          obtain ⟨hlen, hid, hrest⟩ := accept_parse_parseProtocol.mp hp
          simp only [Protocol.mk.injEq] at hid
          obtain ⟨hid, hpay⟩ := hid
          split at hps
          · simp only [Option.some.injEq, Prod.mk.injEq] at hps
            rw [← hid] at hps
            simp at hps
          · split at hps
            · next hname =>
                simp only [Option.some.injEq, Prod.mk.injEq] at hps
                have hsize : size = 0 := hps.2.symm
                subst hsize
                have hlenn : n = remoteControlProtocol.length := by
                  rw [← hname, List.length_take]
                  omega
                refine ⟨hlenn, ?_, by simpa using hpay⟩
                rw [hrest, List.drop_zero]
                exact eq_append_drop_of_take_eq hname
            · simp at hps
      · simp at hm
  · rintro ⟨rfl, rfl, rfl⟩
    refine ⟨by simp, Or.inr ⟨0, .parseProtocol .remoteControl, ?_, ?_⟩⟩
    · have hne : remoteControlProtocol ≠ bitTorrentProtocol := by decide +kernel
      simp [accept, acceptNext, parseProtocol, hne, remoteControlPayloadLen]
    · simp [accept_parse_parseProtocol]

/-- `Accept` finds the remote-control protocol exactly on its length-prefixed name. -/
theorem accept_parse_remoteControl {bs rest payload : Bytes} :
    accept.parse protocolSize .protocolLen bs = some (.ok ⟨.remoteControl, payload⟩, rest) ↔
      bs = toBeBytes 1 remoteControlProtocol.length ++ remoteControlProtocol ++ rest ∧
        payload = [] := by
  rw [accept.parse_eq_some_iff, length_remoteControlProtocol]
  constructor
  · rintro ⟨hn, ⟨s', hd, -⟩ | ⟨n', s', hm, hp⟩⟩
    · simp [accept, acceptNext] at hd
    · simp only [accept, acceptNext, Reply.more.injEq] at hm
      obtain ⟨hn', rfl⟩ := hm
      obtain ⟨hlen, hbs, hpay⟩ := accept_parse_protocol.mp hp
      refine ⟨?_, hpay⟩
      cases bs with
      | nil => simp [protocolSize] at hn
      | cons b bs =>
          simp only [protocolSize, List.take_succ_cons, List.take_zero, List.headD_cons,
            List.drop_succ_cons, List.drop_zero] at hn' hbs
          rw [length_remoteControlProtocol, ← hn'] at hlen
          have hb : b = 23 := UInt8.toNat_inj.mp (by simpa using hlen)
          rw [hb, hbs]
          rfl
  · rintro ⟨rfl, rfl⟩
    refine ⟨by simp [protocolSize], Or.inr ⟨23, .protocol, ?_, ?_⟩⟩
    · rfl
    · rw [accept_parse_protocol, length_remoteControlProtocol]
      exact ⟨rfl, by simp [protocolSize, toBeBytes], rfl⟩

/-- A length field of `size` bytes, after which the parser asks for that many bytes. -/
theorem parse_lengthField {S R : Type} (M : Machine S R) {size : ℕ} {s t : S}
    (hmore : ∀ buf, M.next s buf = .more (fromBeSlice size buf) t) {bs rest : Bytes} {a : R} :
    M.parse size s bs = some (a, rest) ↔ ∃ n tail, n < 256 ^ size ∧
      bs = toBeBytes size n ++ tail ∧ M.parse n t tail = some (a, rest) := by
  rw [M.parse_iff_of_more hmore]
  constructor
  · rintro ⟨buf, tail, hlen, rfl, hrest⟩
    refine ⟨fromBeSlice size buf, tail, fromBeSlice_lt _ _ hlen, ?_, hrest⟩
    rw [toBeBytes_fromBeSlice _ _ hlen]
  · rintro ⟨n, tail, hn, rfl, hrest⟩
    refine ⟨toBeBytes size n, tail, length_toBeBytes _ _, rfl, ?_⟩
    rwa [fromBeSlice_toBeBytes _ _ hn]

/-- `HandshakeParse` reads exactly a length-prefixed password after the user name. -/
theorem handshakeParse_parse_passwordLen {username bs rest : Bytes} {info : AuthInfo} :
    handshakeParse.parse passwordLenSize (.passwordLen username) bs = some (.ok info, rest) ↔
      ∃ password, password.length < 256 ^ passwordLenSize ∧ info = ⟨username, password⟩ ∧
        bs = toBeBytes passwordLenSize password.length ++ password ++ rest := by
  have hpassword : ∀ {n : ℕ} {tail : Bytes},
      handshakeParse.parse n (.password username) tail = some (.ok info, rest) ↔
        ∃ password, password.length = n ∧ tail = password ++ rest ∧
          .ok info = (.ok ⟨username, password⟩ : FutureRet AuthInfo) :=
    handshakeParse.parse_iff_of_done fun _ => rfl
  rw [parse_lengthField handshakeParse fun _ => rfl]
  constructor
  · rintro ⟨n, tail, hn, rfl, hrest⟩
    obtain ⟨password, rfl, rfl, hinfo⟩ := hpassword.mp hrest
    exact ⟨password, hn, Except.ok.inj hinfo, (List.append_assoc _ _ _).symm⟩
  · rintro ⟨password, hn, rfl, rfl⟩
    exact ⟨password.length, password ++ rest, hn, List.append_assoc _ _ _,
      hpassword.mpr ⟨password, rfl, rfl, rfl⟩⟩

/-- `HandshakeParse` reads exactly a length-prefixed user name and password. -/
theorem handshakeParse_parse {bs rest : Bytes} {info : AuthInfo} :
    handshakeParse.parse usernameLenSize .usernameLen bs = some (.ok info, rest) ↔
      info.username.length < 256 ^ usernameLenSize ∧
        info.password.length < 256 ^ passwordLenSize ∧
        bs = toBeBytes usernameLenSize info.username.length ++ info.username ++
          toBeBytes passwordLenSize info.password.length ++ info.password ++ rest := by
  have husername : ∀ {n : ℕ} {tail : Bytes},
      handshakeParse.parse n .username tail = some (.ok info, rest) ↔
        ∃ username tail', username.length = n ∧ tail = username ++ tail' ∧
          handshakeParse.parse passwordLenSize (.passwordLen username) tail' =
            some (.ok info, rest) :=
    handshakeParse.parse_iff_of_more fun _ => rfl
  rw [parse_lengthField handshakeParse fun _ => rfl]
  constructor
  · rintro ⟨n, tail, hn, rfl, hrest⟩
    obtain ⟨username, tail', rfl, rfl, hpassword⟩ := husername.mp hrest
    obtain ⟨password, hp, rfl, rfl⟩ := handshakeParse_parse_passwordLen.mp hpassword
    exact ⟨hn, hp, by simp only [List.append_assoc]⟩
  · rintro ⟨hu, hp, rfl⟩
    have hpassword : handshakeParse.parse passwordLenSize (.passwordLen info.username)
        (toBeBytes passwordLenSize info.password.length ++ info.password ++ rest) =
          some (.ok info, rest) :=
      handshakeParse_parse_passwordLen.mpr ⟨info.password, hp, rfl, rfl⟩
    refine ⟨_, _, hu, ?_, husername.mpr ⟨info.username, _, rfl, rfl, hpassword⟩⟩
    simp only [List.append_assoc]

/-- **The handshake futures accept exactly the documented handshake request.** -/
theorem handshakeOf_eq_some_iff {bs rest : Bytes} {info : AuthInfo} :
    handshakeOf bs = some (info, rest) ↔
      info.username.length < 65536 ∧ info.password.length < 65536 ∧
        bs = handshakeRequest info ++ rest := by
  have h256 : 256 ^ usernameLenSize = 65536 ∧ 256 ^ passwordLenSize = 65536 := by decide
  constructor
  · intro h
    unfold handshakeOf at h
    split at h
    · next payload rest₁ hacc =>
        obtain ⟨hbs, -⟩ := accept_parse_remoteControl.mp hacc
        split at h
        · next info' rest₂ hhs =>
            simp only [Option.some.injEq, Prod.mk.injEq] at h
            obtain ⟨rfl, rfl⟩ := h
            obtain ⟨hu, hp, hrest⟩ := handshakeParse_parse.mp hhs
            refine ⟨h256.1 ▸ hu, h256.2 ▸ hp, ?_⟩
            rw [hbs, hrest]
            simp [handshakeRequest, credentials, List.append_assoc]
        · cases h
    · cases h
  · rintro ⟨hu, hp, rfl⟩
    have hacc : accept.parse protocolSize .protocolLen (handshakeRequest info ++ rest) =
        some (.ok ⟨.remoteControl, []⟩, credentials info ++ rest) :=
      accept_parse_remoteControl.mpr
        ⟨by simp [handshakeRequest, credentials, List.append_assoc], rfl⟩
    have hhs : handshakeParse.parse usernameLenSize .usernameLen (credentials info ++ rest) =
        some (.ok info, rest) :=
      handshakeParse_parse.mpr
        ⟨h256.1.symm ▸ hu, h256.2.symm ▸ hp, by simp [credentials, List.append_assoc]⟩
    simp only [handshakeOf, hacc, hhs]
