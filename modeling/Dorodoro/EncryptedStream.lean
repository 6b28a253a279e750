/-
# The stream behind the encrypted handshake

`init_handshake` (`bt/pe_crypto.rs`) as a whole: the key exchange, the packet of step 3,
message 4, and the `TcpStreamWrapper` (`bt/socket.rs`) that is returned.  SHA-1 and RC4 are
taken from `Primitives`.

* `payload_delivered_iff`: what the handshake has read beyond message 4 is dropped with its
  buffer, so the payload arrives whole if and only if the first read of message 4 stopped at
  its end;
* `noDowngrade_iff`: the answer is compared with what this side supports and not with what
  it offered, so a peer can turn an offer of RC4 into plaintext.
-/
import Dorodoro.CryptoHandshake
import Dorodoro.KeyExchange
import Dorodoro.PeerWire

open StreamCipher CryptoHandshake KeyExchange PeerWire

namespace EncryptedStream

/-! ## Keys and ciphers -/

/-- The hash function and the keystream of a key, from the crates `sha1` and `rc4`. -/
structure Primitives where
  sha1 : Bytes → Bytes
  rc4 : Bytes → ℕ → UInt8

/-- `KeyType`. -/
inductive KeyType where
  | keyA
  | keyB
  deriving DecidableEq

/-- `KeyType::as_bytes`. -/
def KeyType.asBytes : KeyType → Bytes
  | keyA => "keyA".toUTF8.toList
  | keyB => "keyB".toUTF8.toList

variable (P : Primitives)

/-- `encrypt_key`. -/
def Primitives.encryptKey (keyType : KeyType) (s : ℕ) (skey : Bytes) : Bytes :=
  P.sha1 (keyType.asBytes ++ toBytesBe s ++ skey)

/-- `generate_cipher`: the first 1024 bytes of the keystream are discarded. -/
def Primitives.generateCipher (s : ℕ) (skey : Bytes) (keyType : KeyType) : Cipher :=
  (Cipher.applyKeystream ⟨P.rc4 (P.encryptKey keyType s skey), 0⟩ (List.replicate 1024 0)).2

/-- `encrypt_a2b_handshake_packet`: the packet of step 3, and the local cipher after it. -/
def Primitives.encryptA2bHandshakePacket (rc4 : Cipher) (s : ℕ) (skey vc : Bytes)
    (cryptoProvide : ℕ) (padC ia : Bytes) : Bytes × Cipher :=
  let hashReq1 := P.sha1 ("req1".toUTF8.toList ++ toBytesBe s)
  let hashXor := List.zipWith (· ^^^ ·) (P.sha1 ("req2".toUTF8.toList ++ skey))
    (P.sha1 ("req3".toUTF8.toList ++ toBytesBe s))
  let rha := rc4.applyKeystream (vc ++ toBeBytes 4 cryptoProvide ++ toBeBytes 2 padC.length ++
    padC ++ toBeBytes 2 ia.length)
  let ia := rha.2.applyKeystream ia
  (hashReq1 ++ hashXor ++ rha.1 ++ ia.1, ia.2)

/-! ## `TcpStreamWrapper` -/

/-- `TcpStreamWrapper`; `stream` is what the socket will still bring. -/
structure TcpStreamWrapper where
  stream : Bytes
  lc : Crypto
  rc : Crypto

/-- `TcpStreamWrapper::read`, when the socket has `n` bytes for it. -/
def TcpStreamWrapper.read (w : TcpStreamWrapper) (n : ℕ) : Bytes × TcpStreamWrapper :=
  match w.rc with
  | .plaintext => (w.stream.take n, { w with stream := w.stream.drop n })
  | .rc4 c =>
      ((c.applyKeystream (w.stream.take n)).1,
        { w with
          stream := w.stream.drop n
          rc := .rc4 (c.applyKeystream (w.stream.take n)).2 })

/-- What reads of the given sizes deliver. -/
def TcpStreamWrapper.readEach : TcpStreamWrapper → List ℕ → Bytes
  | _, [] => []
  | w, n :: ns => (w.read n).1 ++ (w.read n).2.readEach ns

/-- The bytes behind the wrapper, decrypted. -/
def TcpStreamWrapper.plain (w : TcpStreamWrapper) : Bytes :=
  match w.rc with
  | .plaintext => w.stream
  | .rc4 c => xorFrom c.keystream c.pos w.stream

/-- One read delivers the front of the decrypted bytes. -/
theorem TcpStreamWrapper.read_eq (w : TcpStreamWrapper) (n : ℕ) :
    (w.read n).1 = w.plain.take n ∧ (w.read n).2.plain = w.plain.drop n := by
  obtain ⟨stream, lc, rc⟩ := w
  cases rc with
  | plaintext => exact ⟨rfl, rfl⟩
  | rc4 c =>
      refine ⟨(take_xorFrom c.keystream c.pos n stream).symm, ?_⟩
      simp only [read, plain, Cipher.applyKeystream, Cipher.advance, drop_xorFrom]
      by_cases hn : n ≤ stream.length
      · rw [List.length_take, min_eq_left hn]
      · rw [List.drop_of_length_le (by omega)]
        rfl

/-- Reads of any sizes deliver the decrypted bytes in order. -/
theorem TcpStreamWrapper.readEach_eq (w : TcpStreamWrapper) (ns : List ℕ) :
    w.readEach ns = w.plain.take ns.sum := by
  induction ns generalizing w with
  | nil => rfl
  | cons n ns ih =>
      obtain ⟨hread, hrest⟩ := w.read_eq n
      rw [readEach, ih, hread, hrest, List.sum_cons, List.take_add]

/-! ## `init_handshake` -/

/-- `init_handshake` with the private key `lprk`: `arrived` is what the socket holds when
the public key of the other side is read (the rest of it is drained), `later` what arrives
afterwards, of which the first read takes `n` bytes if there are as many. -/
def initHandshake (cp : CryptoProvide) (infoHash : Bytes) (lprk : ℕ) (arrived later : Bytes)
    (n : ℕ) : Except Fault TcpStreamWrapper :=
  if cp = .plaintext then .ok ⟨arrived ++ later, .plaintext, .plaintext⟩
  else
    match computeSecret arrived lprk with
    | none => .error .timedOut
    | some s => do
        let localCipher := (P.encryptA2bHandshakePacket (P.generateCipher s infoHash .keyA) s
          infoHash vc cp.toU32 [] []).2
        let ((cryptoSelect, _), conn) ← CryptoHandshake.initHandshake
          (fun _ => P.generateCipher s infoHash .keyB) arrived later n
        if cryptoSelect = .rc4 then .ok ⟨conn.socket, .rc4 localCipher, .rc4 conn.cipher⟩
        else .ok ⟨conn.socket, .plaintext, .plaintext⟩

/-- The secret, by the bytes that carry the public key of the other side. -/
def secretOf (lprk : ℕ) (arrived : Bytes) : ℕ :=
  modpow (fromBytesBe (arrived.take shareKeyLen)) lprk prime

/-- The remote cipher when message 4 is read. -/
def Primitives.remoteCipher (infoHash : Bytes) (lprk : ℕ) (arrived : Bytes) : Cipher :=
  P.generateCipher (secretOf lprk arrived) infoHash .keyB

/-- The local cipher when the packet of step 3 was sent. -/
def Primitives.localCipher (infoHash : Bytes) (lprk : ℕ) (arrived : Bytes) : Cipher :=
  (P.encryptA2bHandshakePacket (P.generateCipher (secretOf lprk arrived) infoHash .keyA)
    (secretOf lprk arrived) infoHash vc CryptoProvide.rc4.toU32 [] []).2

/-- The key and at most 512 bytes of padding have arrived. -/
def KeyArrived (arrived : Bytes) : Prop :=
  shareKeyLen ≤ arrived.length ∧ arrived.length ≤ shareKeyLen + padMaxLen

/-- What the wrapper is made of, by what message 4 selected. -/
def wrapperOf (localCipher : Cipher) (r : (CryptoProvide × ℕ) × Conn) : TcpStreamWrapper :=
  if r.1.1 = .rc4 then ⟨r.2.socket, .rc4 localCipher, .rc4 r.2.cipher⟩
  else ⟨r.2.socket, .plaintext, .plaintext⟩

variable {P} {infoHash arrived later : Bytes} {lprk n : ℕ}

theorem Conn.at_min (stream : Bytes) (n : ℕ) (c : Cipher) :
    CryptoHandshake.Conn.at stream (min n stream.length) c = .at stream n c := by
  rcases le_total n stream.length with h | h
  · rw [min_eq_left h]
  · rw [min_eq_right h, CryptoHandshake.Conn.at, CryptoHandshake.Conn.at, List.take_length,
      List.drop_length, List.take_of_length_le h, List.drop_of_length_le h]

/-- The handshake is message 4, once the key has arrived. -/
theorem initHandshake_rc4 (h : KeyArrived arrived) :
    initHandshake P .rc4 infoHash lprk arrived later n =
      (decryptB2aHandshakePacket (.at later n (P.remoteCipher infoHash lprk arrived))).map
        (wrapperOf (P.localCipher infoHash lprk arrived)) := by
  obtain ⟨hkey, hpad⟩ := h
  rw [initHandshake, if_neg (by decide), computeSecret, if_neg (by omega)]
  simp only [CryptoHandshake.initHandshake]
  rw [if_neg (by omega), if_neg (by omega)]
  show (decryptB2aHandshakePacket (.at later n (P.remoteCipher infoHash lprk arrived)) >>= _) = _
  cases decryptB2aHandshakePacket (.at later n (P.remoteCipher infoHash lprk arrived)) with
  | error e => rfl
  | ok r =>
      show (if r.1.1 = .rc4 then _ else _) = Except.ok (if r.1.1 = .rc4 then _ else _)
      split <;> rfl

/-- Without the key the handshake fails. -/
theorem initHandshake_error (h : ¬ KeyArrived arrived) :
    ∃ e, initHandshake P .rc4 infoHash lprk arrived later n = .error e := by
  rw [initHandshake, if_neg (by decide), computeSecret]
  by_cases hkey : arrived.length < shareKeyLen
  · exact ⟨.timedOut, by rw [if_pos hkey]⟩
  · have hpad : padMaxLen < arrived.length - shareKeyLen := by
      unfold KeyArrived at h
      omega
    refine ⟨.padTooLong, ?_⟩
    rw [if_neg hkey]
    simp only [CryptoHandshake.initHandshake]
    rw [if_neg hkey, if_pos hpad]
    rfl

/-! ## The payload behind message 4 -/

/-- Message 2 of the handshake: the public key of the other side and PadB. -/
structure Message2 where
  key : Bytes
  pad : Bytes
  length_key : key.length = shareKeyLen
  length_pad_le : pad.length ≤ padMaxLen

/-- The bytes of message 2. -/
def Message2.bytes (m : Message2) : Bytes := m.key ++ m.pad

theorem Message2.keyArrived (m : Message2) : KeyArrived m.bytes := by
  have hkey := m.length_key
  have hpad := m.length_pad_le
  rw [KeyArrived, bytes, List.length_append]
  omega

/-- Message 4 of the handshake, before encryption; `provide` is the encryption it selects. -/
structure Message4 where
  cryptoSelect : ℕ
  padD : Bytes
  provide : CryptoProvide
  cryptoSelect_lt : cryptoSelect < 2 ^ 32
  length_padD_lt : padD.length < 2 ^ 16
  selected_eq : selected cryptoSelect = some provide

/-- Message 4 and the payload stream as the other side sends them: the payload is encrypted,
from where message 4 left the keystream, if RC4 was selected. -/
def Message4.wire (m : Message4) (c : Cipher) (payload : Bytes) : Bytes :=
  packet c m.cryptoSelect m.padD ++
    match m.provide with
    | .rc4 => xorFrom c.keystream (c.pos + (14 + m.padD.length)) payload
    | .plaintext => payload

theorem Message4.length_wire (m : Message4) (c : Cipher) (payload : Bytes) :
    (m.wire c payload).length = 14 + m.padD.length + payload.length := by
  unfold wire
  cases m.provide <;> simp [length_packet]

/-- `Delivers r payload`: the handshake returned a stream, and reads of any sizes from it
deliver the payload from its first byte on. -/
def Delivers (r : Except Fault TcpStreamWrapper) (payload : Bytes) : Prop :=
  ∃ w, r = .ok w ∧ ∀ ns : List ℕ, w.readEach ns = payload.take ns.sum

/-- A stream delivers exactly the bytes behind it. -/
theorem delivers_ok_iff {w : TcpStreamWrapper} {payload : Bytes} :
    Delivers (.ok w) payload ↔ w.plain = payload := by
  constructor
  · rintro ⟨w', hw, hreads⟩
    cases hw
    have hlong := hreads [w.plain.length + payload.length]
    rw [TcpStreamWrapper.readEach_eq, List.take_of_length_le (by simp),
      List.take_of_length_le (by simp)] at hlong
    exact hlong
  · rintro rfl
    exact ⟨w, rfl, w.readEach_eq⟩

/-- What the wrapper delivers: the payload without the bytes the handshake had read. -/
theorem plain_wrapperOf (m : Message4) (c localCipher : Cipher) (payload : Bytes) {n : ℕ}
    (hn : 14 + m.padD.length ≤ n) (hle : n ≤ (m.wire c payload).length) :
    (wrapperOf localCipher ((m.provide, 14 + m.padD.length),
      .mid c (plainPacket m.cryptoSelect m.padD ++ behindPacket c m.padD
          (match m.provide with
            | .rc4 => xorFrom c.keystream (c.pos + (14 + m.padD.length)) payload
            | .plaintext => payload))
        (if m.provide = .rc4 then n else 14 + m.padD.length) n)).plain =
      payload.drop (n - (14 + m.padD.length)) := by
  have hbehind : ∀ x : Bytes,
      (plainPacket m.cryptoSelect m.padD ++ x).drop (14 + m.padD.length) = x :=
    fun x => List.drop_left' length_plainPacket
  have hsocket : ∀ x : Bytes, (Conn.mid c (plainPacket m.cryptoSelect m.padD ++ x)
      (14 + m.padD.length) n).socket =
      (xorFrom c.keystream (c.pos + (14 + m.padD.length)) x).drop (n - (14 + m.padD.length)) := by
    intro x
    rw [Conn.socket_mid hn (by rw [List.length_append, length_plainPacket]; omega), hbehind]
  rw [m.length_wire] at hle
  cases m.provide with
  | rc4 =>
      -- the cipher has gone over the bytes that were read too much
      have hlen : n ≤ (plainPacket m.cryptoSelect m.padD ++ payload).length := by
        rw [List.length_append, length_plainPacket]
        omega
      have hdrop : (plainPacket m.cryptoSelect m.padD ++ payload).drop n =
          payload.drop (n - (14 + m.padD.length)) := by
        rw [← hbehind payload, List.drop_drop, Nat.add_sub_cancel' hn, hbehind]
      simp only [behindPacket, xorFrom_xorFrom]
      show xorFrom c.keystream (c.pos + n) (Conn.mid c _ n n).socket = _
      rw [Conn.socket_mid le_rfl hlen, Nat.sub_self, List.drop_zero, xorFrom_xorFrom, hdrop]
  | plaintext =>
      show (Conn.mid c _ (14 + m.padD.length) n).socket = _
      rw [hsocket, behindPacket, xorFrom_xorFrom]

section Payload

variable (P : Primitives) (infoHash : Bytes) (lprk : ℕ) (m₂ : Message2) (m₄ : Message4)
  (payload : Bytes) {n : ℕ}

/-- A first read that does not bring the fourteen bytes up to `len(padD)`. -/
theorem initHandshake_wire_short (h14 : n < 14) :
    initHandshake P .rc4 infoHash lprk m₂.bytes
      (m₄.wire (P.remoteCipher infoHash lprk m₂.bytes) payload) n = .error .panicked := by
  have hlen := m₄.length_wire (P.remoteCipher infoHash lprk m₂.bytes) payload
  rw [initHandshake_rc4 m₂.keyArrived, Message4.wire,
    decrypt_packet _ m₄.cryptoSelect_lt m₄.selected_eq m₄.length_padD_lt
      (by rw [← Message4.wire]; omega), if_pos h14]
  rfl

/-- Any other first read: what it brought of the payload is gone. -/
theorem initHandshake_wire (h14 : 14 ≤ n) :
    ∃ w, initHandshake P .rc4 infoHash lprk m₂.bytes
        (m₄.wire (P.remoteCipher infoHash lprk m₂.bytes) payload) n = .ok w ∧
      w.plain = payload.drop (n - (14 + m₄.padD.length)) := by
  set c := P.remoteCipher infoHash lprk m₂.bytes with hc
  have hlen := m₄.length_wire c payload
  set n' := min n (m₄.wire c payload).length with hn'
  have hcall := decrypt_packet (c := c) (n := n') _ m₄.cryptoSelect_lt m₄.selected_eq
    m₄.length_padD_lt (min_le_right n (m₄.wire c payload).length)
  rw [if_neg (by omega)] at hcall
  refine ⟨_, ?_, (plain_wrapperOf m₄ c (P.localCipher infoHash lprk m₂.bytes) payload
    (le_max_right n' (14 + m₄.padD.length)) (by omega)).trans ?_⟩
  · rw [initHandshake_rc4 m₂.keyArrived, ← Conn.at_min, ← hn', ← hc, Message4.wire, hcall]
    rfl
  · rcases le_total n (m₄.wire c payload).length with hle | hle
    · rw [hn', min_eq_left hle]
      congr 1
      omega
    · rw [List.drop_of_length_le (by omega), List.drop_of_length_le (by omega)]

end Payload

/-- **The payload behind the handshake.**  For every message 2, message 4 and payload
stream, and every size `n` of the first read: the stream `init_handshake` returns delivers
the payload, decrypted if RC4 was selected, if and only if the first read brings message 4
up to `len(padD)` and nothing of the payload. -/
theorem payload_delivered_iff (P : Primitives) (infoHash : Bytes) (lprk : ℕ) (m₂ : Message2)
    (m₄ : Message4) (payload : Bytes) (n : ℕ) :
    Delivers (initHandshake P .rc4 infoHash lprk m₂.bytes
        (m₄.wire (P.remoteCipher infoHash lprk m₂.bytes) payload) n) payload ↔
      14 ≤ n ∧ (n ≤ 14 + m₄.padD.length ∨ payload = []) := by
  rcases Nat.lt_or_ge n 14 with h14 | h14
  · rw [initHandshake_wire_short P infoHash lprk m₂ m₄ payload h14]
    refine iff_of_false ?_ (by omega)
    rintro ⟨w, hw, -⟩
    cases hw
  · obtain ⟨w, hw, hplain⟩ := initHandshake_wire P infoHash lprk m₂ m₄ payload h14
    rw [hw, delivers_ok_iff, hplain]
    constructor
    · intro hall
      have hlen := congrArg List.length hall
      rw [List.length_drop] at hlen
      refine ⟨h14, ?_⟩
      rcases Nat.eq_zero_or_pos payload.length with hnil | hpos
      · exact Or.inr (List.length_eq_zero_iff.mp hnil)
      · exact Or.inl (by omega)
    · rintro ⟨-, hle | rfl⟩
      · rw [Nat.sub_eq_zero_of_le hle, List.drop_zero]
      · exact List.drop_nil

/-- Message 4 that selects RC4, without padding. -/
def Message4.unpadded : Message4 := ⟨2, [], .rc4, by decide, by decide, by decide⟩

/-- One byte of payload that arrives together with message 4 is lost, whatever the hash
function and the cipher. -/
theorem payload_lost :
    ¬ ∃ P : Primitives, Delivers (initHandshake P .rc4 [] 1 (List.replicate 96 1)
      (Message4.unpadded.wire (P.remoteCipher [] 1 (List.replicate 96 1)) [7]) 15) [7] := by
  rintro ⟨P, h⟩
  obtain ⟨w, hw, hplain⟩ := initHandshake_wire P [] 1 ⟨List.replicate 96 1, [], rfl, by decide⟩
    Message4.unpadded [7] (n := 15) (by decide)
  rw [Message2.bytes, List.append_nil] at hw
  rw [hw, delivers_ok_iff, hplain] at h
  cases h

/-! ## What was offered -/

/-- Both halves of the stream use RC4. -/
def TcpStreamWrapper.UsesRc4 (w : TcpStreamWrapper) : Prop :=
  ∃ lc rc, w.lc = .rc4 lc ∧ w.rc = .rc4 rc

/-- The stream of the other side, deciphered, holds a message 4 that selects plaintext
only: the VC at one of the windows that are searched, its first fourteen bytes within the
first `n` bytes, and all of `padD`. -/
def SelectsPlaintext (D : Bytes) (n : ℕ) : Prop :=
  ∃ k < 77, FirstVc D k ∧ 8 * k + 14 ≤ n ∧ 8 * k + 14 + padDLenOf D k ≤ D.length ∧
    selectOf D k &&& CryptoProvide.rc4.toU32 = 0 ∧
    selectOf D k &&& CryptoProvide.plaintext.toU32 ≠ 0

theorem selected_eq_plaintext_iff {cryptoSelect : ℕ} :
    selected cryptoSelect = some .plaintext ↔
      cryptoSelect &&& CryptoProvide.rc4.toU32 = 0 ∧
        cryptoSelect &&& CryptoProvide.plaintext.toU32 ≠ 0 := by
  unfold selected
  by_cases hrc4 : cryptoSelect &&& CryptoProvide.rc4.toU32 = 0
  · by_cases hplain : cryptoSelect &&& CryptoProvide.plaintext.toU32 = 0
    · simp [hrc4, hplain]
    · simp [hrc4, hplain]
  · simp [hrc4]

/-- The handshake ends without RC4 exactly on a message 4 that selects plaintext only. -/
theorem initHandshake_plaintext_iff (P : Primitives) (infoHash : Bytes) (lprk : ℕ)
    (arrived later : Bytes) (n : ℕ) :
    (∃ w, initHandshake P .rc4 infoHash lprk arrived later n = .ok w ∧ ¬ w.UsesRc4) ↔
      KeyArrived arrived ∧
        SelectsPlaintext (((P.remoteCipher infoHash lprk arrived).applyKeystream later).1) n := by
  set c := P.remoteCipher infoHash lprk arrived with hc
  set D := (c.applyKeystream later).1 with hD
  have hlen : D.length = later.length := length_xorFrom c.keystream c.pos later
  -- any bytes are the encryption of what they decipher to
  have hmid : Conn.at later n c = .mid c D 0 (min n D.length) := by
    rw [← Conn.at_xorFrom, hD, Cipher.applyKeystream, xorFrom_xorFrom, length_xorFrom, Conn.at_min]
  by_cases hkey : KeyArrived arrived
  · rw [initHandshake_rc4 hkey, ← hc, hmid]
    constructor
    · rintro ⟨w, hw, hplain⟩
      obtain ⟨r, hcall, hr⟩ : ∃ r, decryptB2aHandshakePacket (.mid c D 0 (min n D.length)) = .ok r ∧
          wrapperOf (P.localCipher infoHash lprk arrived) r = w := by
        cases hcall : decryptB2aHandshakePacket (.mid c D 0 (min n D.length)) with
        | error e => rw [hcall] at hw; cases hw
        | ok r => rw [hcall] at hw; cases hw; exact ⟨r, rfl, rfl⟩
      obtain ⟨k, hk, hvc⟩ := decrypt_mid_inv hcall (min_le_right _ _)
      rw [decrypt_mid hk hvc (min_le_right _ _)] at hcall
      -- behind the VC: too few bytes, nothing selected, `padD` incomplete, or a stream
      split at hcall
      · cases hcall
      · next hshort =>
          split at hcall
          · cases hcall
          · next provide hsel =>
              split at hcall
              · cases hcall
              · next hpad =>
                  cases hcall
                  cases provide with
                  | rc4 => exact absurd ⟨_, _, by rw [← hr]; exact ⟨rfl, rfl⟩⟩ hplain
                  | plaintext =>
                      exact ⟨hkey, k, hk, hvc, by omega, by omega,
                        selected_eq_plaintext_iff.mp hsel⟩
    · rintro ⟨-, k, hk, hvc, hn, hpad, hsel⟩
      rw [decrypt_mid hk hvc (min_le_right _ _), if_neg (by omega),
        selected_eq_plaintext_iff.mpr hsel]
      simp only [if_neg (not_lt.mpr hpad)]
      refine ⟨_, rfl, ?_⟩
      rintro ⟨lc, rc, hlc, -⟩
      cases hlc
  · have herror : ∃ e, initHandshake P .rc4 infoHash lprk arrived later n = .error e :=
      initHandshake_error hkey
    obtain ⟨e, he⟩ := herror
    rw [he]
    refine iff_of_false ?_ (fun h => hkey h.1)
    rintro ⟨w, hw, -⟩
    cases hw

/-- **No downgrade.**  For every stream of the other side, an `init_handshake` that offers
RC4 only returns streams with RC4 in both directions if and only if the other side does not
select plaintext alone. -/
theorem noDowngrade_iff (P : Primitives) (infoHash : Bytes) (lprk : ℕ) (arrived later : Bytes)
    (n : ℕ) :
    (∀ w, initHandshake P .rc4 infoHash lprk arrived later n = .ok w → w.UsesRc4) ↔
      ¬ (KeyArrived arrived ∧
        SelectsPlaintext (((P.remoteCipher infoHash lprk arrived).applyKeystream later).1) n) := by
  rw [← initHandshake_plaintext_iff]
  constructor
  · rintro h ⟨w, hw, hplain⟩
    exact hplain (h w hw)
  · intro h w hw
    by_contra hplain
    exact h ⟨w, hw, hplain⟩

/-- A peer answers the offer of RC4 with `crypto_select` 1, and gets a plaintext stream. -/
theorem downgraded :
    ¬ ∃ P : Primitives, ∀ w, initHandshake P .rc4 [] 1 (List.replicate 96 1)
      (packet (P.remoteCipher [] 1 (List.replicate 96 1)) 1 []) 14 = .ok w → w.UsesRc4 := by
  rintro ⟨P, h⟩
  have hfirst : FirstVc (plainPacket 1 [] ++ []) 0 := firstVc_packet []
  have hplain : SelectsPlaintext (plainPacket 1 []) 14 :=
    ⟨0, by decide, by simpa using hfirst, by decide, by decide, by decide, by decide⟩
  obtain ⟨w, hw, hno⟩ := (initHandshake_plaintext_iff P [] 1 (List.replicate 96 1)
    (packet (P.remoteCipher [] 1 (List.replicate 96 1)) 1 []) 14).mpr
    ⟨⟨by decide, by decide⟩, by
      rw [packet, Cipher.applyKeystream, Cipher.applyKeystream, xorFrom_xorFrom]
      exact hplain⟩
  exact hno (h w hw)

end EncryptedStream
