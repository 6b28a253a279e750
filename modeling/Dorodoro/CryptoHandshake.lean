/-
# The encrypted handshake, message 4

`decrypt_b2a_handshake_packet` and the reads of `init_handshake` around it
(`bt/pe_crypto.rs`), with `read_extra_with_timeout` (`doro-util/src/net.rs`).

The connected peer sends its public key and up to 512 bytes of padding (PadB), and later
`ENCRYPT(VC, crypto_select, len(padD), padD)`.  The code drains what has arrived of
the padding, reads once, searches the VC in steps of eight bytes, and refills its buffer
at three places.

* `Conn` is the socket, the remote cipher and the buffer `recv`; a fault is an error of
  the code or a panic (an underflow of `usize`, a slice out of range);
* `findVc`, `readSelect` and `readPadD` are the three parts of the function, and
  `decrypt_mid` is what it makes of a stream, by what the stream deciphers to;
* `decrypted_iff`: without leftover padding the message is read correctly if and only
  if the first read brought at least the fourteen bytes up to `len(padD)`;
* `resynchronised_iff`: leftover padding is never skipped, since the search consumes the
  keystream.
-/
import Dorodoro.Bytes
import Dorodoro.Checked
import Dorodoro.StreamCipher

open StreamCipher

namespace CryptoHandshake

/-! ## Constants -/

/-- `SHARE_KEY_LEN`. -/
def shareKeyLen : ℕ := 96

/-- `PAD_MAX_LEN`. -/
def padMaxLen : ℕ := 512

/-- `VC_MAX_OFFSET`. -/
def vcMaxOffset : ℕ := 616

/-- `VC`. -/
def vc : Bytes := List.replicate 8 0

@[simp] theorem length_vc : vc.length = 8 := rfl

/-- `CRYPTO_OPTION_LEN`. -/
def cryptoOptionLen : ℕ := 4

/-- `PAD_LEN_UNIT`. -/
def padLenUnit : ℕ := 2

/-- `CryptoProvide`. -/
inductive CryptoProvide where
  | plaintext
  | rc4
  deriving DecidableEq

/-- `CryptoProvide as u32`. -/
def CryptoProvide.toU32 : CryptoProvide → ℕ
  | .plaintext => 0x01
  | .rc4 => 0x02

/-! ## The connection -/

/-- How the handshake can fail: one of its errors, or a panic. -/
inductive Fault where
  /-- `"vc 数据不足"`, with the offset and the number of bytes asked for -/
  | vcShort (pos need : ℕ)
  /-- `"握手失败，没有找到 VC"` -/
  | vcNotFound
  /-- `"crypto_select 和 len(padD) 长度不足"` -/
  | selectShort
  /-- `"不支持的加密方式"` -/
  | unsupported
  /-- `"padD 长度不足"` -/
  | padDShort
  /-- `"read timeout"` -/
  | timedOut
  /-- `"握手失败，长度超出 608 字节"` -/
  | padTooLong
  | panicked
  deriving DecidableEq

/-- The bytes that will still arrive, the remote cipher, and the buffer. -/
structure Conn where
  socket : Bytes
  cipher : Cipher
  recv : Bytes

/-- A subtraction of `usize`. -/
def usizeSub (a b : ℕ) : Except Fault ℕ := if b ≤ a then .ok (a - b) else .error .panicked

/-- `read_exact_with_timeout` of `n` bytes, appended to `recv`. -/
def Conn.refill (s : Conn) (n : ℕ) (e : Fault) : Except Fault Conn :=
  if n ≤ s.socket.length then
    .ok { s with socket := s.socket.drop n, recv := s.recv ++ s.socket.take n }
  else .error e

/-- Refill `recv` up to `m` bytes if it is shorter. -/
def Conn.ensure (s : Conn) (m : ℕ) (e : ℕ → Fault) : Except Fault Conn :=
  if s.recv.length < m then do
    let need ← usizeSub m s.recv.length
    s.refill need (e need)
  else .ok s

/-- `remote_cipher.apply_keystream(&mut recv[start..stop])`. -/
def Conn.applyKeystream (s : Conn) (start stop : ℕ) : Except Fault Conn :=
  if start ≤ stop ∧ stop ≤ s.recv.length then
    let slice := s.cipher.applyKeystream ((s.recv.drop start).take (stop - start))
    .ok { s with cipher := slice.2, recv := writeAt s.recv start slice.1 }
  else .error .panicked

/-! ## `decrypt_b2a_handshake_packet` -/

/-- The search for the VC, for at most `k` more windows. -/
def vcLoop : ℕ → ℕ → Conn → Except Fault (ℕ × Conn)
  | 0, pos, s => .ok (pos, s)
  | k + 1, pos, s =>
      if pos < vcMaxOffset then do
        let s ← s.ensure (pos + vc.length) (.vcShort pos)
        let s ← s.applyKeystream pos (pos + vc.length)
        if (s.recv.drop pos).take vc.length = vc then .ok (pos, s)
        else vcLoop k (pos + vc.length) s
      else .ok (pos, s)

/-- Find the VC: the offset after it.  The windows before `VC_MAX_OFFSET` bound the
number of turns. -/
def findVc (s : Conn) : Except Fault (ℕ × Conn) := do
  let (pos, s) ← vcLoop vcMaxOffset 0 s
  if vcMaxOffset ≤ pos then .error .vcNotFound else .ok (pos + vc.length, s)

/-- The encryption a `crypto_select` stands for; RC4 is preferred. -/
def selected (cryptoSelect : ℕ) : Option CryptoProvide :=
  if cryptoSelect &&& CryptoProvide.rc4.toU32 ≠ 0 then some .rc4
  else if cryptoSelect &&& CryptoProvide.plaintext.toU32 ≠ 0 then some .plaintext
  else none

/-- Refill `recv` for `crypto_select` and `len(padD)`.  This is not `Conn.ensure`: the
offset `pos` does not enter the number of bytes that are asked for. -/
def ensureSelect (pos : ℕ) (s : Conn) : Except Fault Conn :=
  if s.recv.length < pos + cryptoOptionLen + padLenUnit then do
    let need ← usizeSub (cryptoOptionLen + padLenUnit) s.recv.length
    s.refill need .selectShort
  else .ok s

/-- Read `crypto_select` and `len(padD)` at offset `pos`. -/
def readSelect (pos : ℕ) (s : Conn) : Except Fault ((ℕ × ℕ) × Conn) := do
  let s ← ensureSelect pos s
  let s ← s.applyKeystream pos (pos + cryptoOptionLen + padLenUnit)
  .ok ((fromBeSlice 4 (s.recv.drop pos), fromBeSlice 2 (s.recv.drop (pos + cryptoOptionLen))), s)

/-- Read `padD` at offset `pos`. -/
def readPadD (pos padDLen : ℕ) (s : Conn) : Except Fault Conn := do
  let s ← s.ensure (pos + padDLen) (fun _ => .padDShort)
  s.applyKeystream pos (pos + padDLen)

/-- Decipher what was read beyond the message, which is payload. -/
def decryptRest (provide : CryptoProvide) (pos : ℕ) (s : Conn) : Except Fault Conn :=
  if provide = .rc4 then s.applyKeystream pos s.recv.length else .ok s

/-- `decrypt_b2a_handshake_packet`. -/
def decryptB2aHandshakePacket (s : Conn) : Except Fault ((CryptoProvide × ℕ) × Conn) := do
  let (pos, s) ← findVc s
  let ((cryptoSelect, padDLen), s) ← readSelect pos s
  let pos := pos + cryptoOptionLen + padLenUnit
  match selected cryptoSelect with
  | none => .error .unsupported
  | some provide => do
      let s ← readPadD pos padDLen s
      let pos := pos + padDLen
      let s ← decryptRest provide pos s
      .ok ((provide, pos), s)

/-- The reads of `init_handshake`: `arrived` is what the socket holds when the public key
is read (the rest of it is drained), `later` what arrives afterwards, of which the first
read brings `n` bytes.  The remote cipher is made from the public key. -/
def initHandshake (remoteCipher : Bytes → Cipher) (arrived later : Bytes) (n : ℕ) :
    Except Fault ((CryptoProvide × ℕ) × Conn) :=
  if arrived.length < shareKeyLen then .error .timedOut
  else if padMaxLen < arrived.length - shareKeyLen then .error .padTooLong
  else decryptB2aHandshakePacket
    ⟨later.drop n, remoteCipher (arrived.take shareKeyLen), later.take n⟩

/-! ## What the other side sends -/

/-- `crypto_select, len(padD)`. -/
def selectFields (cryptoSelect padDLen : ℕ) : Bytes :=
  toBeBytes 4 cryptoSelect ++ toBeBytes 2 padDLen

@[simp] theorem length_selectFields (cryptoSelect padDLen : ℕ) :
    (selectFields cryptoSelect padDLen).length = 6 := by
  simp [selectFields]

/-- `VC, crypto_select, len(padD), padD`. -/
def plainPacket (cryptoSelect : ℕ) (padD : Bytes) : Bytes :=
  vc ++ (selectFields cryptoSelect padD.length ++ padD)

/-- `ENCRYPT(VC, crypto_select, len(padD), padD)`. -/
def packet (c : Cipher) (cryptoSelect : ℕ) (padD : Bytes) : Bytes :=
  (c.applyKeystream (plainPacket cryptoSelect padD)).1

/-! ## The function on a stream of bytes -/

/-- The connection after `n` bytes of a stream were read. -/
def Conn.at (stream : Bytes) (n : ℕ) (c : Cipher) : Conn := ⟨stream.drop n, c, stream.take n⟩

section Stream

variable {stream : Bytes} {n : ℕ} {c : Cipher}

theorem Conn.length_recv_at (hn : n ≤ stream.length) : (Conn.at stream n c).recv.length = n := by
  rw [Conn.at, List.length_take]
  omega

/-- A refill moves bytes from the stream to the buffer. -/
theorem Conn.ensure_at (hn : n ≤ stream.length) {m : ℕ} (hm : m ≤ stream.length)
    (e : ℕ → Fault) : (Conn.at stream n c).ensure m e = .ok (Conn.at stream (max n m) c) := by
  rw [Conn.ensure, Conn.length_recv_at hn]
  by_cases h : n < m
  · have hsub : usizeSub m n = .ok (m - n) := by rw [usizeSub, if_pos h.le]
    have hroom : m - n ≤ (Conn.at stream n c).socket.length := by
      rw [Conn.at, List.length_drop]
      omega
    rw [if_pos h, hsub, max_eq_right h.le]
    show (Conn.at stream n c).refill (m - n) (e (m - n)) = _
    rw [Conn.refill, if_pos hroom]
    simp only [Conn.at, List.drop_drop, Nat.add_sub_cancel' h.le]
    congr 2
    rw [← List.take_add, Nat.add_sub_cancel' h.le]
  · rw [if_neg h, max_eq_left (by omega)]

/-- Deciphering a part of the buffer deciphers that part of the stream. -/
theorem Conn.applyKeystream_at (ks : ℕ → UInt8) (p : ℕ) (read x rest : Bytes)
    (hn : read.length + x.length ≤ n) (hle : n ≤ (read ++ (xorFrom ks p x ++ rest)).length) :
    (Conn.at (read ++ (xorFrom ks p x ++ rest)) n ⟨ks, p⟩).applyKeystream read.length
        (read.length + x.length) =
      .ok (Conn.at (read ++ (x ++ rest)) n ⟨ks, p + x.length⟩) := by
  rw [Conn.applyKeystream, Conn.length_recv_at hle, if_pos ⟨by omega, hn⟩]
  obtain ⟨k, rfl⟩ : ∃ k, n = read.length + x.length + k := ⟨n - (read.length + x.length), by omega⟩
  have htake : ∀ y : Bytes, y.length = x.length →
      (read ++ (y ++ rest)).take (read.length + x.length + k) = read ++ (y ++ rest.take k) := by
    intro y hy
    rw [Nat.add_assoc, List.take_length_add_append, ← hy, List.take_length_add_append]
  have hdrop : ∀ y : Bytes, y.length = x.length →
      (read ++ (y ++ rest)).drop (read.length + x.length + k) = rest.drop k := by
    intro y hy
    rw [Nat.add_assoc, List.drop_length_add_append, ← hy, List.drop_length_add_append]
  have hx : (xorFrom ks p x).length = x.length := length_xorFrom ks p x
  have hslice : ((Conn.at (read ++ (xorFrom ks p x ++ rest)) (read.length + x.length + k)
      ⟨ks, p⟩).recv.drop read.length).take (read.length + x.length - read.length) =
      xorFrom ks p x := by
    rw [Conn.at, htake _ hx, List.drop_left, Nat.add_sub_cancel_left, ← hx, List.take_left]
  rw [hslice]
  simp only [Conn.at, Cipher.applyKeystream, xorFrom_xorFrom, Cipher.advance, hx, htake _ hx,
    hdrop _ hx, htake x rfl, hdrop x rfl]
  congr 2
  rw [writeAt, List.take_left, List.append_assoc, ← List.drop_drop, List.drop_left, ← hx,
    List.drop_left]

/-- **The refill of `crypto_select` panics** whenever it is needed: six minus the length of
a buffer that holds the VC underflows. -/
theorem readSelect_panicked {pos : ℕ} {s : Conn} (h6 : 6 < s.recv.length)
    (h : s.recv.length < pos + 6) : readSelect pos s = .error .panicked := by
  have hsub : usizeSub (cryptoOptionLen + padLenUnit) s.recv.length = .error .panicked := by
    rw [usizeSub, if_neg (by simp [cryptoOptionLen, padLenUnit]; omega)]
  have hens : ensureSelect pos s = .error .panicked := by
    rw [ensureSelect, if_pos (show s.recv.length < pos + cryptoOptionLen + padLenUnit from h), hsub]
    rfl
  rw [readSelect, hens]
  rfl

end Stream

/-- The connection when the first `n` bytes of a stream that deciphers to `D` were read and
the first `d` of them have been deciphered. -/
def Conn.mid (c : Cipher) (D : Bytes) (d n : ℕ) : Conn :=
  .at (D.take d ++ xorFrom c.keystream (c.pos + d) (D.drop d)) n (c.advance d)

section Mid

variable {c : Cipher} {D : Bytes} {d n : ℕ}

theorem Conn.at_xorFrom : Conn.at (xorFrom c.keystream c.pos D) n c = Conn.mid c D 0 n := rfl

theorem length_midStream (d : ℕ) :
    (D.take d ++ xorFrom c.keystream (c.pos + d) (D.drop d)).length = D.length := by
  rw [List.length_append, length_xorFrom, ← List.length_append, List.take_append_drop]

theorem Conn.length_recv_mid (hn : n ≤ D.length) : (Conn.mid c D d n).recv.length = n :=
  Conn.length_recv_at (by rwa [length_midStream])

theorem Conn.ensure_mid (hn : n ≤ D.length) {m : ℕ} (hm : m ≤ D.length) (e : ℕ → Fault) :
    (Conn.mid c D d n).ensure m e = .ok (Conn.mid c D d (max n m)) :=
  Conn.ensure_at (by rwa [length_midStream]) (by rwa [length_midStream]) e

/-- A stream that is too short. -/
theorem Conn.ensure_mid_short (hn : n ≤ D.length) {m : ℕ} (hm : D.length < m) (e : ℕ → Fault) :
    (Conn.mid c D d n).ensure m e = .error (e (m - n)) := by
  have hsub : usizeSub m n = .ok (m - n) := by rw [usizeSub, if_pos (by omega)]
  have hroom : ¬ m - n ≤ (Conn.mid c D d n).socket.length := by
    rw [Conn.mid, Conn.at, List.length_drop, length_midStream]
    omega
  rw [Conn.ensure, Conn.length_recv_mid hn, if_pos (by omega), hsub]
  show (Conn.mid c D d n).refill (m - n) (e (m - n)) = _
  rw [Conn.refill, if_neg hroom]

/-- Deciphering goes on where it stopped. -/
theorem Conn.applyKeystream_mid {e : ℕ} (hde : d ≤ e) (hen : e ≤ n) (hn : n ≤ D.length) :
    (Conn.mid c D d n).applyKeystream d e = .ok (Conn.mid c D e n) := by
  have hread : (D.take d).length = d := by rw [List.length_take]; omega
  have hx : ((D.drop d).take (e - d)).length = e - d := by
    rw [List.length_take, List.length_drop]
    omega
  have hsplit : D.drop d = (D.drop d).take (e - d) ++ D.drop e := by
    conv_lhs => rw [← List.take_append_drop (e - d) (D.drop d)]
    rw [List.drop_drop, Nat.add_sub_cancel' hde]
  have hstream : D.take d ++ xorFrom c.keystream (c.pos + d) (D.drop d) =
      D.take d ++ (xorFrom c.keystream (c.pos + d) ((D.drop d).take (e - d)) ++
        xorFrom c.keystream (c.pos + e) (D.drop e)) := by
    conv_lhs => rw [hsplit]
    rw [xorFrom_append, hx, Nat.add_assoc, Nat.add_sub_cancel' hde]
  have htake : D.take d ++ ((D.drop d).take (e - d) ++
      xorFrom c.keystream (c.pos + e) (D.drop e)) =
      D.take e ++ xorFrom c.keystream (c.pos + e) (D.drop e) := by
    rw [← List.append_assoc, ← List.take_add, Nat.add_sub_cancel' hde]
  have happ := Conn.applyKeystream_at (n := n) c.keystream (c.pos + d) (D.take d)
    ((D.drop d).take (e - d)) (xorFrom c.keystream (c.pos + e) (D.drop e))
    (by omega) (by rw [← hstream, length_midStream]; exact hn)
  rw [hread, hx, Nat.add_sub_cancel' hde, Nat.add_assoc, Nat.add_sub_cancel' hde, ← hstream,
    htake] at happ
  exact happ

/-- What has been deciphered can be read off the buffer. -/
theorem Conn.recv_mid_take {pos m : ℕ} (hpos : pos + m ≤ d) (hd : d ≤ n) (hn : n ≤ D.length) :
    ((Conn.mid c D d n).recv.drop pos).take m = (D.drop pos).take m := by
  have hread : (D.take d).length = d := by rw [List.length_take]; omega
  have hrecv : (Conn.mid c D d n).recv =
      D.take d ++ (xorFrom c.keystream (c.pos + d) (D.drop d)).take (n - d) := by
    show List.take n _ = _
    rw [List.take_append, hread, List.take_of_length_le (by omega)]
  rw [hrecv, List.drop_append_of_le_length (by omega), List.take_append_of_le_length
    (by rw [List.length_drop]; omega), List.drop_take, List.take_take, min_eq_left (by omega)]


/-- What is left in the socket. -/
theorem Conn.socket_mid (hd : d ≤ n) (hn : d ≤ D.length) :
    (Conn.mid c D d n).socket = (xorFrom c.keystream (c.pos + d) (D.drop d)).drop (n - d) := by
  have hread : (D.take d).length = d := by rw [List.length_take]; omega
  show List.drop n _ = _
  rw [List.drop_append, List.drop_of_length_le (by omega), List.nil_append, hread]

/-! ## The search for the VC -/

/-- The first window of eight bytes, at a multiple of eight, that holds the VC. -/
def FirstVc (D : Bytes) (k : ℕ) : Prop :=
  (∀ j < k, (D.drop (8 * j)).take 8 ≠ vc) ∧ (D.drop (8 * k)).take 8 = vc

theorem FirstVc.length_le {k : ℕ} (h : FirstVc D k) : 8 * k + 8 ≤ D.length := by
  have hlen := congrArg List.length h.2
  rw [List.length_take, List.length_drop, length_vc] at hlen
  omega

/-- One window of the search. -/
theorem vcLoop_window {k j : ℕ} (hj : 8 * j < vcMaxOffset) (hn : n ≤ D.length)
    (hlen : 8 * j + 8 ≤ D.length) :
    vcLoop (k + 1) (8 * j) (.mid c D (8 * j) n) =
      if (D.drop (8 * j)).take 8 = vc then
        .ok (8 * j, .mid c D (8 * j + 8) (max n (8 * j + 8)))
      else vcLoop k (8 * (j + 1)) (.mid c D (8 * (j + 1)) (max n (8 * (j + 1)))) := by
  have hens := Conn.ensure_mid (c := c) (d := 8 * j) hn hlen (.vcShort (8 * j))
  have happ := Conn.applyKeystream_mid (c := c) (Nat.le_add_right (8 * j) 8)
    (le_max_right n (8 * j + 8)) (by omega : max n (8 * j + 8) ≤ D.length)
  have hwin := Conn.recv_mid_take (c := c) (m := 8) le_rfl (le_max_right n (8 * j + 8))
    (by omega : max n (8 * j + 8) ≤ D.length)
  rw [vcLoop, if_pos hj, length_vc, hens]
  show (Conn.applyKeystream _ (8 * j) (8 * j + 8) >>= _) = _
  rw [happ]
  show (if _ then _ else _) = _
  rw [hwin]
  rfl

/-- The search finds the first window with the VC. -/
theorem vcLoop_found {k : ℕ} : ∀ {fuel j n : ℕ}, k < j + fuel → j ≤ k → k < 77 →
    n ≤ D.length → (∀ i, j ≤ i → i < k → (D.drop (8 * i)).take 8 ≠ vc) →
    (D.drop (8 * k)).take 8 = vc → 8 * k + 8 ≤ D.length →
    vcLoop fuel (8 * j) (.mid c D (8 * j) n) =
      .ok (8 * k, .mid c D (8 * k + 8) (max n (8 * k + 8))) := by
  intro fuel
  induction fuel with
  | zero => intro j n hfuel hjk; omega
  | succ fuel ih =>
      intro j n hfuel hjk hk hn hbefore hvc hlen
      rw [vcLoop_window (by unfold vcMaxOffset; omega) hn (by omega)]
      by_cases hj : j = k
      · subst hj
        rw [if_pos hvc]
      · rw [if_neg (hbefore j le_rfl (by omega)),
          ih (by omega) (by omega) hk (by omega) (fun i hi => hbefore i (by omega)) hvc hlen]
        congr 3
        omega

/-- A search that ends before `VC_MAX_OFFSET` has found the VC. -/
theorem vcLoop_inv : ∀ {fuel j n pos : ℕ} {s : Conn},
    vcLoop fuel (8 * j) (.mid c D (8 * j) n) = .ok (pos, s) → pos < vcMaxOffset →
    vcMaxOffset ≤ 8 * j + 8 * fuel → n ≤ D.length →
    (∀ i < j, (D.drop (8 * i)).take 8 ≠ vc) → ∃ k < 77, FirstVc D k := by
  intro fuel
  induction fuel with
  | zero =>
      intro j n pos s h hpos hfuel
      cases h
      omega
  | succ fuel ih =>
      intro j n pos s h hpos hfuel hn hbefore
      by_cases hj : 8 * j < vcMaxOffset
      · by_cases hlen : 8 * j + 8 ≤ D.length
        · rw [vcLoop_window hj hn hlen] at h
          split at h
          · next hvc => exact ⟨j, by unfold vcMaxOffset at hj; omega, hbefore, hvc⟩
          · next hvc =>
              refine ih h hpos (by omega) (by omega) fun i hi => ?_
              rcases Nat.lt_succ_iff_lt_or_eq.mp hi with hlt | rfl
              · exact hbefore i hlt
              · exact hvc
        · -- the stream ends inside the window
          rw [vcLoop, if_pos hj, length_vc, Conn.ensure_mid_short hn (by omega)] at h
          cases h
      · rw [vcLoop, if_neg hj] at h
        cases h
        omega

theorem findVc_mid {k : ℕ} (hk : k < 77) (h : FirstVc D k) (hn : n ≤ D.length) :
    findVc (.mid c D 0 n) = .ok (8 * k + 8, .mid c D (8 * k + 8) (max n (8 * k + 8))) := by
  have hloop : vcLoop vcMaxOffset 0 (.mid c D 0 n) =
      .ok (8 * k, .mid c D (8 * k + 8) (max n (8 * k + 8))) :=
    vcLoop_found (j := 0) (by unfold vcMaxOffset; omega) (Nat.zero_le k) hk hn
      (fun i _ => h.1 i) h.2 h.length_le
  rw [findVc, hloop]
  show (if vcMaxOffset ≤ 8 * k then _ else _) = _
  rw [if_neg (by unfold vcMaxOffset; omega), length_vc]

theorem findVc_inv {pos : ℕ} {s : Conn} (h : findVc (.mid c D 0 n) = .ok (pos, s))
    (hn : n ≤ D.length) : ∃ k < 77, FirstVc D k := by
  obtain ⟨⟨pos', s'⟩, hloop, h⟩ := Checked.bind_eq_ok.mp h
  simp only at h
  split at h
  · cases h
  · next hpos =>
      exact vcLoop_inv (j := 0) hloop (by omega) (by unfold vcMaxOffset; omega) hn
        (fun i hi => absurd hi (Nat.not_lt_zero i))

/-! ## The rest of the message -/

/-- `crypto_select` of the message behind the VC at window `k`. -/
def selectOf (D : Bytes) (k : ℕ) : ℕ := fromBeSlice 4 (D.drop (8 * k + 8))

/-- `len(padD)` of the message behind the VC at window `k`. -/
def padDLenOf (D : Bytes) (k : ℕ) : ℕ := fromBeSlice 2 (D.drop (8 * k + 12))

theorem readSelect_mid {pos : ℕ} (hpos : pos + 6 ≤ n) (hn : n ≤ D.length) :
    readSelect pos (.mid c D pos n) =
      .ok ((fromBeSlice 4 (D.drop pos), fromBeSlice 2 (D.drop (pos + 4))), .mid c D (pos + 6) n) := by
  have happ := Conn.applyKeystream_mid (c := c) (Nat.le_add_right pos 6) hpos hn
  have hsel : fromBeSlice 4 ((Conn.mid c D (pos + 6) n).recv.drop pos) =
      fromBeSlice 4 (D.drop pos) :=
    fromBeSlice_congr (Conn.recv_mid_take (by omega) hpos hn)
  have hpad : fromBeSlice 2 ((Conn.mid c D (pos + 6) n).recv.drop (pos + 4)) =
      fromBeSlice 2 (D.drop (pos + 4)) :=
    fromBeSlice_congr (Conn.recv_mid_take (by omega) hpos hn)
  rw [readSelect, ensureSelect, Conn.length_recv_mid hn,
    if_neg (by simp only [cryptoOptionLen, padLenUnit]; omega)]
  show (Conn.applyKeystream _ pos (pos + 6) >>= _) = _
  rw [happ]
  show Except.ok ((fromBeSlice 4 _,
    fromBeSlice 2 ((Conn.mid c D (pos + 6) n).recv.drop (pos + 4))), _) = _
  rw [hsel, hpad]

theorem readPadD_mid {pos padDLen : ℕ} (hlen : pos + padDLen ≤ D.length) (hn : n ≤ D.length) :
    readPadD pos padDLen (.mid c D pos n) =
      .ok (.mid c D (pos + padDLen) (max n (pos + padDLen))) := by
  rw [readPadD, Conn.ensure_mid hn hlen]
  exact Conn.applyKeystream_mid (Nat.le_add_right pos padDLen) (le_max_right _ _) (by omega)

theorem decryptRest_mid {provide : CryptoProvide} {pos : ℕ} (hpos : pos ≤ n) (hn : n ≤ D.length) :
    decryptRest provide pos (.mid c D pos n) =
      .ok (.mid c D (if provide = .rc4 then n else pos) n) := by
  rw [decryptRest, Conn.length_recv_mid hn]
  split
  · exact Conn.applyKeystream_mid hpos le_rfl hn
  · rfl

/-- **The whole call**, on a stream that deciphers to `D` with the VC at window `k`. -/
theorem decrypt_mid {k : ℕ} (hk : k < 77) (h : FirstVc D k) (hn : n ≤ D.length) :
    decryptB2aHandshakePacket (.mid c D 0 n) =
      if n < 8 * k + 14 then .error .panicked
      else match selected (selectOf D k) with
        | none => .error .unsupported
        | some provide =>
            if D.length < 8 * k + 14 + padDLenOf D k then .error .padDShort
            else .ok ((provide, 8 * k + 14 + padDLenOf D k),
              .mid c D (if provide = .rc4 then max n (8 * k + 14 + padDLenOf D k)
                else 8 * k + 14 + padDLenOf D k) (max n (8 * k + 14 + padDLenOf D k))) := by
  have hlen := h.length_le
  rw [decryptB2aHandshakePacket, findVc_mid hk h hn]
  show (readSelect (8 * k + 8) _ >>= _) = _
  -- the first read was too short: `ensureSelect` subtracts below zero
  by_cases hshort : n < 8 * k + 14
  · have hrecv := Conn.length_recv_mid (c := c) (d := 8 * k + 8)
      (by omega : max n (8 * k + 8) ≤ D.length)
    rw [if_pos hshort, readSelect_panicked (by omega) (by omega)]
    rfl
  rw [if_neg hshort, max_eq_left (by omega), readSelect_mid (by omega) hn]
  show (match selected (selectOf D k) with
    | none => _
    | some provide => _) = _
  cases selected (selectOf D k) with
  | none => rfl
  | some provide =>
      show (readPadD (8 * k + 14) (padDLenOf D k) _ >>= _) = _
      by_cases hpad : D.length < 8 * k + 14 + padDLenOf D k
      · have hens := Conn.ensure_mid_short (c := c) (d := 8 * k + 14) hn hpad (fun _ => .padDShort)
        simp only [if_pos hpad]
        rw [readPadD, hens]
        rfl
      · simp only [if_neg hpad]
        rw [readPadD_mid (by omega) hn]
        show (decryptRest provide (8 * k + 14 + padDLenOf D k) _ >>= _) = _
        rw [decryptRest_mid (le_max_right _ _) (by omega)]
        rfl

/-- Without a VC within `VC_MAX_OFFSET` the call fails. -/
theorem decrypt_mid_inv {r : CryptoProvide × ℕ} {s : Conn}
    (h : decryptB2aHandshakePacket (.mid c D 0 n) = .ok (r, s)) (hn : n ≤ D.length) :
    ∃ k < 77, FirstVc D k := by
  obtain ⟨⟨pos, s'⟩, hfind, -⟩ := Checked.bind_eq_ok.mp h
  exact findVc_inv hfind hn

end Mid

/-! ## Message 4 without leftover padding -/

section Packet

variable {c : Cipher} {cryptoSelect n : ℕ} {padD : Bytes} (later : Bytes)

theorem length_plainPacket : (plainPacket cryptoSelect padD).length = 14 + padD.length := by
  simp only [plainPacket, List.length_append, length_selectFields, vc, List.length_replicate]
  omega

theorem length_packet : (packet c cryptoSelect padD).length = 14 + padD.length := by
  rw [packet, Cipher.applyKeystream, length_xorFrom, length_plainPacket]

/-- What follows the message, deciphered as if it went on. -/
def behindPacket (c : Cipher) (padD later : Bytes) : Bytes :=
  xorFrom c.keystream (c.pos + (14 + padD.length)) later

/-- The message and what follows it are one enciphered stream. -/
theorem packet_append : packet c cryptoSelect padD ++ later =
    xorFrom c.keystream c.pos (plainPacket cryptoSelect padD ++ behindPacket c padD later) := by
  rw [xorFrom_append, length_plainPacket, behindPacket, xorFrom_xorFrom]
  rfl

theorem firstVc_packet : FirstVc (plainPacket cryptoSelect padD ++ later) 0 := by
  refine ⟨fun j hj => absurd hj (Nat.not_lt_zero j), ?_⟩
  rw [Nat.mul_zero, List.drop_zero, plainPacket, List.append_assoc]
  exact List.take_left' rfl

theorem selectOf_packet (hsel : cryptoSelect < 2 ^ 32) :
    selectOf (plainPacket cryptoSelect padD ++ later) 0 = cryptoSelect := by
  have hdrop : (plainPacket cryptoSelect padD ++ later).drop (8 * 0 + 8) =
      toBeBytes 4 cryptoSelect ++ (toBeBytes 2 padD.length ++ padD ++ later) := by
    simp only [plainPacket, selectFields, List.append_assoc]
    exact List.drop_left' rfl
  rw [selectOf, hdrop, fromBeSlice_append _ _ 4 (length_toBeBytes 4 _),
    fromBeSlice_toBeBytes 4 _ (by omega)]

theorem padDLenOf_packet (hpad : padD.length < 2 ^ 16) :
    padDLenOf (plainPacket cryptoSelect padD ++ later) 0 = padD.length := by
  have hdrop : (plainPacket cryptoSelect padD ++ later).drop (8 * 0 + 12) =
      toBeBytes 2 padD.length ++ (padD ++ later) := by
    simp only [plainPacket, selectFields, List.append_assoc]
    rw [← List.append_assoc vc]
    exact List.drop_left' (by simp)
  rw [padDLenOf, hdrop, fromBeSlice_append _ _ 2 (length_toBeBytes 2 _),
    fromBeSlice_toBeBytes 2 _ (by omega)]

/-- **The call on the message**, whatever follows it: a first read of fewer than fourteen
bytes makes it panic, else it ends behind the message, with all that was read deciphered if
RC4 was selected. -/
theorem decrypt_packet (hsel : cryptoSelect < 2 ^ 32) {provide : CryptoProvide}
    (hprovide : selected cryptoSelect = some provide) (hpad : padD.length < 2 ^ 16)
    (hn : n ≤ (packet c cryptoSelect padD ++ later).length) :
    decryptB2aHandshakePacket (.at (packet c cryptoSelect padD ++ later) n c) =
      if n < 14 then .error .panicked
      else .ok ((provide, 14 + padD.length),
        .mid c (plainPacket cryptoSelect padD ++ behindPacket c padD later)
          (if provide = .rc4 then max n (14 + padD.length) else 14 + padD.length)
          (max n (14 + padD.length))) := by
  rw [packet_append, length_xorFrom] at hn
  rw [packet_append, Conn.at_xorFrom, decrypt_mid (by decide) (firstVc_packet _) hn,
    selectOf_packet _ hsel, hprovide, padDLenOf_packet _ hpad]
  have hlen : ¬ (plainPacket cryptoSelect padD ++ behindPacket c padD later).length <
      14 + padD.length := by
    rw [List.length_append, length_plainPacket]
    omega
  simp only [Nat.mul_zero, Nat.zero_add, if_neg hlen]

/-- `Decrypted c cryptoSelect padD skipped r`: the call found the message after `skipped`
other bytes, returned the encryption it selects and the offset of its end, and left the
cipher right after `padD`. -/
def Decrypted (c : Cipher) (cryptoSelect : ℕ) (padD : Bytes) (skipped : ℕ)
    (r : Except Fault ((CryptoProvide × ℕ) × Conn)) : Prop :=
  ∃ provide s, selected cryptoSelect = some provide ∧
    r = .ok ((provide, skipped + (14 + padD.length)), s) ∧
    s.cipher = c.advance (14 + padD.length)

/-- Without leftover padding, fourteen bytes in the buffer are necessary and enough. -/
theorem decrypted_at_iff (hsel : cryptoSelect < 2 ^ 32) (hsupported : selected cryptoSelect ≠ none)
    (hpad : padD.length < 2 ^ 16) (hn : n ≤ (packet c cryptoSelect padD).length) :
    Decrypted c cryptoSelect padD 0
      (decryptB2aHandshakePacket (.at (packet c cryptoSelect padD ++ later) n c)) ↔ 14 ≤ n := by
  have hle : n ≤ (packet c cryptoSelect padD ++ later).length := by
    rw [List.length_append]
    omega
  constructor
  · rintro ⟨provide, s, hprovide, hok, -⟩
    by_contra hlt
    rw [decrypt_packet later hsel hprovide hpad hle, if_pos (by omega)] at hok
    cases hok
  · intro h14
    obtain ⟨provide, hprovide⟩ := Option.ne_none_iff_exists'.mp hsupported
    have hok := decrypt_packet later hsel hprovide hpad hle
    rw [length_packet] at hn
    rw [if_neg (by omega), max_eq_right hn, ite_self] at hok
    exact ⟨provide, _, hprovide, by rw [Nat.zero_add]; exact hok, rfl⟩

end Packet

/-- **Fragmentation of message 4.**  For every cipher, supported `crypto_select` and
`padD`, and every split of the message between the first read and the later ones: the
call returns the selection and the offset, leaves the cipher right after `padD` and does
not panic if and only if the first read brought the fourteen bytes up to `len(padD)`. -/
theorem decrypted_iff (c : Cipher) {cryptoSelect : ℕ} (hsel : cryptoSelect < 2 ^ 32)
    (hsupported : selected cryptoSelect ≠ none) {padD : Bytes} (hpad : padD.length < 2 ^ 16)
    (later : Bytes) {n : ℕ} (hn : n ≤ (packet c cryptoSelect padD).length) :
    Decrypted c cryptoSelect padD 0 (decryptB2aHandshakePacket
      ⟨(packet c cryptoSelect padD ++ later).drop n, c,
        (packet c cryptoSelect padD ++ later).take n⟩) ↔ 14 ≤ n :=
  decrypted_at_iff later hsel hsupported hpad hn

/-- A message of seventeen bytes that arrives in two pieces, cut inside `padD`. -/
theorem decrypted_iff_fifteen :
    Decrypted ⟨fun i => UInt8.ofNat (3 * i), 5⟩ 2 [9, 9, 9] 0 (decryptB2aHandshakePacket
      ⟨(packet ⟨fun i => UInt8.ofNat (3 * i), 5⟩ 2 [9, 9, 9] ++ [7]).drop 15,
        ⟨fun i => UInt8.ofNat (3 * i), 5⟩,
        (packet ⟨fun i => UInt8.ofNat (3 * i), 5⟩ 2 [9, 9, 9] ++ [7]).take 15⟩) :=
  (decrypted_iff ⟨fun i => UInt8.ofNat (3 * i), 5⟩ (by decide) (by decide) (by decide) [7]
    (by decide +kernel)).mpr (by decide)

/-- The same message with a first read of ten bytes: `6 - recv.len()` underflows. -/
theorem decrypt_panicked_ten :
    ¬ Decrypted ⟨fun i => UInt8.ofNat (3 * i), 5⟩ 2 [9, 9, 9] 0 (decryptB2aHandshakePacket
      ⟨(packet ⟨fun i => UInt8.ofNat (3 * i), 5⟩ 2 [9, 9, 9]).drop 10,
        ⟨fun i => UInt8.ofNat (3 * i), 5⟩,
        (packet ⟨fun i => UInt8.ofNat (3 * i), 5⟩ 2 [9, 9, 9]).take 10⟩) := by
  rintro ⟨provide, s, -, hok, -⟩
  have hpanic : decryptB2aHandshakePacket
      ⟨(packet ⟨fun i => UInt8.ofNat (3 * i), 5⟩ 2 [9, 9, 9]).drop 10,
        ⟨fun i => UInt8.ofNat (3 * i), 5⟩,
        (packet ⟨fun i => UInt8.ofNat (3 * i), 5⟩ 2 [9, 9, 9]).take 10⟩ = .error .panicked := by
    rfl
  rw [hpanic] at hok
  cases hok

/-! ## Leftover padding -/

section Consumes

variable {s s' : Conn}

theorem Conn.applyKeystream_cipher {start stop : ℕ} (h : s.applyKeystream start stop = .ok s') :
    s'.cipher.pos + start = s.cipher.pos + stop ∧ start ≤ stop := by
  unfold Conn.applyKeystream at h
  split at h
  · next hle =>
      cases h
      simp only [Cipher.applyKeystream, Cipher.advance, List.length_take, List.length_drop]
      omega
  · cases h

theorem Conn.refill_cipher {n : ℕ} {e : Fault} (h : s.refill n e = .ok s') :
    s'.cipher = s.cipher := by
  unfold Conn.refill at h
  split at h
  · cases h
    rfl
  · cases h

theorem ensureSelect_cipher {pos : ℕ} (h : ensureSelect pos s = .ok s') :
    s'.cipher = s.cipher := by
  unfold ensureSelect at h
  split at h
  · obtain ⟨need, -, hrefill⟩ := Checked.bind_eq_ok.mp h
    exact Conn.refill_cipher hrefill
  · cases h
    rfl

theorem Conn.ensure_cipher {m : ℕ} {e : ℕ → Fault} (h : s.ensure m e = .ok s') :
    s'.cipher = s.cipher := by
  unfold Conn.ensure at h
  split at h
  · obtain ⟨need, -, hrefill⟩ := Checked.bind_eq_ok.mp h
    exact Conn.refill_cipher hrefill
  · cases h
    rfl

/-- Every window of the search consumes its part of the keystream. -/
theorem vcLoop_cipher {k : ℕ} : ∀ {pos pos' : ℕ} {s : Conn}, vcLoop k pos s = .ok (pos', s') →
    pos' < vcMaxOffset → vcMaxOffset ≤ pos + 8 * k →
    s'.cipher.pos + pos = s.cipher.pos + (pos' + 8) := by
  induction k with
  | zero =>
      intro pos pos' s h hlt hle
      cases h
      omega
  | succ k ih =>
      intro pos pos' s h hlt hle
      rw [vcLoop] at h
      split at h
      · obtain ⟨s₁, h₁, h⟩ := Checked.bind_eq_ok.mp h
        obtain ⟨s₂, h₂, h⟩ := Checked.bind_eq_ok.mp h
        have hc₁ := Conn.ensure_cipher h₁
        have hc₂ := Conn.applyKeystream_cipher h₂
        rw [length_vc, hc₁] at hc₂
        split at h
        · cases h
          omega
        · have := ih h hlt (by rw [length_vc]; omega)
          rw [length_vc] at this
          omega
      · cases h
        omega

theorem findVc_cipher {pos : ℕ} (h : findVc s = .ok (pos, s')) :
    s'.cipher.pos = s.cipher.pos + pos := by
  obtain ⟨⟨pos', s₁⟩, hloop, h⟩ := Checked.bind_eq_ok.mp h
  simp only at h
  split at h
  · cases h
  · cases h
    have := vcLoop_cipher hloop (by omega) (by decide)
    rw [length_vc]
    omega

theorem readSelect_cipher {pos : ℕ} {r : ℕ × ℕ} (h : readSelect pos s = .ok (r, s')) :
    s'.cipher.pos = s.cipher.pos + 6 := by
  obtain ⟨s₁, h₁, h⟩ := Checked.bind_eq_ok.mp h
  obtain ⟨s₂, h₂, h⟩ := Checked.bind_eq_ok.mp h
  have hc₁ := ensureSelect_cipher h₁
  have hc₂ := Conn.applyKeystream_cipher h₂
  rw [hc₁, cryptoOptionLen, padLenUnit] at hc₂
  cases h
  omega

theorem readPadD_cipher {pos padDLen : ℕ} (h : readPadD pos padDLen s = .ok s') :
    s'.cipher.pos = s.cipher.pos + padDLen := by
  obtain ⟨s₁, h₁, h⟩ := Checked.bind_eq_ok.mp h
  have hc₁ := Conn.ensure_cipher h₁
  have hc₂ := Conn.applyKeystream_cipher h
  rw [hc₁] at hc₂
  omega

theorem decryptRest_cipher {provide : CryptoProvide} {pos : ℕ}
    (h : decryptRest provide pos s = .ok s') : s.cipher.pos ≤ s'.cipher.pos := by
  unfold decryptRest at h
  split at h
  · have := Conn.applyKeystream_cipher h
    omega
  · cases h
    rfl

/-- **The keystream goes with the offset.**  A call that succeeds has consumed at least
one byte of the keystream for each byte up to the offset it returns. -/
theorem decrypt_cipher {provide : CryptoProvide} {pos : ℕ}
    (h : decryptB2aHandshakePacket s = .ok ((provide, pos), s')) :
    s.cipher.pos + pos ≤ s'.cipher.pos := by
  obtain ⟨⟨pos₁, s₁⟩, h₁, h⟩ := Checked.bind_eq_ok.mp h
  obtain ⟨⟨⟨cryptoSelect, padDLen⟩, s₂⟩, h₂, h⟩ := Checked.bind_eq_ok.mp h
  have hc₁ := findVc_cipher h₁
  have hc₂ := readSelect_cipher h₂
  simp only at h
  split at h
  · cases h
  · obtain ⟨s₃, h₃, h⟩ := Checked.bind_eq_ok.mp h
    obtain ⟨s₄, h₄, h⟩ := Checked.bind_eq_ok.mp h
    have hc₃ := readPadD_cipher h₃
    have hc₄ := decryptRest_cipher h₄
    cases h
    simp only [cryptoOptionLen, padLenUnit]
    omega

end Consumes

/-- **PadB.**  The other side sends its public key, PadB, and then message 4, enciphered
from the position the remote cipher starts at.  Of PadB, `d` bytes have arrived when the
buffer is drained, and `n` bytes of what follows arrive with the first read.  The
handshake finds the message and leaves the cipher right after `padD` if and only if
PadB was drained to its end and the first read brought at least fourteen bytes. -/
theorem resynchronised_iff (remoteCipher : Bytes → Cipher) (yb padB padD : Bytes)
    {cryptoSelect : ℕ} (hyb : yb.length = shareKeyLen) (hpadB : padB.length ≤ padMaxLen)
    (hsel : cryptoSelect < 2 ^ 32) (hsupported : selected cryptoSelect ≠ none)
    (hpad : padD.length < 2 ^ 16) {d n : ℕ} (hd : d ≤ padB.length)
    (hn : n ≤ (padB.drop d ++ packet (remoteCipher yb) cryptoSelect padD).length) :
    Decrypted (remoteCipher yb) cryptoSelect padD (padB.length - d)
        (initHandshake remoteCipher (yb ++ padB.take d)
          (padB.drop d ++ packet (remoteCipher yb) cryptoSelect padD) n) ↔
      d = padB.length ∧ 14 ≤ n := by
  have harrived : (yb ++ padB.take d).length = shareKeyLen + d := by
    rw [List.length_append, hyb, List.length_take, min_eq_left hd]
  have hkey : (yb ++ padB.take d).take shareKeyLen = yb := List.take_left' hyb
  have hinit : initHandshake remoteCipher (yb ++ padB.take d)
      (padB.drop d ++ packet (remoteCipher yb) cryptoSelect padD) n =
      decryptB2aHandshakePacket
        (.at (padB.drop d ++ packet (remoteCipher yb) cryptoSelect padD) n (remoteCipher yb)) := by
    rw [initHandshake, if_neg (by omega), if_neg (by omega), hkey]
    rfl
  rw [hinit]
  by_cases hall : d = padB.length
  · -- PadB is gone: message 4 alone
    rw [hall, List.drop_length, List.nil_append] at hn
    rw [hall, List.drop_length, List.nil_append, Nat.sub_self]
    have h := decrypted_at_iff [] hsel hsupported hpad hn
    rw [List.append_nil] at h
    simpa using h
  · -- the search has consumed keystream for the padding it went over
    refine iff_of_false ?_ (fun h => hall h.1)
    rintro ⟨provide, s, -, hok, hcipher⟩
    have hconsumed := decrypt_cipher hok
    rw [hcipher] at hconsumed
    simp only [Conn.at, Cipher.advance] at hconsumed
    omega

/-- PadB of three bytes, all of which has arrived when the buffer is drained. -/
theorem resynchronised_iff_drained :
    Decrypted ⟨fun i => UInt8.ofNat (3 * i), 5⟩ 2 [9] 0
      (initHandshake (fun _ => ⟨fun i => UInt8.ofNat (3 * i), 5⟩)
        (List.replicate 96 1 ++ [1, 2, 3])
        (packet ⟨fun i => UInt8.ofNat (3 * i), 5⟩ 2 [9]) 14) :=
  (resynchronised_iff (fun _ => ⟨fun i => UInt8.ofNat (3 * i), 5⟩) (List.replicate 96 1)
    [1, 2, 3] [9] (d := 3) (by decide) (by decide) (by decide) (by decide) (by decide)
    (by decide) (by decide +kernel)).mpr (by decide)

/-- One byte of PadB arrives after the buffer was drained, together with message 4. -/
theorem not_resynchronised_one :
    ¬ Decrypted ⟨fun i => UInt8.ofNat (3 * i), 5⟩ 2 [9] 1
      (initHandshake (fun _ => ⟨fun i => UInt8.ofNat (3 * i), 5⟩) (List.replicate 96 1)
        ([7] ++ packet ⟨fun i => UInt8.ofNat (3 * i), 5⟩ 2 [9]) 16) := by
  rintro ⟨provide, s, -, hok, hcipher⟩
  rw [initHandshake, if_neg (by decide), if_neg (by decide)] at hok
  have hconsumed := decrypt_cipher hok
  rw [hcipher] at hconsumed
  exact absurd hconsumed (by decide)

end CryptoHandshake
