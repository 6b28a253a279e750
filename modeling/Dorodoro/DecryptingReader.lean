/-
# One buffer, several polls

`OwnedReadHalfExt::poll_read` (`doro/src/bt/socket.rs`) on a buffer in which bytes may already
stand.  The inner reader puts what it reads behind them, and the wrapper decrypts
`buf.filled_mut()`, which is all of the buffer.

* `pollReadBuf` is the function; with an empty buffer it is `OwnedReadHalfExt.pollRead`, which is
  how `ReaderHandle::poll` calls it (`pollReadBuf_uninit`);
* `Contract` is what a reader owes its caller in one poll, and `contract_iff` says when it is met;
* `poll_read_contract` adds what follows for a caller who polls and takes bytes away in any order.
-/
import Dorodoro.PeerWire
import Dorodoro.Transition

open FrameReader StreamCipher

namespace PeerWire

/-- `ReadBuf`: the bytes that stand in it, and how many more it takes. -/
structure ReadBuf where
  filled : Bytes
  remaining : ℕ

/-- `ReadBuf::uninit`. -/
def ReadBuf.uninit (room : ℕ) : ReadBuf := ⟨[], room⟩

/-- `ReadBuf::put_slice`. -/
def ReadBuf.putSlice (buf : ReadBuf) (bs : Bytes) : ReadBuf :=
  ⟨buf.filled ++ bs, buf.remaining - bs.length⟩

/-- `poll_read` of the inner reader: what it reads comes behind what stands in the buffer. -/
def innerPollRead (t : Source IoErrorKind) (buf : ReadBuf) :
    Poll (Except IoErrorKind Unit) × ReadBuf × Source IoErrorKind :=
  match Source.pollRead buf.remaining t with
  | (.ready (.ok bs), t') => (.ready (.ok ()), buf.putSlice bs, t')
  | (.ready (.error e), t') => (.ready (.error e), buf, t')
  | (.pending, t') => (.pending, buf, t')

/-- `OwnedReadHalfExt::poll_read`. -/
def OwnedReadHalfExt.pollReadBuf (io : OwnedReadHalfExt) (buf : ReadBuf) :
    Poll (Except IoErrorKind Unit) × ReadBuf × OwnedReadHalfExt :=
  match innerPollRead io.inner buf with
  | (.ready (.ok ()), buf', t') =>
      match io.crypto with
      | .plaintext => (.ready (.ok ()), buf', ⟨t', .plaintext⟩)
      | .rc4 c =>
          -- `buf.filled_mut()` is more than what was just read
          (.ready (.ok ()), { buf' with filled := (c.applyKeystream buf'.filled).1 },
            ⟨t', .rc4 (c.applyKeystream buf'.filled).2⟩)
  | (.ready (.error e), buf', t') => (.ready (.error e), buf', ⟨t', io.crypto⟩)
  | (.pending, buf', t') => (.pending, buf', ⟨t', io.crypto⟩)

/-! ## The contract -/

/-- The bytes the inner reader adds in a poll. -/
def newBytes (t : Source IoErrorKind) (buf : ReadBuf) : Bytes :=
  match (Source.pollRead buf.remaining t).1 with
  | .ready (.ok bs) => bs
  | _ => []

/-- What a poll owes the caller: the bytes that stood in the buffer are left as they are, the new
ones are decrypted, and the cipher has moved over these only. -/
structure Contract (c : Cipher) (t : Source IoErrorKind) (buf : ReadBuf) : Prop where
  filled : (OwnedReadHalfExt.pollReadBuf ⟨t, .rc4 c⟩ buf).2.1.filled =
    buf.filled ++ xorFrom c.keystream c.pos (newBytes t buf)
  cipher : (OwnedReadHalfExt.pollReadBuf ⟨t, .rc4 c⟩ buf).2.2.crypto =
    .rc4 (c.advance (newBytes t buf).length)

/-- The inner reader returns `Poll::Ready(Ok(()))`. -/
def ReadsOk (t : Source IoErrorKind) (buf : ReadBuf) : Prop :=
  (innerPollRead t buf).1 = .ready (.ok ())

/-- A successful read meets an empty buffer. -/
def EmptyWhenRead (t : Source IoErrorKind) (buf : ReadBuf) : Prop :=
  ReadsOk t buf → buf.filled = []

variable {c : Cipher} {t : Source IoErrorKind} {buf : ReadBuf}

@[simp] theorem Cipher.advance_zero (c : Cipher) : c.advance 0 = c := rfl

/-- A poll that reads: the whole buffer is decrypted. -/
theorem pollReadBuf_of_readsOk (h : ReadsOk t buf) :
    (OwnedReadHalfExt.pollReadBuf ⟨t, .rc4 c⟩ buf).2.1.filled =
        xorFrom c.keystream c.pos (buf.filled ++ newBytes t buf) ∧
      (OwnedReadHalfExt.pollReadBuf ⟨t, .rc4 c⟩ buf).2.2.crypto =
        .rc4 (c.advance (buf.filled.length + (newBytes t buf).length)) := by
  obtain ⟨⟨p, t'⟩, hs⟩ : ∃ x, Source.pollRead buf.remaining t = x := ⟨_, rfl⟩
  simp only [ReadsOk, innerPollRead, OwnedReadHalfExt.pollReadBuf, newBytes, hs] at h ⊢
  match p with
  | .ready (.ok bs) =>
      refine ⟨rfl, ?_⟩
      show Crypto.rc4 (c.advance (buf.filled ++ bs).length) = _
      rw [List.length_append]
  | .ready (.error e) => cases h
  | .pending => cases h

/-- A poll that does not read leaves everything. -/
theorem pollReadBuf_of_not_readsOk (h : ¬ ReadsOk t buf) :
    newBytes t buf = [] ∧ (OwnedReadHalfExt.pollReadBuf ⟨t, .rc4 c⟩ buf).2.1 = buf ∧
      (OwnedReadHalfExt.pollReadBuf ⟨t, .rc4 c⟩ buf).2.2.crypto = .rc4 c := by
  obtain ⟨⟨p, t'⟩, hs⟩ : ∃ x, Source.pollRead buf.remaining t = x := ⟨_, rfl⟩
  simp only [ReadsOk, innerPollRead, OwnedReadHalfExt.pollReadBuf, newBytes, hs] at h ⊢
  match p with
  | .ready (.ok bs) => exact absurd rfl h
  | .ready (.error e) => exact ⟨rfl, rfl, rfl⟩
  | .pending => exact ⟨rfl, rfl, rfl⟩

/-- **One poll.**  The contract is met exactly if a successful read finds the buffer empty: else
the cipher moves over the bytes that stood there as well. -/
theorem contract_iff : Contract c t buf ↔ EmptyWhenRead t buf := by
  constructor
  · intro h hread
    have hmoved := (pollReadBuf_of_readsOk (c := c) hread).2.symm.trans h.cipher
    have hpos : c.pos + (buf.filled.length + (newBytes t buf).length) =
        c.pos + (newBytes t buf).length := congrArg Cipher.pos (Crypto.rc4.inj hmoved)
    exact List.length_eq_zero_iff.mp (by omega)
  · intro h
    by_cases hread : ReadsOk t buf
    · obtain ⟨hfilled, hcipher⟩ := pollReadBuf_of_readsOk (c := c) hread
      have hempty := h hread
      rw [hempty, List.nil_append] at hfilled
      rw [hempty, List.length_nil, Nat.zero_add] at hcipher
      exact ⟨by rw [hfilled, hempty, List.nil_append], hcipher⟩
    · obtain ⟨hnew, hbuf, hcipher⟩ := pollReadBuf_of_not_readsOk (c := c) hread
      exact ⟨by rw [hbuf, hnew, xorFrom_nil, List.append_nil], by rw [hcipher, hnew]; rfl⟩

/-- Without encryption the prefix is never touched. -/
theorem pollReadBuf_plaintext (t : Source IoErrorKind) (buf : ReadBuf) :
    (OwnedReadHalfExt.pollReadBuf ⟨t, .plaintext⟩ buf).2.1.filled =
      buf.filled ++ newBytes t buf := by
  obtain ⟨⟨p, t'⟩, hs⟩ : ∃ x, Source.pollRead buf.remaining t = x := ⟨_, rfl⟩
  simp only [innerPollRead, OwnedReadHalfExt.pollReadBuf, newBytes, hs]
  match p with
  | .ready (.ok bs) => rfl
  | .ready (.error e) => exact (List.append_nil _).symm
  | .pending => exact (List.append_nil _).symm

/-- **A buffer for each poll**, as in `ReaderHandle::poll`: the bytes read stand alone in it. -/
theorem pollReadBuf_uninit (io : OwnedReadHalfExt) (n : ℕ) :
    io.pollRead n =
      match io.pollReadBuf (.uninit n) with
      | (.ready (.ok ()), buf, io') => (.ready (.ok buf.filled), io')
      | (.ready (.error e), _, io') => (.ready (.error e), io')
      | (.pending, _, io') => (.pending, io') := by
  obtain ⟨t, crypto⟩ := io
  obtain ⟨⟨p, t'⟩, hs⟩ : ∃ x, Source.pollRead n t = x := ⟨_, rfl⟩
  have hs' : Source.pollRead (ReadBuf.uninit n).remaining t = (p, t') := hs
  cases crypto with
  | plaintext =>
      simp only [OwnedReadHalfExt.pollRead, OwnedReadHalfExt.pollReadBuf, innerPollRead, hs, hs']
      rcases p with _ | (e | bs)
      · rfl
      · rfl
      · rfl
  | rc4 c =>
      simp only [OwnedReadHalfExt.pollRead, StreamCipher.pollRead, OwnedReadHalfExt.pollReadBuf,
        innerPollRead, hs, hs']
      rcases p with _ | (e | bs)
      · rfl
      · rfl
      · rfl

/-! ## A caller -/

/-- A caller with its buffer, the bytes it has taken out of it and of those before, and the bytes
the inner reader has added so far. -/
structure Caller where
  io : OwnedReadHalfExt
  buf : ReadBuf
  taken : Bytes
  received : Bytes

/-- What a caller does. -/
inductive CallerAct where
  /-- Poll with the buffer as it is. -/
  | poll
  /-- Take the bytes away and go on with an empty buffer. -/
  | take (room : ℕ)
  deriving DecidableEq

namespace Caller

/-- A caller with an empty buffer. -/
def new (io : OwnedReadHalfExt) (room : ℕ) : Caller := ⟨io, .uninit room, [], []⟩

/-- The transition function. -/
def step (s : Caller) : CallerAct → Option Caller
  | .poll => some ⟨(s.io.pollReadBuf s.buf).2.2, (s.io.pollReadBuf s.buf).2.1, s.taken,
      s.received ++ newBytes s.io.inner s.buf⟩
  | .take room => some { s with buf := .uninit room, taken := s.taken ++ s.buf.filled }

/-- The bytes delivered so far. -/
def delivered (s : Caller) : Bytes := s.taken ++ s.buf.filled

/-- Every successful read of the run finds the buffer empty. -/
def PollsEmpty (s : Caller) : CallerAct → Prop
  | .poll => EmptyWhenRead s.io.inner s.buf
  | .take _ => True

/-- The bytes delivered are the bytes received, decrypted, and the cipher stands behind them. -/
structure InStep (c : Cipher) (s : Caller) : Prop where
  delivered_eq : s.delivered = xorFrom c.keystream c.pos s.received
  crypto_eq : s.io.crypto = .rc4 (c.advance s.received.length)

theorem InStep.poll {s : Caller} (h : InStep c s) (hempty : EmptyWhenRead s.io.inner s.buf) :
    InStep c ⟨(s.io.pollReadBuf s.buf).2.2, (s.io.pollReadBuf s.buf).2.1, s.taken,
      s.received ++ newBytes s.io.inner s.buf⟩ := by
  obtain ⟨⟨t, crypto⟩, buf, taken, received⟩ := s
  obtain ⟨hdelivered, hcrypto⟩ := h
  have hcrypto : crypto = .rc4 (c.advance received.length) := hcrypto
  subst hcrypto
  obtain ⟨hfilled, hcipher⟩ := (contract_iff (c := c.advance received.length)).mpr hempty
  constructor
  · show taken ++ (OwnedReadHalfExt.pollReadBuf ⟨t, _⟩ buf).2.1.filled = xorFrom _ _ (received ++ _)
    rw [hfilled, ← List.append_assoc, xorFrom_append]
    exact congrArg (· ++ xorFrom c.keystream (c.pos + received.length) (newBytes t buf)) hdelivered
  · show (OwnedReadHalfExt.pollReadBuf ⟨t, _⟩ buf).2.2.crypto = _
    rw [hcipher, List.length_append, Cipher.advance, Cipher.advance, Cipher.advance,
      Nat.add_assoc]

/-- Taking the bytes away delivers nothing new. -/
theorem InStep.take {s : Caller} (h : InStep c s) (room : ℕ) :
    InStep c { s with buf := .uninit room, taken := s.taken ++ s.buf.filled } := by
  refine ⟨?_, h.crypto_eq⟩
  rw [← h.delivered_eq]
  exact List.append_nil _

theorem InStep.step {s s' : Caller} {a : CallerAct} (h : InStep c s) (hguard : s.PollsEmpty a)
    (hstep : s.step a = some s') : InStep c s' := by
  cases a with
  | poll =>
      cases hstep
      exact h.poll hguard
  | take room =>
      cases hstep
      exact h.take room

end Caller

/-- **When the reader keeps the contract.**  For every cipher, every inner reader and every
buffer, a poll keeps it if and only if a successful read finds the buffer empty; and for every
caller whose successful reads all do, however it takes the bytes away, the bytes delivered are
the bytes received, decrypted. -/
theorem poll_read_contract (c : Cipher) (t : Source IoErrorKind) :
    (∀ buf, Contract c t buf ↔ EmptyWhenRead t buf) ∧
      ∀ (room : ℕ) (as : List CallerAct) (s : Caller),
        Transition.Run Caller.step Caller.PollsEmpty (.new ⟨t, .rc4 c⟩ room) as s →
        s.delivered = xorFrom c.keystream c.pos s.received := by
  refine ⟨fun buf => contract_iff, fun room as s hrun => ?_⟩
  have hstart : Caller.InStep c (.new ⟨t, .rc4 c⟩ room) := ⟨rfl, rfl⟩
  have hend : Caller.InStep c s :=
    hrun.invariant hstart fun _ _ _ hI hguard hs => hI.step hguard hs
  exact hend.delivered_eq

/-- A keystream of which no byte is zero. -/
def countingCipher : Cipher := ⟨fun i => UInt8.ofNat (i + 1), 0⟩

/-- Two bytes that arrive one after the other. -/
def twoArrivals : Source IoErrorKind := [.data [1], .data [2]]

/-- Polling and taking the byte away, twice. -/
theorem poll_read_contract_taken :
    (∀ buf, Contract countingCipher twoArrivals buf ↔ EmptyWhenRead twoArrivals buf) ∧
      ∃ s : Caller,
        Transition.Run Caller.step Caller.PollsEmpty (.new ⟨twoArrivals, .rc4 countingCipher⟩ 2)
          [.poll, .take 2, .poll] s ∧
        s.received = [1, 2] ∧ s.delivered = xorFrom countingCipher.keystream 0 [1, 2] := by
  have h₁ : Transition.Run Caller.step Caller.PollsEmpty
      (.new ⟨twoArrivals, .rc4 countingCipher⟩ 2) [.poll] _ := .single (fun _ => rfl) rfl
  have h₂ : Transition.Run Caller.step Caller.PollsEmpty
      (.new ⟨twoArrivals, .rc4 countingCipher⟩ 2) [.poll, .take 2] _ := .tail h₁ trivial rfl
  have h₃ : Transition.Run Caller.step Caller.PollsEmpty
      (.new ⟨twoArrivals, .rc4 countingCipher⟩ 2) [.poll, .take 2, .poll] _ :=
    .tail h₂ (fun _ => rfl) rfl
  obtain ⟨hone, hrun⟩ := poll_read_contract countingCipher twoArrivals
  exact ⟨hone, _, h₃, rfl, hrun 2 _ _ h₃⟩

/-- Polling twice with one buffer: the second poll decrypts the first byte again, with the byte of
the keystream that belongs to the second. -/
theorem poll_read_prefix_decrypted_again :
    ¬ (∀ (c : Cipher) (t : Source IoErrorKind) (buf : ReadBuf), Contract c t buf) ∧
      ∃ s : Caller,
        Transition.FreeRun Caller.step (.new ⟨twoArrivals, .rc4 countingCipher⟩ 2) [.poll, .poll] s ∧
        s.received = [1, 2] ∧ s.delivered = [2, 1] ∧
        xorFrom countingCipher.keystream 0 [1, 2] = [0, 0] := by
  constructor
  · intro h
    have hempty := contract_iff.mp (h (countingCipher.advance 1) [.data [2]] ⟨[0], 1⟩) rfl
    exact List.cons_ne_nil 0 [] hempty
  · exact ⟨_, .of_exec rfl, rfl, rfl, rfl⟩

end PeerWire
