/-
# Reading frames through a stream cipher

`FrameReader` polls a parser over a plain byte source.  Here the same parser reads
through a *transport*: anything with a `poll_read` that hands over at most as many
bytes as there is room for.  A transport is characterised by the plain source it
stands for (`Reads`), and polling through it is polling that source
(`Machine.pollVia_eq`).

A stream cipher is a keystream and a position in it; it is applied byte by byte, so
how a text is cut into pieces does not matter (`xorFrom_append`), applying it twice
from the same position gives the text back (`xorFrom_xorFrom`), and a source read
through a cipher stands for the deciphered source (`delivered_decipher`).
-/
import Mathlib.Data.List.Basic
import Dorodoro.FrameReader

namespace FrameReader

variable {ε : Type}

/-! ## Transports -/

/-- One `poll_read` into a buffer with room for `n` bytes. -/
def Source.pollRead (n : ℕ) : Source ε → Poll (Except ε (List UInt8)) × Source ε
  | [] => (.pending, [])
  | .pending :: t => (.pending, t)
  | .eof :: t => (.ready (.ok []), .eof :: t)
  | .failed e :: t => (.ready (.error e), t)
  | .data c :: t =>
      (.ready (.ok (c.take n)), if c = [] then .data c :: t else pushBack (c.drop n) t)

section Via

variable {T : Type} (pollRead : ℕ → T → Poll (Except ε (List UInt8)) × T)

/-- The read loop over a transport.  Each turn reads at least one byte, so the room
left in the buffer bounds the number of turns. -/
def ExactReader.fillVia (closed : ε) : ℕ → ExactReader → T →
    Poll (Except ε (List UInt8)) × ExactReader × T
  | 0, r, t => (.pending, r, t)
  | k + 1, r, t =>
      match pollRead (r.cap - r.buf.length) t with
      | (.pending, t') => (.pending, r, t')
      | (.ready (.error e), t') => (.ready (.error e), r, t')
      | (.ready (.ok c), t') =>
          if c = [] then (.ready (.error closed), r, t')
          else if r.cap ≤ r.buf.length + c.length then (.ready (.ok (r.buf ++ c)), .new 0, t')
          else fillVia closed k { r with buf := r.buf ++ c } t'

/-- One poll of the reader over a transport. -/
def ExactReader.pollVia (closed : ε) (r : ExactReader) (t : T) :
    Poll (Except ε (List UInt8)) × ExactReader × T :=
  if r.cap = 0 then (.ready (.ok []), r, t)
  else r.fillVia pollRead closed (r.cap - r.buf.length) t

variable {S R : Type} (M : Machine S R)

/-- `Machine.pollN` over a transport. -/
def Machine.pollNVia (closed : ε) : ℕ → Fut S → T → Poll (Except ε R) × Fut S × T
  | 0, f, t => (.pending, f, t)
  | k + 1, f, t =>
      match f.reader.pollVia pollRead closed t with
      | (.pending, r, t') => (.pending, ⟨r, f.state⟩, t')
      | (.ready (.error e), r, t') => (.ready (.error e), ⟨r, f.state⟩, t')
      | (.ready (.ok buf), r, t') =>
          match M.next f.state buf with
          | .done a s' => (.ready (.ok a), ⟨r, s'⟩, t')
          | .more n s' => pollNVia closed k ⟨.new n, s'⟩ t'

/-- One poll of the future over a transport. -/
def Machine.pollVia (closed : ε) (f : Fut S) (t : T) : Poll (Except ε R) × Fut S × T :=
  M.pollNVia pollRead closed (M.rank f.state + 1) f t

/-- `Reads pollRead plain`: a transport in state `t` reads what the plain source
`plain t` reads. -/
def Reads (plain : T → Source ε) : Prop :=
  ∀ n t, Source.pollRead n (plain t) = ((pollRead n t).1, plain (pollRead n t).2)

variable {pollRead} {plain : T → Source ε}

/-- The read loop over a transport is the read loop over its source. -/
theorem Reads.fillVia_eq (h : Reads pollRead plain) (closed : ε) {k : ℕ} :
    ∀ (r : ExactReader) (t : T), r.buf.length < r.cap → r.cap - r.buf.length ≤ k →
      r.fill closed (plain t) =
        ((r.fillVia pollRead closed k t).1, (r.fillVia pollRead closed k t).2.1,
          plain (r.fillVia pollRead closed k t).2.2) := by
  induction k with
  | zero => intro r t hlt hk; omega
  | succ k ih =>
      intro r t hlt hk
      have hread := h (r.cap - r.buf.length) t
      rw [ExactReader.fillVia]
      -- the read of the transport, and of its source, by what the source has to offer
      obtain ⟨p, t', hp⟩ : ∃ p t', pollRead (r.cap - r.buf.length) t = (p, t') := ⟨_, _, rfl⟩
      rw [hp] at hread ⊢
      cases hs : plain t with
      | nil =>
          rw [hs, Source.pollRead, Prod.mk.injEq] at hread
          obtain ⟨rfl, hrest⟩ := hread
          simp only [ExactReader.fill, ← hrest]
      | cons ev u =>
          cases ev with
          | pending =>
              rw [hs, Source.pollRead, Prod.mk.injEq] at hread
              obtain ⟨rfl, hrest⟩ := hread
              simp only [ExactReader.fill, ← hrest]
          | eof =>
              rw [hs, Source.pollRead, Prod.mk.injEq] at hread
              obtain ⟨rfl, hrest⟩ := hread
              simp only [ExactReader.fill, ← hrest, if_pos]
          | failed e =>
              rw [hs, Source.pollRead, Prod.mk.injEq] at hread
              obtain ⟨rfl, hrest⟩ := hread
              simp only [ExactReader.fill, ← hrest]
          | data c =>
              rw [hs, Source.pollRead, Prod.mk.injEq] at hread
              obtain ⟨rfl, hrest⟩ := hread
              by_cases hc : c = []
              · subst hc
                simp only [if_pos] at hrest
                simp only [ExactReader.fill, List.take_nil, if_pos, ← hrest]
              rw [if_neg hc] at hrest
              have hpos : 0 < c.length := List.length_pos_of_ne_nil hc
              have htake : c.take (r.cap - r.buf.length) ≠ [] := by
                apply List.ne_nil_of_length_pos
                rw [List.length_take]
                omega
              rw [ExactReader.fill, if_neg hc]
              simp only [if_neg htake, List.length_take]
              by_cases hfit : r.buf.length + c.length < r.cap
              · have hall : c.take (r.cap - r.buf.length) = c :=
                  List.take_of_length_le (by omega)
                have hdrop : c.drop (r.cap - r.buf.length) = [] :=
                  List.drop_of_length_le (by omega)
                rw [hdrop, pushBack, if_pos rfl] at hrest
                rw [if_pos hfit, if_neg (by omega), hall, hrest]
                apply ih
                · simpa using hfit
                · simp only [List.length_append]
                  omega
              · rw [if_neg hfit, if_pos (by omega), hrest]

/-- **Polling through a transport is polling the source it stands for.** -/
theorem Reads.pollNVia_eq (h : Reads pollRead plain) (closed : ε) {k : ℕ} :
    ∀ (f : Fut S) (t : T), f.reader.Open →
      M.pollN closed k f (plain t) =
        ((M.pollNVia pollRead closed k f t).1, (M.pollNVia pollRead closed k f t).2.1,
          plain (M.pollNVia pollRead closed k f t).2.2) := by
  induction k with
  | zero => intro f t _; rfl
  | succ k ih =>
      intro f t hopen
      have hpoll : f.reader.poll closed (plain t) =
          ((f.reader.pollVia pollRead closed t).1, (f.reader.pollVia pollRead closed t).2.1,
            plain (f.reader.pollVia pollRead closed t).2.2) := by
        unfold ExactReader.poll ExactReader.pollVia
        rcases hopen with hlt | ⟨-, hzero⟩
        · rw [if_neg (by omega), if_neg (by omega)]
          exact h.fillVia_eq closed f.reader t hlt le_rfl
        · rw [if_pos hzero, if_pos hzero]
      rw [Machine.pollN, Machine.pollNVia, hpoll]
      rcases f.reader.pollVia pollRead closed t with ⟨_ | (e | buf), r, t'⟩
      · rfl
      · rfl
      · simp only
        cases M.next f.state buf with
        | done a s' => rfl
        | more n s' => exact ih ⟨.new n, s'⟩ t' (ExactReader.open_new n)

@[inherit_doc Reads.pollNVia_eq]
theorem Reads.pollVia_eq (h : Reads pollRead plain) (closed : ε) (f : Fut S) (t : T)
    (hopen : f.reader.Open) :
    M.poll closed f (plain t) =
      ((M.pollVia pollRead closed f t).1, (M.pollVia pollRead closed f t).2.1,
        plain (M.pollVia pollRead closed f t).2.2) :=
  h.pollNVia_eq M closed f t hopen

end Via

end FrameReader

namespace StreamCipher

open FrameReader

/-! ## Stream ciphers -/

/-- A keystream and the position of the next byte in it. -/
structure Cipher where
  keystream : ℕ → UInt8
  pos : ℕ

/-- Combine a text with the keystream from position `p` on. -/
def xorFrom (ks : ℕ → UInt8) : ℕ → List UInt8 → List UInt8
  | _, [] => []
  | p, b :: bs => (b ^^^ ks p) :: xorFrom ks (p + 1) bs

/-- The cipher after `n` more bytes. -/
def Cipher.advance (c : Cipher) (n : ℕ) : Cipher := { c with pos := c.pos + n }

/-- Apply the keystream to a text, in place. -/
def Cipher.applyKeystream (c : Cipher) (bs : List UInt8) : List UInt8 × Cipher :=
  (xorFrom c.keystream c.pos bs, c.advance bs.length)

variable (ks : ℕ → UInt8)

@[simp] theorem xorFrom_nil (p : ℕ) : xorFrom ks p [] = [] := rfl

@[simp] theorem length_xorFrom (p : ℕ) (bs : List UInt8) :
    (xorFrom ks p bs).length = bs.length := by
  induction bs generalizing p with
  | nil => rfl
  | cons b bs ih => simp [xorFrom, ih]

@[simp] theorem xorFrom_eq_nil {p : ℕ} {bs : List UInt8} : xorFrom ks p bs = [] ↔ bs = [] := by
  rw [← List.length_eq_zero_iff, length_xorFrom, List.length_eq_zero_iff]

/-- The pieces of a text are combined one after the other. -/
theorem xorFrom_append (p : ℕ) (as bs : List UInt8) :
    xorFrom ks p (as ++ bs) = xorFrom ks p as ++ xorFrom ks (p + as.length) bs := by
  induction as generalizing p with
  | nil => rfl
  | cons a as ih =>
      rw [List.cons_append, xorFrom, xorFrom, ih, List.length_cons, List.cons_append,
        Nat.add_right_comm, Nat.add_assoc p]

/-- **Synchronised ciphers.**  Enciphering and deciphering from the same position
give the text back. -/
@[simp] theorem xorFrom_xorFrom (p : ℕ) (bs : List UInt8) :
    xorFrom ks p (xorFrom ks p bs) = bs := by
  induction bs generalizing p with
  | nil => rfl
  | cons b bs ih => rw [xorFrom, xorFrom, ih, UInt8.xor_assoc, UInt8.xor_self, UInt8.xor_zero]

theorem take_xorFrom (p n : ℕ) (bs : List UInt8) :
    (xorFrom ks p bs).take n = xorFrom ks p (bs.take n) := by
  induction bs generalizing p n with
  | nil => simp
  | cons b bs ih =>
      cases n with
      | zero => rfl
      | succ n => rw [xorFrom, List.take_succ_cons, List.take_succ_cons, xorFrom, ih]

theorem drop_xorFrom (p n : ℕ) (bs : List UInt8) :
    (xorFrom ks p bs).drop n = xorFrom ks (p + n) (bs.drop n) := by
  induction bs generalizing p n with
  | nil => simp
  | cons b bs ih =>
      cases n with
      | zero => rfl
      | succ n =>
          rw [xorFrom, List.drop_succ_cons, List.drop_succ_cons, ih, Nat.add_right_comm,
            Nat.add_assoc]

/-! ## A source read through a cipher -/

variable {ε : Type}

/-- The source with its bytes deciphered from position `p` on. -/
def decipher : ℕ → Source ε → Source ε
  | _, [] => []
  | p, .data c :: t => .data (xorFrom ks p c) :: decipher (p + c.length) t
  | p, .pending :: t => .pending :: decipher p t
  | p, .eof :: t => .eof :: decipher p t
  | p, .failed e :: t => .failed e :: decipher p t

theorem decipher_pushBack (p : ℕ) (c : List UInt8) (t : Source ε) :
    decipher ks p (pushBack c t) = pushBack (xorFrom ks p c) (decipher ks (p + c.length) t) := by
  unfold pushBack
  by_cases hc : c = []
  · simp [hc]
  · rw [if_neg hc, if_neg (by simpa using hc), decipher]

/-- What the deciphered source delivers is what the source delivers, deciphered. -/
theorem delivered_decipher (p : ℕ) (t : Source ε) :
    delivered (decipher ks p t) = xorFrom ks p (delivered t) := by
  induction t generalizing p with
  | nil => rfl
  | cons ev t ih =>
      cases ev with
      | pending => exact ih p
      | eof => rfl
      | failed e => rfl
      | data c =>
          by_cases hc : c = []
          · simp [decipher, delivered, hc]
          · rw [decipher, delivered_data (by simpa using hc), delivered_data hc, ih,
              xorFrom_append]

/-- Reading through a cipher: the bytes just read are deciphered. -/
def pollRead (n : ℕ) (t : Cipher × Source ε) :
    Poll (Except ε (List UInt8)) × (Cipher × Source ε) :=
  match Source.pollRead n t.2 with
  | (.ready (.ok bs), u) => (.ready (.ok (t.1.applyKeystream bs).1), (t.1.applyKeystream bs).2, u)
  | (.ready (.error e), u) => (.ready (.error e), t.1, u)
  | (.pending, u) => (.pending, t.1, u)

/-- **A source read through a cipher stands for the deciphered source.** -/
theorem reads_decipher :
    Reads (@pollRead ε) (fun t => decipher t.1.keystream t.1.pos t.2) := by
  rintro n ⟨c, t⟩
  unfold pollRead
  cases t with
  | nil => rfl
  | cons ev t =>
      cases ev with
      | pending => rfl
      | eof => rfl
      | failed e => rfl
      | data bs =>
          simp only [decipher, Source.pollRead, Cipher.applyKeystream, Cipher.advance,
            take_xorFrom, xorFrom_eq_nil, drop_xorFrom, Prod.mk.injEq, true_and]
          by_cases hbs : bs = []
          · simp [hbs, decipher]
          rw [if_neg hbs, if_neg hbs, decipher_pushBack, List.length_take, List.length_drop]
          -- either the chunk is longer than the room, or nothing of it is left
          by_cases hn : n ≤ bs.length
          · rw [min_eq_left hn, Nat.add_assoc, Nat.add_sub_cancel' hn]
          · have hdrop : bs.drop n = [] := List.drop_of_length_le (by omega)
            rw [hdrop, xorFrom_nil, xorFrom_nil, min_eq_right (by omega)]
            congr 2
            omega

end StreamCipher
