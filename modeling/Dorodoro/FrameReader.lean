/-
# Reading frames from a fragmented byte source

A general account of the reading pattern "fill a buffer of a known size, then
decide what to read next".

* A `Source` is the list of things a non-blocking read can meet: a chunk of bytes,
  `pending`, the end of the stream, an error.  `delivered` is the byte string the
  source hands over before it ends or fails; the end of the list is the horizon of
  the run (nothing more has happened yet).
* An `ExactReader` fills a buffer of capacity `cap` over any number of polls and
  yields it when it is full, leaving the unread rest of a chunk in the source.
* A `Machine` is a parser driven by full buffers: in state `s` it is given the
  bytes it asked for and either asks for more or is done.  `Machine.poll` is one
  poll of the future built from it; `Machine.parse` is the same parser on a plain
  byte string.

The main results say that polling computes `parse` of the delivered bytes for
every fragmentation: `poll_pending` (a pending poll changes nothing), `poll_ok` (what a
finished poll returned), and `exists_polls_of_parse` (a parse that succeeds is reached by
finitely many polls).
-/
import Mathlib.Data.List.Basic
import Mathlib.Data.Option.Basic
import Mathlib.Tactic.Ring

namespace FrameReader

/-! ## Byte sources -/

/-- What one non-blocking read can meet. -/
inductive ReadEvent (ε : Type) where
  | data (bytes : List UInt8)
  | pending
  | eof
  | failed (e : ε)
  deriving DecidableEq

/-- What a source still has to offer, in order. -/
abbrev Source (ε : Type) := List (ReadEvent ε)

/-- The result of one poll. -/
inductive Poll (α : Type) where
  | pending
  | ready (a : α)
  deriving DecidableEq

variable {ε : Type}

/-- The bytes a source hands over before it ends or fails.  A read of zero bytes
is the end of the stream. -/
def delivered : Source ε → List UInt8
  | [] => []
  | .data c :: t => if c = [] then [] else c ++ delivered t
  | .pending :: t => delivered t
  | .eof :: _ => []
  | .failed _ :: _ => []

@[simp] theorem delivered_nil : delivered ([] : Source ε) = [] := rfl

@[simp] theorem delivered_pending (t : Source ε) : delivered (.pending :: t) = delivered t := rfl

@[simp] theorem delivered_eof (t : Source ε) : delivered (.eof :: t) = [] := rfl

@[simp] theorem delivered_failed (e : ε) (t : Source ε) : delivered (.failed e :: t) = [] := rfl

theorem delivered_data {c : List UInt8} (hc : c ≠ []) (t : Source ε) :
    delivered (.data c :: t) = c ++ delivered t := by
  rw [delivered, if_neg hc]

/-- Put the unread rest of a chunk back in front of the source. -/
def pushBack (c : List UInt8) (t : Source ε) : Source ε :=
  if c = [] then t else .data c :: t

theorem delivered_pushBack (c : List UInt8) (t : Source ε) :
    delivered (pushBack c t) = c ++ delivered t := by
  unfold pushBack
  split
  · next h => simp [h]
  · next h => exact delivered_data h t

theorem length_pushBack_le (c : List UInt8) (t : Source ε) :
    (pushBack c t).length ≤ t.length + 1 := by
  unfold pushBack
  split <;> simp

/-! ## Filling a buffer of a known size -/

/-- A buffer of capacity `cap` holding the bytes read so far. -/
structure ExactReader where
  buf : List UInt8
  cap : ℕ
  deriving DecidableEq

/-- An empty buffer for `n` bytes. -/
def ExactReader.new (n : ℕ) : ExactReader := ⟨[], n⟩

@[simp] theorem ExactReader.new_buf (n : ℕ) : (ExactReader.new n).buf = [] := rfl
@[simp] theorem ExactReader.new_cap (n : ℕ) : (ExactReader.new n).cap = n := rfl

/-- A buffer that is waiting for bytes, or one that needs none. -/
def ExactReader.Open (r : ExactReader) : Prop :=
  r.buf.length < r.cap ∨ (r.buf = [] ∧ r.cap = 0)

theorem ExactReader.open_new (n : ℕ) : (ExactReader.new n).Open := by
  rcases Nat.eq_zero_or_pos n with h | h
  · exact Or.inr ⟨rfl, h⟩
  · exact Or.inl (by simpa using h)

/-- The read loop: read into the spare capacity until the buffer is full, the
source has nothing ready, ends (a read of zero bytes) or fails. -/
def ExactReader.fill (closed : ε) (r : ExactReader) :
    Source ε → Poll (Except ε (List UInt8)) × ExactReader × Source ε
  | [] => (.pending, r, [])
  | .pending :: t => (.pending, r, t)
  | .eof :: t => (.ready (.error closed), r, .eof :: t)
  | .failed e :: t => (.ready (.error e), r, t)
  | .data c :: t =>
      if c = [] then (.ready (.error closed), r, .data c :: t)
      else if r.buf.length + c.length < r.cap then
        fill closed { r with buf := r.buf ++ c } t
      else
        (.ready (.ok (r.buf ++ c.take (r.cap - r.buf.length))), .new 0,
          pushBack (c.drop (r.cap - r.buf.length)) t)

/-- One poll of the reader.  A buffer of capacity zero is full at once. -/
def ExactReader.poll (closed : ε) (r : ExactReader) (t : Source ε) :
    Poll (Except ε (List UInt8)) × ExactReader × Source ε :=
  if r.cap = 0 then (.ready (.ok []), r, t) else r.fill closed t

/-- The three ways the read loop can end. -/
theorem ExactReader.fill_cases (closed : ε) (t : Source ε) :
    ∀ r : ExactReader, r.buf.length < r.cap →
      (∃ r' t', r.fill closed t = (.pending, r', t') ∧ r'.cap = r.cap ∧
        r'.buf.length < r'.cap ∧ r'.buf ++ delivered t' = r.buf ++ delivered t ∧
        (t'.length < t.length ∨ (t' = [] ∧ delivered t' = []))) ∨
      (∃ e r' t', r.fill closed t = (.ready (.error e), r', t') ∧
        (r.buf ++ delivered t).length < r.cap) ∨
      (∃ r' t', r.fill closed t =
          (.ready (.ok ((r.buf ++ delivered t).take r.cap)), r', t') ∧
        r.cap ≤ (r.buf ++ delivered t).length ∧
        delivered t' = (r.buf ++ delivered t).drop r.cap ∧ t'.length ≤ t.length) := by
  induction t with
  | nil =>
      intro r hr
      exact Or.inl ⟨r, [], rfl, rfl, hr, rfl, Or.inr ⟨rfl, rfl⟩⟩
  | cons ev t ih =>
      intro r hr
      cases ev with
      | pending =>
          exact Or.inl ⟨r, t, rfl, rfl, hr, by simp, Or.inl (by simp)⟩
      | eof => exact Or.inr (Or.inl ⟨closed, r, _, rfl, by simpa using hr⟩)
      | failed e => exact Or.inr (Or.inl ⟨e, r, t, rfl, by simpa using hr⟩)
      | data c =>
          by_cases hc : c = []
          · refine Or.inr (Or.inl ⟨closed, r, _, by rw [fill, if_pos hc], ?_⟩)
            simpa [delivered, hc] using hr
          rw [delivered_data hc]
          by_cases hlt : r.buf.length + c.length < r.cap
          · rw [fill, if_neg hc, if_pos hlt]
            have happ : r.buf ++ (c ++ delivered t) = (r.buf ++ c) ++ delivered t := by simp
            rcases ih { r with buf := r.buf ++ c } (by simpa using hlt) with
              ⟨r', t', he, hcap, hlen, hbuf, ht⟩ | ⟨e, r', t', he, hlen⟩ | ⟨r', t', he, hle, hd, ht⟩
            · refine Or.inl ⟨r', t', he, hcap, hlen, by rw [happ]; exact hbuf, ?_⟩
              rcases ht with ht | ht
              · exact Or.inl (by simp; omega)
              · exact Or.inr ht
            · exact Or.inr (Or.inl ⟨e, r', t', he, by rw [happ]; exact hlen⟩)
            · refine Or.inr (Or.inr ⟨r', t', by rw [happ]; exact he, by rw [happ]; exact hle,
                by rw [happ]; exact hd, by simp; omega⟩)
          · rw [fill, if_neg hc, if_neg hlt]
            have htake : r.buf ++ c.take (r.cap - r.buf.length)
                = (r.buf ++ (c ++ delivered t)).take r.cap := by
              rw [List.take_append, List.take_of_length_le (by omega : r.buf.length ≤ r.cap),
                List.take_append_of_le_length (by omega)]
            refine Or.inr (Or.inr ⟨.new 0, pushBack (c.drop (r.cap - r.buf.length)) t,
              by rw [htake], ?_, ?_, ?_⟩)
            · simp only [List.length_append]
              omega
            · rw [delivered_pushBack, List.drop_append,
                List.drop_of_length_le (by omega : r.buf.length ≤ r.cap),
                List.nil_append, List.drop_append_of_le_length (by omega)]
            · simpa using length_pushBack_le _ t

/-! ## Parsers driven by full buffers -/

/-- What a parser does with the bytes it asked for: ask for `n` more in a new
state, or finish. -/
inductive Reply (S R : Type) where
  | more (n : ℕ) (s : S)
  | done (r : R) (s : S)

/-- A parser over full buffers.  `rank` bounds how often it can still ask. -/
structure Machine (S R : Type) where
  next : S → List UInt8 → Reply S R
  rank : S → ℕ
  rank_lt : ∀ {s buf n s'}, next s buf = .more n s' → rank s' < rank s

/-- The future of a parser: the buffer being filled and the parser's state. -/
structure Fut (S : Type) where
  reader : ExactReader
  state : S

namespace Machine

variable {S R : Type} (M : Machine S R)

/-- Poll at most `k` times in a row without returning to the executor. -/
def pollN (closed : ε) : ℕ → Fut S → Source ε → Poll (Except ε R) × Fut S × Source ε
  | 0, f, t => (.pending, f, t)
  | k + 1, f, t =>
      match f.reader.poll closed t with
      | (.pending, r, t') => (.pending, ⟨r, f.state⟩, t')
      | (.ready (.error e), r, t') => (.ready (.error e), ⟨r, f.state⟩, t')
      | (.ready (.ok buf), r, t') =>
          match M.next f.state buf with
          | .done a s' => (.ready (.ok a), ⟨r, s'⟩, t')
          | .more n s' => pollN closed k ⟨.new n, s'⟩ t'

/-- One poll of the future: the parser is re-polled as long as buffers fill up. -/
def poll (closed : ε) (f : Fut S) (t : Source ε) : Poll (Except ε R) × Fut S × Source ε :=
  M.pollN closed (M.rank f.state + 1) f t

/-- The parser on a plain byte string, asking at most `k` times. -/
def parseN : ℕ → ℕ → S → List UInt8 → Option (R × List UInt8)
  | 0, _, _, _ => none
  | k + 1, n, s, bs =>
      if bs.length < n then none
      else
        match M.next s (bs.take n) with
        | .done a _ => some (a, bs.drop n)
        | .more n' s' => parseN k n' s' (bs.drop n)

/-- The parser on a plain byte string, from state `s`, with `n` bytes asked for:
the result and the unread rest, or `none` if the string is too short. -/
def parse (n : ℕ) (s : S) (bs : List UInt8) : Option (R × List UInt8) :=
  M.parseN (M.rank s + 1) n s bs

theorem parseN_succ (k n : ℕ) (s : S) (bs : List UInt8) :
    M.parseN (k + 1) n s bs =
      if bs.length < n then none
      else
        match M.next s (bs.take n) with
        | .done a _ => some (a, bs.drop n)
        | .more n' s' => M.parseN k n' s' (bs.drop n) := rfl

/-- Fuel beyond the rank changes nothing. -/
theorem parseN_congr {k l : ℕ} {s : S} (hk : M.rank s < k) (hl : M.rank s < l) (n : ℕ)
    (bs : List UInt8) : M.parseN k n s bs = M.parseN l n s bs := by
  induction k generalizing l s n bs with
  | zero => omega
  | succ k ih =>
      obtain ⟨l, rfl⟩ : ∃ l', l = l' + 1 := ⟨l - 1, by omega⟩
      rw [parseN_succ, parseN_succ]
      split
      · rfl
      · cases hnext : M.next s (bs.take n) with
        | done a s' => rfl
        | more n' s' =>
            have hlt := M.rank_lt hnext
            exact ih (by omega) (by omega) n' (bs.drop n)

/-- A string shorter than what was asked for does not parse. -/
theorem parse_of_short {n : ℕ} {s : S} {bs : List UInt8} (h : bs.length < n) :
    M.parse n s bs = none := by
  rw [parse, parseN_succ, if_pos h]

/-- The parser finishes on the bytes it asked for. -/
theorem parse_of_done {n : ℕ} {s t : S} {a : R} {bs : List UInt8} (h : n ≤ bs.length)
    (hnext : M.next s (bs.take n) = .done a t) : M.parse n s bs = some (a, bs.drop n) := by
  rw [parse, parseN_succ, if_neg (by omega), hnext]

/-- The parser goes on after the bytes it asked for. -/
theorem parse_of_more {n m : ℕ} {s t : S} {bs : List UInt8} (h : n ≤ bs.length)
    (hnext : M.next s (bs.take n) = .more m t) :
    M.parse n s bs = M.parse m t (bs.drop n) := by
  rw [parse, parseN_succ, if_neg (by omega), hnext]
  exact M.parseN_congr (M.rank_lt hnext) (Nat.lt_succ_self _) m (bs.drop n)

/-- **One turn of the parser.**  A parse succeeds when the bytes asked for are there
and the parser finishes on them, or goes on and succeeds on the rest. -/
theorem parse_eq_some_iff {n : ℕ} {s : S} {bs rest : List UInt8} {a : R} :
    M.parse n s bs = some (a, rest) ↔ n ≤ bs.length ∧
      ((∃ s', M.next s (bs.take n) = .done a s' ∧ bs.drop n = rest) ∨
        ∃ n' s', M.next s (bs.take n) = .more n' s' ∧
          M.parse n' s' (bs.drop n) = some (a, rest)) := by
  rcases Nat.lt_or_ge bs.length n with hlt | hle
  · rw [M.parse_of_short hlt]
    simp only [reduceCtorEq, false_iff, not_and]
    omega
  cases hnext : M.next s (bs.take n) with
  | done b s' =>
      rw [M.parse_of_done hle hnext]
      simp [hle]
  | more n' s' =>
      rw [M.parse_of_more hle hnext]
      simp [hle]

/-- A state in which the parser finishes on whatever it is given. -/
theorem parse_iff_of_done {n : ℕ} {s : S} {r : List UInt8 → R} {t : List UInt8 → S}
    (hdone : ∀ buf, M.next s buf = .done (r buf) (t buf)) {bs rest : List UInt8} {a : R} :
    M.parse n s bs = some (a, rest) ↔ ∃ buf, buf.length = n ∧ bs = buf ++ rest ∧ a = r buf := by
  rw [M.parse_eq_some_iff]
  simp only [hdone, Reply.done.injEq, reduceCtorEq, false_and, exists_false, or_false]
  constructor
  · rintro ⟨hle, s', ⟨rfl, -⟩, rfl⟩
    exact ⟨bs.take n, List.length_take_of_le hle, (List.take_append_drop n bs).symm, rfl⟩
  · rintro ⟨buf, rfl, rfl, rfl⟩
    rw [List.take_left, List.drop_left, List.length_append]
    exact ⟨Nat.le_add_right _ _, _, ⟨rfl, rfl⟩, rfl⟩

/-- A state in which the parser goes on after whatever it is given. -/
theorem parse_iff_of_more {n : ℕ} {s : S} {m : List UInt8 → ℕ} {t : List UInt8 → S}
    (hmore : ∀ buf, M.next s buf = .more (m buf) (t buf)) {bs rest : List UInt8} {a : R} :
    M.parse n s bs = some (a, rest) ↔ ∃ buf tail, buf.length = n ∧ bs = buf ++ tail ∧
      M.parse (m buf) (t buf) tail = some (a, rest) := by
  rw [M.parse_eq_some_iff]
  simp only [hmore, Reply.more.injEq, reduceCtorEq, false_and, exists_false, false_or]
  constructor
  · rintro ⟨hle, n', s', ⟨rfl, rfl⟩, hrest⟩
    exact ⟨bs.take n, bs.drop n, List.length_take_of_le hle, (List.take_append_drop n bs).symm,
      hrest⟩
  · rintro ⟨buf, tail, rfl, rfl, hrest⟩
    rw [List.take_left, List.drop_left, List.length_append]
    exact ⟨Nat.le_add_right _ _, _, _, ⟨rfl, rfl⟩, hrest⟩

/-- What the parser will make of the bytes in the buffer and those still to come. -/
def view (f : Fut S) (t : Source ε) : Option (R × List UInt8) :=
  M.parse f.reader.cap f.state (f.reader.buf ++ delivered t)

theorem view_new (n : ℕ) (s : S) (t : Source ε) :
    M.view ⟨.new n, s⟩ t = M.parse n s (delivered t) := by
  simp [view]

/-- **One poll, in terms of the delivered bytes.**  A pending poll leaves the
outcome unchanged and has consumed an event (or nothing can come any more); an
error means that the bytes ran out; a result is the result of the parser on the
delivered bytes, and exactly its bytes were consumed. -/
theorem pollN_cases (closed : ε) {k : ℕ} :
    ∀ (f : Fut S) (t : Source ε), f.reader.Open → M.rank f.state < k →
      (∃ f' t', M.pollN closed k f t = (.pending, f', t') ∧ f'.reader.Open ∧
        M.view f' t' = M.view f t ∧ (t'.length < t.length ∨ M.view f t = none)) ∨
      (∃ e f' t', M.pollN closed k f t = (.ready (.error e), f', t') ∧ M.view f t = none) ∨
      (∃ a f' t', M.pollN closed k f t = (.ready (.ok a), f', t') ∧
        M.view f t = some (a, delivered t')) := by
  induction k with
  | zero => intro f t _ hk; omega
  | succ k ih =>
      intro f t hopen hk
      -- a full buffer is handed to the parser, which finishes or is polled again
      have hfull : ∀ (r : ExactReader) (t' : Source ε) (buf : List UInt8),
          f.reader.poll closed t = (.ready (.ok buf), r, t') →
          f.reader.cap ≤ (f.reader.buf ++ delivered t).length →
          buf = (f.reader.buf ++ delivered t).take f.reader.cap →
          delivered t' = (f.reader.buf ++ delivered t).drop f.reader.cap →
          t'.length ≤ t.length →
          (∃ f' t', M.pollN closed (k + 1) f t = (.pending, f', t') ∧ f'.reader.Open ∧
            M.view f' t' = M.view f t ∧ (t'.length < t.length ∨ M.view f t = none)) ∨
          (∃ e f' t', M.pollN closed (k + 1) f t = (.ready (.error e), f', t') ∧
            M.view f t = none) ∨
          (∃ a f' t', M.pollN closed (k + 1) f t = (.ready (.ok a), f', t') ∧
            M.view f t = some (a, delivered t')) := by
        intro r t' buf hpoll hle hbuf hdel hlen
        subst hbuf
        cases hnext : M.next f.state ((f.reader.buf ++ delivered t).take f.reader.cap) with
        | done a s' =>
            refine Or.inr (Or.inr ⟨a, ⟨r, s'⟩, t', by rw [pollN, hpoll]; simp only [hnext], ?_⟩)
            rw [view, M.parse_of_done hle hnext, hdel]
        | more n s' =>
            have hview : M.view ⟨.new n, s'⟩ t' = M.view f t := by
              rw [view_new, hdel, view, M.parse_of_more hle hnext]
            have hpollN : M.pollN closed (k + 1) f t = M.pollN closed k ⟨.new n, s'⟩ t' := by
              rw [pollN, hpoll]
              simp only [hnext]
            have hlt := M.rank_lt hnext
            rw [hpollN, ← hview]
            rcases ih ⟨.new n, s'⟩ t' (ExactReader.open_new n) (by simp only; omega) with
              ⟨f', t'', h1, h2, h3, h4⟩ | h | h
            · refine Or.inl ⟨f', t'', h1, h2, h3, ?_⟩
              rcases h4 with h4 | h4
              · exact Or.inl (by omega)
              · exact Or.inr h4
            · exact Or.inr (Or.inl h)
            · exact Or.inr (Or.inr h)
      rcases hopen with hlt | ⟨hnil, hzero⟩
      · have hpoll : f.reader.poll closed t = f.reader.fill closed t := by
          rw [ExactReader.poll, if_neg (by omega)]
        rcases f.reader.fill_cases closed t hlt with
          ⟨r', t', he, hcap, hlen, hbuf, ht⟩ | ⟨e, r', t', he, hlen⟩ | ⟨r', t', he, hle, hd, ht⟩
        · refine Or.inl ⟨⟨r', f.state⟩, t', by rw [pollN, hpoll, he], Or.inl hlen, ?_, ?_⟩
          · simp only [view, hcap, hbuf]
          · rcases ht with ht | ⟨-, hdel⟩
            · exact Or.inl ht
            · refine Or.inr (M.parse_of_short ?_)
              rw [← hbuf, hdel, List.append_nil, ← hcap]
              exact hlen
        · exact Or.inr (Or.inl ⟨e, ⟨r', f.state⟩, t', by rw [pollN, hpoll, he],
            M.parse_of_short hlen⟩)
        · exact hfull r' t' _ (hpoll.trans he) hle rfl hd ht
      · refine hfull f.reader t [] (by rw [ExactReader.poll, if_pos hzero]) (by omega) ?_ ?_ le_rfl
        · simp [hzero]
        · simp [hnil, hzero]

section Poll

variable {closed : ε} {f f' : Fut S} {t t' : Source ε}

/-- A pending poll changes neither the outcome nor the openness of the buffer. -/
theorem poll_pending (hopen : f.reader.Open) (h : M.poll closed f t = (.pending, f', t')) :
    f'.reader.Open ∧ M.view f' t' = M.view f t := by
  rcases M.pollN_cases closed f t hopen (Nat.lt_succ_self _) with
    ⟨g, u, he, h1, h2, -⟩ | ⟨e, g, u, he, -⟩ | ⟨a, g, u, he, -⟩ <;>
    rw [poll, he] at h <;> simp only [Prod.mk.injEq, reduceCtorEq, false_and] at h
  obtain ⟨-, rfl, rfl⟩ := h
  exact ⟨h1, h2⟩

/-- A result is the result of the parser on the delivered bytes. -/
theorem poll_ok {a : R} (hopen : f.reader.Open)
    (h : M.poll closed f t = (.ready (.ok a), f', t')) :
    M.view f t = some (a, delivered t') := by
  rcases M.pollN_cases closed f t hopen (Nat.lt_succ_self _) with
    ⟨g, u, he, -⟩ | ⟨e, g, u, he, -⟩ | ⟨b, g, u, he, hv⟩ <;>
    rw [poll, he] at h <;> simp [Prod.mk.injEq] at h
  obtain ⟨rfl, -, rfl⟩ := h
  exact hv

end Poll

/-- `Polls M closed n f t f' t'`: `n` pending polls in a row lead from `(f, t)` to
`(f', t')`. -/
inductive Polls (closed : ε) : ℕ → Fut S → Source ε → Fut S → Source ε → Prop
  | refl (f : Fut S) (t : Source ε) : Polls closed 0 f t f t
  | step {n : ℕ} {f f₁ f' : Fut S} {t t₁ t' : Source ε} :
      M.poll closed f t = (.pending, f₁, t₁) → Polls closed n f₁ t₁ f' t' →
      Polls closed (n + 1) f t f' t'

/-- **A parse that succeeds is reached.**  If the delivered bytes parse, finitely
many pending polls are followed by one that returns the result. -/
theorem exists_polls_of_view (closed : ε) {a : R} {rest : List UInt8} :
    ∀ (m : ℕ) (f : Fut S) (t : Source ε), t.length ≤ m → f.reader.Open →
      M.view f t = some (a, rest) →
      ∃ n f₁ t₁ f' t', M.Polls closed n f t f₁ t₁ ∧
        M.poll closed f₁ t₁ = (.ready (.ok a), f', t') ∧ delivered t' = rest := by
  intro m
  induction m using Nat.strong_induction_on with
  | _ m ih =>
      intro f t ht hopen hv
      rcases M.pollN_cases closed f t hopen (Nat.lt_succ_self _) with
        ⟨g, u, he, h1, h2, h3⟩ | ⟨e, g, u, he, hn⟩ | ⟨b, g, u, he, hb⟩
      · rcases h3 with h3 | h3
        · -- an event was consumed
          obtain ⟨n, f₁, t₁, f', t', hp, hr, hd⟩ :=
            ih u.length (h3.trans_le ht) g u le_rfl h1 (h2.trans hv)
          exact ⟨n + 1, f₁, t₁, f', t', .step he hp, hr, hd⟩
        · rw [hv] at h3
          simp at h3
      · rw [hv] at hn
        simp at hn
      · rw [hv] at hb
        simp only [Option.some.injEq, Prod.mk.injEq] at hb
        obtain ⟨rfl, rfl⟩ := hb
        exact ⟨0, f, t, g, u, .refl f t, he, rfl⟩

end Machine

end FrameReader
