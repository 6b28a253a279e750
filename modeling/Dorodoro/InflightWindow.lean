/-
# The in-flight window of a peer (`bt/base_peer/rate_control/probe.rs`)

The dashboard of an address outlives its connections: `Dashbord.inflight` is a wrapping `u32`
that `request_piece` increments after it has queued a request, that every `Piece` message read
decrements, and that a reconnect clears.

* `Window` is the dashboard together with the connections made so far, the request loop of each
  of them and the requests they sent;
* a connection is named by its number; tasks of earlier connections may still run;
* `Accounted` is the property: the counter has not wrapped and is at most the number of
  unanswered requests of the current connection;
* `Solicited` is the condition on a step, `accounted_of_run` the result for runs,
  `unsolicited_wraps` a run that breaks the property.
-/
import Dorodoro.Counting
import Dorodoro.Transition
import Mathlib.Algebra.Group.Nat.Defs
import Mathlib.Logic.Function.Basic

open Counting Function Transition

namespace InflightWindow

/-! ## The dashboard -/

/-- `UNIT`, and the gains of the window. -/
def unit : ℕ := 2 ^ 8

@[inherit_doc unit] def cwndHightGain : ℕ := unit * 5 / 4

@[inherit_doc unit] def cwndLowGain : ℕ := unit * 4 / 5

@[inherit_doc unit] def startupGain : ℕ := unit * 3 / 2

/-- `MIN_CWND` and `MAX_CWND`. -/
def minCwnd : ℕ := 4

@[inherit_doc minCwnd] def maxCwnd : ℕ := 25

/-- `Probe::update_cwnd`. -/
def updateCwnd (cwnd gain : ℕ) : ℕ :=
  let cwnd :=
    if gain = cwndHightGain ∨ gain = startupGain then cwnd + 2
    else if gain = cwndLowGain then cwnd - 1
    else cwnd
  max minCwnd (min maxCwnd (cwnd * gain / 2 ^ 8))

/-- A request for a block, by piece index and offset. -/
structure Request where
  conn : ℕ
  block : ℕ × ℕ
  counted : Bool
  answered : Bool
  deriving DecidableEq

/-- What a task in `request_piece` has done; it holds the lock of its peer unless idle. -/
inductive Task where
  | idle
  /-- At the head of the loop. -/
  | looping
  /-- `has_send_window_space` was true. -/
  | checked
  /-- The request is queued and not yet counted. -/
  | queued (request : ℕ)
  deriving DecidableEq

/-- One connection: its status, the tasks that wait for the lock, and the task that holds it. -/
structure Link where
  unchoked : Bool
  waiting : ℕ
  task : Task
  deriving DecidableEq

/-- The dashboard and its connections; `conn` is the number of the current connection, and
`wrapped` notes whether `inflight` was decremented at zero. -/
structure Window where
  inflight : ℕ
  cwnd : ℕ
  conn : ℕ
  link : ℕ → Link
  requests : List Request
  wrapped : Bool

/-- A new dashboard and its first connection. -/
def Window.new : Window := ⟨0, minCwnd, 0, fun _ => ⟨false, 0, .idle⟩, [], false⟩

/-- `u32::MAX`. -/
def u32Max : ℕ := 2 ^ 32 - 1

/-- `fetch_add(1)`, which wraps. -/
def fetchAdd (x : ℕ) : ℕ := if x = u32Max then 0 else x + 1

/-- `fetch_sub(1)`, which wraps. -/
def fetchSub (x : ℕ) : ℕ := if x = 0 then u32Max else x - 1

/-- `Dashbord::send`. -/
def Window.send (s : Window) : Window := { s with inflight := fetchAdd s.inflight }

/-- `Probe::inflight_dec`. -/
def Window.inflightDec (s : Window) : Window :=
  { s with
    inflight := fetchSub s.inflight
    wrapped := s.wrapped || s.inflight == 0 }

/-- `Dashbord::clear_ing`. -/
def Window.clearIng (s : Window) : Window := { s with inflight := 0, cwnd := minCwnd }

/-- `Probe::ack`; `gain` is the gain of `update_gain`, when the sample is due. -/
def Window.ack (s : Window) (gain : Option ℕ) : Window :=
  match gain with
  | some gain => { s.inflightDec with cwnd := updateCwnd s.cwnd gain }
  | none => s.inflightDec

/-- `Peer::has_send_window_space`. -/
def Window.hasSendWindowSpace (s : Window) : Bool := decide (s.inflight ≤ s.cwnd)

/-- The request that a block answers: the first unanswered one for it on its connection. -/
def Window.answeredBy (s : Window) (c : ℕ) (block : ℕ × ℕ) : Option ℕ :=
  s.requests.findIdx? fun r => r.conn == c && r.block == block && !r.answered

/-- The steps of the connection `c`, and the reconnect. -/
inductive Action where
  /-- `Choke` and `UnChoke` are handled. -/
  | setStatus (c : ℕ) (unchoked : Bool)
  /-- `request_piece`: `is_can_be_download`. -/
  | isCanBeDownload (c : ℕ)
  /-- `request_piece`: the lock is taken. -/
  | lock (c : ℕ)
  /-- `request_piece`: `has_send_window_space`. -/
  | hasSendWindowSpace (c : ℕ)
  /-- `request_piece`: no block is found, or the writer is gone. -/
  | leave (c : ℕ)
  /-- `Peer::request_piece`: the request is queued. -/
  | requestPiece (c : ℕ) (block : ℕ × ℕ)
  /-- `request_piece`: `Dashbord::send`. -/
  | send (c : ℕ)
  /-- `ReadFuture::run` has read a `Piece` message. -/
  | piece (c : ℕ) (block : ℕ × ℕ) (gain : Option ℕ)
  /-- `do_start_peer`: `PeerInfo::reset`. -/
  | reconnect
  deriving DecidableEq

/-- Change one connection. -/
def Window.setLink (s : Window) (c : ℕ) (l : Link) : Window := { s with link := update s.link c l }

/-- Move the task of a connection. -/
def Window.setTask (s : Window) (c : ℕ) (t : Task) : Window :=
  s.setLink c { s.link c with task := t }

/-- A request that was counted. -/
def Request.count (r : Request) : Request := { r with counted := true }

/-- A request that was answered. -/
def Request.answer (r : Request) : Request := { r with answered := true }

/-- One step. -/
def step (s : Window) : Action → Option Window
  | .setStatus c unchoked =>
      if c ≤ s.conn then some (s.setLink c { s.link c with unchoked := unchoked }) else none
  | .isCanBeDownload c =>
      if c ≤ s.conn ∧ (s.link c).unchoked then
        some (s.setLink c { s.link c with waiting := (s.link c).waiting + 1 })
      else none
  | .lock c =>
      if c ≤ s.conn ∧ (s.link c).task = .idle ∧ 0 < (s.link c).waiting then
        some (s.setLink c { s.link c with waiting := (s.link c).waiting - 1, task := .looping })
      else none
  | .hasSendWindowSpace c =>
      if c ≤ s.conn ∧ (s.link c).task = .looping then
        some (s.setTask c (if s.hasSendWindowSpace then .checked else .idle))
      else none
  | .leave c =>
      if c ≤ s.conn ∧ (s.link c).task = .checked then some (s.setTask c .idle) else none
  | .requestPiece c block =>
      if c ≤ s.conn ∧ (s.link c).task = .checked then
        some { s.setTask c (.queued s.requests.length) with
          requests := s.requests ++ [⟨c, block, false, false⟩] }
      else none
  | .send c =>
      match (s.link c).task with
      | .queued k =>
          some { (s.setTask c .looping).send with requests := s.requests.modify k Request.count }
      | _ => none
  | .piece c block gain =>
      if c ≤ s.conn then
        match s.answeredBy c block with
        | some k => some { s.ack gain with requests := s.requests.modify k Request.answer }
        -- `ack` does not ask whether the block was requested
        | none => some (s.ack gain)
      else none
  | .reconnect =>
      some { s.clearIng with
        conn := s.conn + 1, link := update s.link (s.conn + 1) ⟨false, 0, .idle⟩ }

/-! ## The property -/

/-- The requests of a connection that were sent and not yet answered. -/
def Window.unanswered (s : Window) (c : ℕ) : ℕ :=
  s.requests.countP fun r => r.conn == c && !r.answered

/-- **The window is accounted for.** -/
structure Accounted (s : Window) : Prop where
  not_wrapped : s.wrapped = false
  inflight_le : s.inflight ≤ s.unanswered s.conn

/-- Every `Piece` message answers a request of the current connection that was counted, and only
requests of the current connection are counted. -/
def Solicited (s : Window) : Action → Prop
  | .send c => c = s.conn
  | .piece c block _ => c = s.conn ∧
      ∃ k ∈ s.answeredBy c block, (s.requests[k]?).any Request.counted = true
  | _ => True

instance (s : Window) : ∀ a, Decidable (Solicited s a)
  | .send c => inferInstanceAs (Decidable (c = s.conn))
  | .piece c block _ => inferInstanceAs (Decidable (c = s.conn ∧
      ∃ k ∈ s.answeredBy c block, (s.requests[k]?).any Request.counted = true))
  | .setStatus _ _ | .isCanBeDownload _ | .lock _ | .hasSendWindowSpace _ | .leave _
  | .requestPiece _ _ | .reconnect => isTrue trivial

/-! ## The invariant -/

/-- Counted, unanswered, and of the connection `c`. -/
def Request.isInflight (c : ℕ) (r : Request) : Bool := r.conn == c && r.counted && !r.answered

/-- Whether the task is about to raise the counter. -/
def Task.pending : Task → ℕ
  | checked | queued _ => 1
  | _ => 0

/-- The invariant: `inflight` counts the counted requests. -/
structure Inv (s : Window) : Prop where
  not_wrapped : s.wrapped = false
  inflight_eq : s.inflight = s.requests.countP (Request.isInflight s.conn)
  counted : ∀ r ∈ s.requests, r.answered = true → r.counted = true
  conn_le : ∀ r ∈ s.requests, r.conn ≤ s.conn
  cwnd_le : s.cwnd ≤ maxCwnd
  room : s.inflight + (s.link s.conn).task.pending ≤ maxCwnd + 1
  queued : ∀ c k, (s.link c).task = .queued k →
    ∃ r, s.requests[k]? = some r ∧ r.conn = c ∧ r.counted = false

section Steps

variable {s s' : Window}

theorem Inv.accounted (h : Inv s) : Accounted s where
  not_wrapped := h.not_wrapped
  inflight_le := by
    rw [h.inflight_eq]
    refine List.countP_mono_left fun r _ hr => ?_
    rw [Request.isInflight, Bool.and_eq_true, Bool.and_eq_true] at hr
    rw [hr.1.1, hr.2]
    rfl

/-- A change of one connection. -/
theorem Inv.setLink (h : Inv s) {c : ℕ} {l : Link}
    (hroom : c = s.conn → s.inflight + l.task.pending ≤ maxCwnd + 1)
    (hq : ∀ k, l.task = .queued k → (s.link c).task = .queued k) : Inv (s.setLink c l) := by
  refine ⟨h.not_wrapped, h.inflight_eq, h.counted, h.conn_le, h.cwnd_le, ?_, fun c' k hk => ?_⟩
  · show s.inflight + (update s.link c l s.conn).task.pending ≤ _
    by_cases hc : s.conn = c
    · rw [hc, update_self]
      exact hroom hc.symm
    · rw [update_of_ne hc]
      exact h.room
  · by_cases hc : c' = c
    · subst hc
      simp only [Window.setLink, update_self] at hk
      exact h.queued c' k (hq k hk)
    · simp only [Window.setLink, update_of_ne hc] at hk
      exact h.queued c' k hk

/-- A change that does not raise the counter later than before. -/
theorem Inv.setLink_of_le (h : Inv s) {c : ℕ} {l : Link}
    (hp : l.task.pending ≤ (s.link c).task.pending)
    (hq : ∀ k, l.task = .queued k → (s.link c).task = .queued k) : Inv (s.setLink c l) := by
  refine h.setLink (fun hc => ?_) hq
  have hroom := h.room
  rw [← hc] at hroom
  omega

/-- A request is queued: it is not counted yet. -/
theorem Inv.requestPiece (h : Inv s) {c : ℕ} {block : ℕ × ℕ} (hc : c ≤ s.conn)
    (ht : (s.link c).task = .checked) :
    Inv { s.setTask c (.queued s.requests.length) with
      requests := s.requests ++ [⟨c, block, false, false⟩] } := by
  refine ⟨h.not_wrapped, ?_, ?_, ?_, h.cwnd_le, ?_, fun c' k hk => ?_⟩
  · show s.inflight = List.countP _ (s.requests ++ [⟨c, block, false, false⟩])
    rw [List.countP_append]
    simpa [Request.isInflight, Window.setTask, Window.setLink] using h.inflight_eq
  · intro r hr
    rcases List.mem_append.mp hr with hr | hr
    · exact h.counted r hr
    · rw [List.mem_singleton.mp hr]
      exact Bool.noConfusion
  · intro r hr
    rcases List.mem_append.mp hr with hr | hr
    · exact h.conn_le r hr
    · rw [List.mem_singleton.mp hr]
      exact hc
  · show s.inflight + (update s.link c _ s.conn).task.pending ≤ _
    by_cases hcc : s.conn = c
    · have hroom := h.room
      rw [hcc, ht] at hroom
      rw [hcc, update_self]
      exact hroom
    · rw [update_of_ne hcc]
      exact h.room
  · by_cases hcc : c' = c
    · subst hcc
      simp only [Window.setTask, Window.setLink, update_self, Task.queued.injEq] at hk
      subst hk
      exact ⟨_, List.getElem?_concat_length, rfl, rfl⟩
    · simp only [Window.setTask, Window.setLink, update_of_ne hcc] at hk
      obtain ⟨r, hr, hconn, hcnt⟩ := h.queued c' k hk
      refine ⟨r, ?_, hconn, hcnt⟩
      rw [List.getElem?_append_left (List.getElem?_eq_some_iff.mp hr).1]
      exact hr

/-- `Dashbord::send` counts a request of the current connection. -/
theorem Inv.send (h : Inv s) {k : ℕ} (ht : (s.link s.conn).task = .queued k) :
    Inv { (s.setTask s.conn .looping).send with
      requests := s.requests.modify k Request.count } := by
  obtain ⟨r, hr, hconn, hcnt⟩ := h.queued s.conn k ht
  -- what is not counted is not answered, so the request joins those in flight
  have hans : r.answered = false := by
    cases hans : r.answered with
    | false => rfl
    | true =>
        have := h.counted r (List.mem_of_getElem? hr) hans
        rw [hcnt] at this
        cases this
  have hroom : s.inflight + 1 ≤ 26 := by
    have := h.room
    rwa [ht] at this
  -- the window is small, so the counter does not wrap upwards either
  have hmod : fetchAdd s.inflight = s.inflight + 1 := by
    have hmax : u32Max = 4294967295 := rfl
    exact if_neg (by omega)
  refine ⟨h.not_wrapped, ?_, ?_, ?_, h.cwnd_le, ?_, fun c' k' hk' => ?_⟩
  · show fetchAdd s.inflight =
      (s.requests.modify k Request.count).countP (Request.isInflight s.conn)
    have hcount := countP_modify hr Request.count (Request.isInflight s.conn)
    have hbefore : Request.isInflight s.conn r = false := by simp [Request.isInflight, hcnt]
    have hafter : Request.isInflight s.conn r.count = true := by
      simp [Request.isInflight, Request.count, hconn, hans]
    rw [hbefore, hafter] at hcount
    rw [hmod, h.inflight_eq]
    simpa using hcount.symm
  · intro r' hr'
    rcases mem_or_eq_of_mem_modify hr' with hr' | ⟨r₀, -, rfl⟩
    · exact h.counted r' hr'
    · exact fun _ => rfl
  · intro r' hr'
    rcases mem_or_eq_of_mem_modify hr' with hr' | ⟨r₀, hr₀, rfl⟩
    · exact h.conn_le r' hr'
    · exact h.conn_le r₀ (List.mem_of_getElem? hr₀)
  · show fetchAdd s.inflight + (update s.link s.conn _ s.conn).task.pending ≤ _
    rw [hmod, update_self]
    exact hroom
  · by_cases hcc : c' = s.conn
    · subst hcc
      simp only [Window.send, Window.setTask, Window.setLink, update_self, reduceCtorEq] at hk'
    · simp only [Window.send, Window.setTask, Window.setLink, update_of_ne hcc] at hk'
      obtain ⟨r', hr', hconn', hcnt'⟩ := h.queued c' k' hk'
      -- the tasks of two connections have queued different requests
      have hkk : k ≠ k' := by
        rintro rfl
        rw [hr, Option.some.injEq] at hr'
        exact hcc (by rw [← hconn', ← hr', hconn])
      exact ⟨r', (List.getElem?_modify_ne _ _ hkk).trans hr', hconn', hcnt'⟩

theorem updateCwnd_le (cwnd gain : ℕ) : updateCwnd cwnd gain ≤ maxCwnd := by
  show max minCwnd (min maxCwnd _) ≤ maxCwnd
  rw [minCwnd, maxCwnd]
  omega

/-- What `answeredBy` finds. -/
theorem Window.answeredBy_eq_some {c k : ℕ} {block : ℕ × ℕ} (h : s.answeredBy c block = some k) :
    ∃ r, s.requests[k]? = some r ∧ r.conn = c ∧ r.answered = false := by
  obtain ⟨hlt, hr, -⟩ := List.findIdx?_eq_some_iff_getElem.mp h
  rw [Bool.and_eq_true, Bool.and_eq_true, beq_iff_eq, Bool.not_eq_true'] at hr
  exact ⟨_, List.getElem?_eq_getElem hlt, hr.1.1, hr.2⟩

@[simp] theorem Window.ack_requests (gain : Option ℕ) : (s.ack gain).requests = s.requests := by
  cases gain <;> rfl

@[simp] theorem Window.ack_link (gain : Option ℕ) : (s.ack gain).link = s.link := by
  cases gain <;> rfl

@[simp] theorem Window.ack_conn (gain : Option ℕ) : (s.ack gain).conn = s.conn := by
  cases gain <;> rfl

@[simp] theorem Window.ack_inflight (gain : Option ℕ) :
    (s.ack gain).inflight = fetchSub s.inflight := by
  cases gain <;> rfl

@[simp] theorem Window.ack_wrapped (gain : Option ℕ) :
    (s.ack gain).wrapped = (s.wrapped || s.inflight == 0) := by
  cases gain <;> rfl

theorem Window.ack_cwnd_le (gain : Option ℕ) (h : s.cwnd ≤ maxCwnd) :
    (s.ack gain).cwnd ≤ maxCwnd := by
  cases gain with
  | none => exact h
  | some g => exact updateCwnd_le s.cwnd g

/-- A block answers a counted request of the current connection. -/
theorem Inv.piece (h : Inv s) {k : ℕ} {r : Request} {gain : Option ℕ}
    (hr : s.requests[k]? = some r) (hconn : r.conn = s.conn) (hcnt : r.counted = true)
    (hans : r.answered = false) :
    Inv { s.ack gain with requests := s.requests.modify k Request.answer } := by
  have hcount := countP_modify hr Request.answer (Request.isInflight s.conn)
  have hbefore : Request.isInflight s.conn r = true := by
    simp [Request.isInflight, hconn, hcnt, hans]
  have hafter : Request.isInflight s.conn r.answer = false := by
    simp [Request.isInflight, Request.answer]
  rw [hbefore, hafter, ← h.inflight_eq] at hcount
  -- the request itself is in flight, so the decrement does not wrap
  have hpos : 0 < s.inflight := by
    simp only [Bool.toNat_true, Bool.toNat_false] at hcount
    omega
  have hroom := h.room
  have hmax : maxCwnd = 25 := rfl
  have hmod : fetchSub s.inflight = s.inflight - 1 := if_neg (by omega)
  have hsub : s.inflight - 1 = (s.requests.modify k Request.answer).countP
      (Request.isInflight s.conn) := by
    simp only [Bool.toNat_true, Bool.toNat_false] at hcount
    omega
  refine ⟨?_, ?_, ?_, ?_, Window.ack_cwnd_le gain h.cwnd_le, ?_, fun c' k' hk' => ?_⟩
  · have hne : (s.inflight == 0) = false := beq_eq_false_iff_ne.mpr (by omega)
    simp only [Window.ack_wrapped, h.not_wrapped, hne, Bool.or_self]
  · simp only [Window.ack_inflight, Window.ack_conn, hmod]
    exact hsub
  · intro r' hr'
    rcases mem_or_eq_of_mem_modify hr' with hr' | ⟨r₀, hr₀, rfl⟩
    · exact h.counted r' hr'
    · rw [hr, Option.some.injEq] at hr₀
      subst hr₀
      exact fun _ => hcnt
  · intro r' hr'
    rw [Window.ack_conn]
    rcases mem_or_eq_of_mem_modify hr' with hr' | ⟨r₀, hr₀, rfl⟩
    · exact h.conn_le r' hr'
    · exact h.conn_le r₀ (List.mem_of_getElem? hr₀)
  · simp only [Window.ack_inflight, Window.ack_conn, Window.ack_link, hmod]
    omega
  · rw [Window.ack_link] at hk'
    obtain ⟨r', hr', hconn', hcnt'⟩ := h.queued c' k' hk'
    -- a queued request is not counted, the answered one is
    have hkk : k ≠ k' := by
      rintro rfl
      rw [hr, Option.some.injEq] at hr'
      rw [← hr', hcnt] at hcnt'
      cases hcnt'
    exact ⟨r', (List.getElem?_modify_ne _ _ hkk).trans hr', hconn', hcnt'⟩

/-- A reconnect starts at zero, without requests. -/
theorem Inv.reconnect (h : Inv s) :
    Inv { s.clearIng with
      conn := s.conn + 1, link := update s.link (s.conn + 1) ⟨false, 0, .idle⟩ } := by
  refine ⟨h.not_wrapped, ?_, h.counted, fun r hr => Nat.le_succ_of_le (h.conn_le r hr),
    show minCwnd ≤ maxCwnd by decide, ?_, fun c k hk => ?_⟩
  · show 0 = s.requests.countP (Request.isInflight (s.conn + 1))
    refine (List.countP_eq_zero.mpr fun r hr => ?_).symm
    have hle := h.conn_le r hr
    have hne : (r.conn == s.conn + 1) = false := beq_eq_false_iff_ne.mpr (by omega)
    simp [Request.isInflight, hne]
  · show 0 + (update s.link (s.conn + 1) _ (s.conn + 1)).task.pending ≤ _
    rw [update_self]
    exact Nat.zero_le _
  · by_cases hc : c = s.conn + 1
    · rw [hc] at hk
      simp only [update_self, reduceCtorEq] at hk
    · simp only [update_of_ne hc] at hk
      exact h.queued c k hk

/-- **One step** keeps the count, if every block that comes in was asked for. -/
theorem Inv.step {a : Action} (h : Inv s) (hg : Solicited s a) (hs : step s a = some s') :
    Inv s' := by
  cases a with
  | setStatus c unchoked =>
      obtain ⟨-, rfl⟩ := of_ite_eq_some hs
      exact h.setLink_of_le (Nat.le_refl _) fun _ hk => hk
  | isCanBeDownload c =>
      obtain ⟨-, rfl⟩ := of_ite_eq_some hs
      exact h.setLink_of_le (Nat.le_refl _) fun _ hk => hk
  | lock c =>
      obtain ⟨-, rfl⟩ := of_ite_eq_some hs
      exact h.setLink_of_le (Nat.zero_le _) fun _ hk => Task.noConfusion hk
  | hasSendWindowSpace c =>
      obtain ⟨-, rfl⟩ := of_ite_eq_some hs
      refine h.setLink (fun _ => ?_) fun k hk => ?_
      · show s.inflight + (ite _ _ _ : Task).pending ≤ _
        split
        · next hspace =>
            have hle : s.inflight ≤ s.cwnd := of_decide_eq_true hspace
            exact Nat.succ_le_succ (Nat.le_trans hle h.cwnd_le)
        · exact Nat.le_trans (Nat.le_add_right _ _) h.room
      · have hk' : (ite _ _ _ : Task) = .queued k := hk
        split at hk' <;> cases hk'
  | leave c =>
      obtain ⟨-, rfl⟩ := of_ite_eq_some hs
      exact h.setLink_of_le (Nat.zero_le _) fun _ hk => Task.noConfusion hk
  | requestPiece c block =>
      obtain ⟨⟨hc, ht⟩, rfl⟩ := of_ite_eq_some hs
      exact h.requestPiece hc ht
  | send c =>
      have hc : c = s.conn := hg
      subst hc
      simp only [InflightWindow.step] at hs
      split at hs
      · next k ht =>
          obtain rfl := Option.some.inj hs
          exact h.send ht
      · cases hs
  | piece c block gain =>
      obtain ⟨rfl, k, hk, hcnt⟩ := hg
      obtain ⟨r, hr, hconn, hans⟩ := Window.answeredBy_eq_some hk
      rw [hr, Option.any_some] at hcnt
      obtain ⟨-, hs⟩ := Option.ite_none_right_eq_some.mp hs
      rw [show s.answeredBy s.conn block = some k from hk] at hs
      obtain rfl := Option.some.inj hs
      exact h.piece hr hconn hcnt hans
  | reconnect =>
      obtain rfl := Option.some.inj hs
      exact h.reconnect

end Steps

/-! ## Runs -/

theorem inv_new : Inv Window.new where
  not_wrapped := rfl
  inflight_eq := rfl
  counted := fun _ hr => absurd hr List.not_mem_nil
  conn_le := fun _ hr => absurd hr List.not_mem_nil
  cwnd_le := by decide
  room := by decide
  queued := fun _ _ hk => Task.noConfusion hk

/-- **The window is accounted for** in every run in which every block that comes in was asked for
on the current connection, and counted before. -/
theorem accounted_of_run {as : List Action} {s : Window} (h : Run step Solicited .new as s) :
    Accounted s :=
  (h.invariant inv_new fun _ _ _ hi hg hs => hi.step hg hs).accounted

/-- Two requests are sent and one of them is answered. -/
theorem accounted_two : ∃ s,
    Run step Solicited .new [.setStatus 0 true, .isCanBeDownload 0, .lock 0,
      .hasSendWindowSpace 0, .requestPiece 0 (0, 0), .send 0, .hasSendWindowSpace 0,
      .requestPiece 0 (0, 16384), .send 0, .piece 0 (0, 0) (some 320)] s ∧
    (s.inflight, s.cwnd, s.unanswered 0) = (1, 7, 1) ∧ Accounted s := by
  have hexec : (execIf step Solicited .new [.setStatus 0 true, .isCanBeDownload 0, .lock 0,
      .hasSendWindowSpace 0, .requestPiece 0 (0, 0), .send 0, .hasSendWindowSpace 0,
      .requestPiece 0 (0, 16384), .send 0, .piece 0 (0, 0) (some 320)]).map
        (fun s => (s.inflight, s.cwnd, s.unanswered 0)) = some (1, 7, 1) := by decide
  obtain ⟨s, hrun, hview⟩ := Run.exists_of_execIf hexec
  exact ⟨s, hrun, hview, accounted_of_run hrun⟩

/-- **An unsolicited block wraps the counter.** -/
theorem unsolicited_wraps : ¬ ∀ as s, FreeRun step .new as s → Accounted s := by
  intro hall
  have hexec : (exec step .new [.piece 0 (0, 0) none]).map (fun s => (s.inflight, s.wrapped)) =
      some (4294967295, true) := by decide
  obtain ⟨s, hrun, hview⟩ := Run.exists_of_exec hexec
  have hwrap := (hall _ s hrun).not_wrapped
  simp only [Prod.mk.injEq] at hview
  rw [hview.2] at hwrap
  cases hwrap

end InflightWindow
