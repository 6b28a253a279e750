/-
# When trackers are asked again (`bt/tracker.rs`)

`Tracker::run` scans its trackers and sleeps for the time the scan returns.  A scan asks every
tracker whose `next_request_time` is not after `scan_time`, which `Tracker::new` has read off the
clock once and for all, and returns the least of the waits it was told; who is not asked counts as
`u64::MAX`.

* a UDP tracker keeps its own time after every answer and every failure, an HTTP tracker only when
  it fails (and then it is unusable);
* `timeKept` is the time of a UDP tracker, by what its calls have met: the first wait that it tells
  is the last one, unless there is none in the second of `Tracker::new`;
* `Rescheduled` is what a scan should do, `Punctual` when it does so (`rescheduled_iff`), in terms
  of the answers and the clock;
* `asked_once` says that a UDP tracker which has told a wait is never asked again.

Times and waits are in seconds, and a wait can always be added to the clock.  The trackers of a
scan are independent of each other.  What is sent, the peers that are received and the event of an
announce leave no trace here.
-/
import Dorodoro.Counting
import Dorodoro.Transition
import Mathlib.Algebra.Group.Nat.Defs

namespace TrackerSchedule

/-- `u64::MAX`. -/
def u64Max : ℕ := 2 ^ 64 - 1

/-! ## UDP trackers -/

/-- `CONNECTION_ID_TIMEOUT`. -/
def connectionIdTimeout : ℕ := 60

/-- `MAX_RETRY_NUM`. -/
def maxRetryNum : ℕ := 8

/-- `SOCKET_READ_TIMEOUT`, in milliseconds. -/
def socketReadTimeoutMillis : ℕ := 15000

/-- `UdpTracker`. -/
structure UdpTracker where
  /-- When the connection id was obtained. -/
  timestamp : ℕ
  retryCount : ℕ
  nextRequestTime : ℕ
  deriving DecidableEq

/-- `UdpTracker::new`. -/
def UdpTracker.new : UdpTracker := ⟨0, 0, 0⟩

/-- What comes back for a packet. -/
inductive Reply (α : Type) where
  | lost
  /-- A packet that does not pass the checks. -/
  | garbled
  | answer (a : α)
  deriving DecidableEq

/-- What an announce meets. -/
structure UdpCall where
  /-- The clock in `update_connect`. -/
  checked : ℕ
  /-- The answer to a connect, with the clock. -/
  connect : Reply ℕ
  /-- The answer to an announce, with its interval. -/
  announce : Reply UInt32
  /-- The clock when the next time is set. -/
  clock : ℕ
  deriving DecidableEq

namespace UdpTracker

/-- `send`, and the checks of the response. -/
def send {α : Type} (t : UdpTracker) (reply : Reply α) : UdpTracker × Option α :=
  if t.retryCount ≤ maxRetryNum then
    match reply with
    | .lost => (t, none)
    | .garbled => ({ t with retryCount := 0 }, none)
    | .answer a => ({ t with retryCount := 0 }, some a)
  else (t, none)

/-- `update_connect`. -/
def updateConnect (t : UdpTracker) (x : UdpCall) : UdpTracker × Option Unit :=
  if t.timestamp ≤ x.checked ∧ x.checked - t.timestamp ≤ connectionIdTimeout then (t, some ())
  else
    match t.send x.connect with
    | (t', none) => (t', none)
    | (t', some timestamp) => ({ t' with timestamp := timestamp }, some ())

/-- `announcing`, with the interval that was told. -/
def announcing (t : UdpTracker) (x : UdpCall) : UdpTracker × Option ℕ :=
  match t.updateConnect x with
  | (t₁, none) => (t₁, none)
  | (t₁, some ()) =>
      match t₁.send x.announce with
      | (t₂, none) => (t₂, none)
      | (t₂, some interval) =>
          ({ t₂ with nextRequestTime := x.clock + interval.toNat }, some interval.toNat)

/-- `inc_retry_count`.  The milliseconds are taken for seconds. -/
def incRetryCount (t : UdpTracker) (clock : ℕ) : UdpTracker × ℕ :=
  if t.retryCount > maxRetryNum then (t, u64Max)
  else
    let interval := socketReadTimeoutMillis * (t.retryCount + 1)
    ({ t with retryCount := t.retryCount + 1, nextRequestTime := clock + interval }, interval)

/-- A scan asks the tracker. -/
def request (t : UdpTracker) (x : UdpCall) : UdpTracker × ℕ :=
  match t.announcing x with
  | (t', some interval) => (t', interval)
  | (t', none) => t'.incRetryCount x.clock

end UdpTracker

/-- `scan_udp_tracker`. -/
def scanUdpTracker (t : UdpTracker) (scanTime : ℕ) (x : UdpCall) : UdpTracker × ℕ :=
  if t.nextRequestTime ≤ scanTime then t.request x else (t, u64Max)

/-! ## HTTP trackers -/

/-- `HttpTracker`. -/
structure HttpTracker where
  nextRequestTime : ℕ
  deriving DecidableEq

/-- `HttpTracker::new`. -/
def HttpTracker.new : HttpTracker := ⟨0⟩

/-- The times of `http_tracker::Announce`. -/
structure HttpAnnounce where
  interval : UInt64
  minInterval : Option UInt64
  deriving DecidableEq

/-- `unusable`. -/
def HttpTracker.unusable (_ : HttpTracker) : HttpTracker × ℕ := (⟨u64Max⟩, u64Max)

/-- A scan asks the tracker. -/
def HttpTracker.request (t : HttpTracker) (announce : Option HttpAnnounce) : HttpTracker × ℕ :=
  match announce with
  -- the tracker itself stays as it is
  | some announce => (t, (announce.minInterval.getD announce.interval).toNat)
  | none => t.unusable

/-- `scan_http_tracker`. -/
def scanHttpTracker (t : HttpTracker) (scanTime : ℕ) (announce : Option HttpAnnounce) :
    HttpTracker × ℕ :=
  if t.nextRequestTime ≤ scanTime then t.request announce else (t, u64Max)

/-! ## Scans -/

/-- `TrackerInstance`. -/
inductive TrackerInstance where
  | udp (t : UdpTracker)
  | http (t : HttpTracker)
  deriving DecidableEq

/-- What a tracker meets in a scan, of either kind. -/
structure Call where
  udp : UdpCall
  http : Option HttpAnnounce
  deriving DecidableEq

namespace TrackerInstance

/-- `next_request_time`. -/
def nextRequestTime : TrackerInstance → ℕ
  | udp t => t.nextRequestTime
  | http t => t.nextRequestTime

/-- A UDP tracker is given up after too many failures, an HTTP tracker after one. -/
def Usable : TrackerInstance → Prop
  | udp t => t.retryCount ≤ maxRetryNum
  | http t => t.nextRequestTime ≠ u64Max

instance : DecidablePred Usable
  | udp t => inferInstanceAs (Decidable (t.retryCount ≤ maxRetryNum))
  | http t => inferInstanceAs (Decidable (t.nextRequestTime ≠ u64Max))

/-- A scan asks the tracker. -/
def request (t : TrackerInstance) (x : Call) : TrackerInstance × ℕ :=
  match t with
  | udp t => ((t.request x.udp).map udp id)
  | http t => ((t.request x.http).map http id)

/-- The wait a tracker tells when it is asked. -/
def wait (t : TrackerInstance) (x : Call) : ℕ := (t.request x).2

end TrackerInstance

/-- `tracker_handle_process`. -/
def trackerHandleProcess (t : TrackerInstance) (scanTime : ℕ) (x : Call) : TrackerInstance × ℕ :=
  match t with
  | .udp t => (scanUdpTracker t scanTime x.udp).map .udp id
  | .http t => (scanHttpTracker t scanTime x.http).map .http id

/-- The state of `Tracker::run`. -/
structure State where
  scanTime : ℕ
  trackers : List TrackerInstance
  /-- When the last scan was over. -/
  clock : ℕ
  deriving DecidableEq

/-- The protocols of the trackers. -/
inductive Protocol where
  | udp
  | http
  deriving DecidableEq

/-- A tracker that was not asked yet. -/
def TrackerInstance.new : Protocol → TrackerInstance
  | .udp => .udp .new
  | .http => .http .new

/-- `Tracker::new`. -/
def State.init (now : ℕ) (protocols : List Protocol) : State :=
  ⟨now, protocols.map .new, now⟩

/-- A tracker is asked in the scans. -/
def State.Asks (s : State) (t : TrackerInstance) : Prop := t.nextRequestTime ≤ s.scanTime

instance (s : State) : DecidablePred s.Asks :=
  fun t => inferInstanceAs (Decidable (t.nextRequestTime ≤ s.scanTime))

/-- The trackers after a scan, each with what it adds to the minimum. -/
def State.results (s : State) (x : ℕ → Call) : List (TrackerInstance × ℕ) :=
  s.trackers.mapIdx fun i t => trackerHandleProcess t s.scanTime (x i)

/-- `scan_tracker`. -/
def State.scanTracker (s : State) (x : ℕ → Call) : List TrackerInstance × ℕ :=
  ((s.results x).map Prod.fst, ((s.results x).map Prod.snd).foldl min u64Max)

/-- A round of `run`: when the scan starts, what its trackers meet, and when it is over. -/
structure Scan where
  start : ℕ
  calls : ℕ → Call
  stop : ℕ

/-- The transition function.  The sleep before the scan may last as long as it likes, and the clock
is so far from its end that a wait can be added to it. -/
def step (s : State) (a : Scan) : Option State :=
  if s.clock ≤ a.start ∧ a.start ≤ a.stop ∧ a.stop + 2 ^ 32 ≤ u64Max ∧
      ∀ i < s.trackers.length, a.start ≤ (a.calls i).udp.clock ∧ (a.calls i).udp.clock ≤ a.stop then
    some { s with trackers := (s.scanTracker a.calls).1, clock := a.stop }
  else none

/-! ## What a scan should do -/

/-- **What a scan should do.** -/
structure Rescheduled (s : State) (a : Scan) : Prop where
  /-- A usable tracker that is due is asked. -/
  asked : ∀ t ∈ s.trackers, t.Usable → t.nextRequestTime ≤ a.start → s.Asks t
  /-- The scan returns no more than the time that is left to any usable tracker. -/
  slept : ∀ t ∈ (s.scanTracker a.calls).1, t.Usable →
    (s.scanTracker a.calls).2 ≤ t.nextRequestTime - a.stop

/-! ## Answers and clocks -/

/-- The time of the connection id an announce is sent with, if the last one is from `since`. -/
def UdpCall.connected (since : ℕ) (c : UdpCall) : Option ℕ :=
  if since ≤ c.checked ∧ c.checked - since ≤ connectionIdTimeout then some since
  else
    match c.connect with
    | .answer timestamp => some timestamp
    | _ => none

/-- The wait that is answered, or the one after a first failure. -/
def UdpCall.told (since : ℕ) (c : UdpCall) : ℕ :=
  match c.connected since with
  | none => socketReadTimeoutMillis
  | some _ =>
      match c.announce with
      | .answer interval => interval.toNat
      | _ => socketReadTimeoutMillis

/-- The time of the last connection id, after some calls. -/
def connectedAfter (since : ℕ) (calls : List UdpCall) : ℕ :=
  calls.foldl (fun since c => (c.connected since).getD since) since

/-- **The time a UDP tracker keeps.**  It keeps none as long as it answers without a wait in the
second `now`, and the first one for good. -/
def timeKept (now : ℕ) : ℕ → List UdpCall → Option ℕ
  | _, [] => none
  | since, c :: calls =>
      if c.told since = 0 ∧ c.clock = now then timeKept now ((c.connected since).getD since) calls
      else some (c.clock + c.told since)

/-- The calls of a UDP tracker in some scans. -/
def udpCalls (as : List Scan) (i : ℕ) : List UdpCall := as.map fun a => (a.calls i).udp

/-- Who is asked after some scans: a UDP tracker that keeps no time, and an HTTP tracker that has
always answered. -/
def Asked (now : ℕ) (as : List Scan) (i : ℕ) : Protocol → Prop
  | .udp => timeKept now 0 (udpCalls as i) = none
  | .http => ∀ a ∈ as, (a.calls i).http.isSome

/-- The wait that is told in a scan. -/
def told (as : List Scan) (a : Scan) (i : ℕ) : Protocol → ℕ
  | .udp => (a.calls i).udp.told (connectedAfter 0 (udpCalls as i))
  | .http =>
      match (a.calls i).http with
      | some announce => (announce.minInterval.getD announce.interval).toNat
      | none => u64Max

/-- **The condition.** -/
structure Punctual (now : ℕ) (protocols : List Protocol) (as : List Scan) (a : Scan) : Prop where
  /-- The scan starts before any time that a UDP tracker keeps. -/
  early : ∀ i τ, protocols[i]? = some .udp → timeKept now 0 (udpCalls as i) = some τ → a.start < τ
  /-- Somebody answers without a wait; or no HTTP tracker answers, and of every time that a UDP
  tracker keeps by now, one of them tells a wait that is over by then. -/
  brief : (∃ i p, protocols[i]? = some p ∧ Asked now as i p ∧ told as a i p = 0) ∨
    (∀ i, protocols[i]? = some .http → Asked now as i .http → (a.calls i).http = none) ∧
      ∀ i τ, protocols[i]? = some .udp → timeKept now 0 (udpCalls (as ++ [a]) i) = some τ →
        ∃ j, protocols[j]? = some .udp ∧ Asked now as j .udp ∧ a.stop + told as a j .udp ≤ τ

/-! ## One tracker in a scan -/

variable {s s' : State} {a : Scan} {i now : ℕ} {protocols : List Protocol} {as : List Scan}

/-- A tracker is asked or skipped. -/
theorem trackerHandleProcess_eq (t : TrackerInstance) (scanTime : ℕ) (x : Call) :
    trackerHandleProcess t scanTime x =
      if t.nextRequestTime ≤ scanTime then t.request x else (t, u64Max) := by
  cases t with
  | udp t =>
      show (scanUdpTracker t scanTime x.udp).map TrackerInstance.udp id =
        if t.nextRequestTime ≤ scanTime then _ else _
      unfold scanUdpTracker
      split <;> rfl
  | http t =>
      show (scanHttpTracker t scanTime x.http).map TrackerInstance.http id =
        if t.nextRequestTime ≤ scanTime then _ else _
      unfold scanHttpTracker
      split <;> rfl

/-- An announce that succeeds sets the next time, by an interval of 32 bits. -/
theorem UdpTracker.announcing_some {t t' : UdpTracker} {x : UdpCall} {interval : ℕ}
    (h : t.announcing x = (t', some interval)) :
    t'.nextRequestTime = x.clock + interval ∧ interval < 2 ^ 32 := by
  unfold UdpTracker.announcing at h
  split at h
  · cases h
  · split at h
    · cases h
    · next interval' _ =>
        cases h
        exact ⟨rfl, interval'.toNat_lt⟩

/-- **The time of a UDP tracker.**  A tracker that was asked and can be asked again keeps the time
of the wait it has told. -/
theorem UdpTracker.request_nextRequestTime (t : UdpTracker) (x : UdpCall)
    (h : (t.request x).1.retryCount ≤ maxRetryNum) :
    (t.request x).1.nextRequestTime = x.clock + (t.request x).2 ∧ (t.request x).2 < 2 ^ 32 := by
  unfold UdpTracker.request at h ⊢
  cases hann : t.announcing x with
  | mk t' answer =>
      rw [hann] at h
      cases answer with
      | some interval => exact UdpTracker.announcing_some hann
      | none =>
          dsimp only at h ⊢
          unfold UdpTracker.incRetryCount at h ⊢
          split at h
          · next hmany => exact absurd h (Nat.not_le.mpr hmany)
          · next hfew =>
              rw [if_neg hfew]
              refine ⟨rfl, ?_⟩
              have hle : t'.retryCount ≤ 8 := Nat.not_lt.mp hfew
              show 15000 * (t'.retryCount + 1) < 2 ^ 32
              omega

/-- A connection for a tracker that has not failed. -/
theorem UdpTracker.updateConnect_eq {t : UdpTracker} (hfresh : t.retryCount = 0) (x : UdpCall) :
    t.updateConnect x =
      ((x.connected t.timestamp).elim t fun timestamp => { t with timestamp := timestamp },
        (x.connected t.timestamp).map fun _ => ()) := by
  obtain ⟨timestamp, retryCount, nextRequestTime⟩ := t
  obtain rfl : retryCount = 0 := hfresh
  unfold UdpTracker.updateConnect UdpCall.connected
  dsimp only
  split
  · rfl
  · cases x.connect <;> rfl

/-- **A tracker that has not failed** tells what was answered, or the wait after a first failure,
and keeps its time. -/
theorem UdpTracker.request_eq {t : UdpTracker} (hfresh : t.retryCount = 0) (x : UdpCall) :
    (t.request x).2 = x.told t.timestamp ∧
      (t.request x).1.nextRequestTime = x.clock + x.told t.timestamp ∧
      (t.request x).1.retryCount ≤ maxRetryNum ∧
      (x.told t.timestamp = 0 → (t.request x).1.retryCount = 0 ∧
        (t.request x).1.timestamp = (x.connected t.timestamp).getD t.timestamp) := by
  obtain ⟨timestamp, retryCount, nextRequestTime⟩ := t
  obtain rfl : retryCount = 0 := hfresh
  have hpos : socketReadTimeoutMillis ≠ 0 := by decide
  unfold UdpTracker.request UdpTracker.announcing UdpCall.told
  rw [UdpTracker.updateConnect_eq rfl]
  cases x.connected timestamp with
  | none => exact ⟨rfl, rfl, Nat.le_add_left 1 7, fun hzero => absurd hzero hpos⟩
  | some timestamp' =>
      cases x.announce with
      | lost => exact ⟨rfl, rfl, Nat.le_add_left 1 7, fun hzero => absurd hzero hpos⟩
      | garbled => exact ⟨rfl, rfl, Nat.le_add_left 1 7, fun hzero => absurd hzero hpos⟩
      | answer interval => exact ⟨rfl, rfl, Nat.zero_le _, fun _ => ⟨rfl, rfl⟩⟩

/-! ## One tracker in many scans -/

/-- A tracker after some calls. -/
def TrackerInstance.after (now : ℕ) (t : TrackerInstance) (calls : List Call) : TrackerInstance :=
  calls.foldl (fun t x => (trackerHandleProcess t now x).1) t

theorem TrackerInstance.after_cons (t : TrackerInstance) (x : Call) (calls : List Call) :
    t.after now (x :: calls) =
      TrackerInstance.after now (if t.nextRequestTime ≤ now then (t.request x).1 else t) calls := by
  rw [TrackerInstance.after, List.foldl_cons, trackerHandleProcess_eq]
  split <;> rfl

/-- A tracker whose time lies after `scan_time` stays as it is. -/
theorem TrackerInstance.after_of_late {t : TrackerInstance} (hlate : now < t.nextRequestTime)
    (calls : List Call) : t.after now calls = t := by
  induction calls with
  | nil => rfl
  | cons x calls ih => rw [TrackerInstance.after_cons, if_neg (Nat.not_le.mpr hlate), ih]

/-- The calls tell the time of a UDP tracker, and what it knows until then. -/
structure UdpTracker.Follows (now since : ℕ) (calls : List UdpCall) (t : UdpTracker) : Prop where
  due : timeKept now since calls = none →
    t.retryCount = 0 ∧ t.nextRequestTime ≤ now ∧ t.timestamp = connectedAfter since calls
  late : ∀ τ, timeKept now since calls = some τ →
    now < τ ∧ t.nextRequestTime = τ ∧ t.retryCount ≤ maxRetryNum

/-- **A UDP tracker.** -/
theorem UdpTracker.after_follows {t : UdpTracker} {calls : List Call} (hfresh : t.retryCount = 0)
    (hdue : t.nextRequestTime ≤ now) (hclock : ∀ x ∈ calls, now ≤ x.udp.clock) :
    ∃ t', TrackerInstance.after now (.udp t) calls = .udp t' ∧
      t'.Follows now t.timestamp (calls.map Call.udp) := by
  induction calls generalizing t with
  | nil => exact ⟨t, rfl, fun _ => ⟨hfresh, hdue, rfl⟩, fun τ hτ => by cases hτ⟩
  | cons x calls ih =>
      obtain ⟨-, htime, hfew, hsame⟩ := t.request_eq hfresh x.udp
      have hafter : TrackerInstance.after now (.udp t) (x :: calls) =
          TrackerInstance.after now (.udp (t.request x.udp).1) calls := by
        rw [TrackerInstance.after_cons]
        exact congrArg (TrackerInstance.after now · calls) (if_pos hdue)
      have hnow := hclock x List.mem_cons_self
      rw [hafter, List.map_cons]
      by_cases hzero : x.udp.told t.timestamp = 0 ∧ x.udp.clock = now
      · -- it is asked again
        obtain ⟨hfresh', hconnected⟩ := hsame hzero.1
        have hdue' : (t.request x.udp).1.nextRequestTime ≤ now := by omega
        obtain ⟨t', ht', hfollows⟩ :=
          ih hfresh' hdue' fun x' hx' => hclock x' (List.mem_cons_of_mem x hx')
        rw [hconnected] at hfollows
        refine ⟨t', ht', ?_, ?_⟩
        · rw [timeKept, if_pos hzero]
          exact hfollows.due
        · rw [timeKept, if_pos hzero]
          exact hfollows.late
      · -- it keeps this time
        have hlate : now < (t.request x.udp).1.nextRequestTime := by omega
        refine ⟨_, TrackerInstance.after_of_late hlate calls, ?_, ?_⟩
        · rw [timeKept, if_neg hzero]
          intro hnone
          cases hnone
        · rw [timeKept, if_neg hzero]
          intro τ hτ
          obtain rfl := Option.some.inj hτ
          exact ⟨htime ▸ hlate, htime, hfew⟩

/-- **An HTTP tracker** is due until it fails. -/
theorem HttpTracker.after_eq (hnow : now < u64Max) (calls : List Call) :
    TrackerInstance.after now (.http ⟨0⟩) calls =
      .http ⟨if ∀ x ∈ calls, x.http.isSome then 0 else u64Max⟩ := by
  induction calls with
  | nil => rfl
  | cons x calls ih =>
      have hafter : TrackerInstance.after now (.http ⟨0⟩) (x :: calls) =
          TrackerInstance.after now (.http (HttpTracker.request ⟨0⟩ x.http).1) calls := by
        rw [TrackerInstance.after_cons]
        exact congrArg (TrackerInstance.after now · calls) (if_pos (Nat.zero_le now))
      rw [hafter]
      cases hanswer : x.http with
      | none =>
          have hfailed : ¬ ∀ x' ∈ x :: calls, x'.http.isSome := by
            intro hall
            have hsome := hall x List.mem_cons_self
            rw [hanswer] at hsome
            cases hsome
          rw [if_neg hfailed]
          exact TrackerInstance.after_of_late hnow calls
      | some announce =>
          refine ih.trans ?_
          simp only [List.forall_mem_cons, hanswer, Option.isSome_some, true_and]

/-- Who keeps a time keeps it by one of its calls. -/
theorem timeKept_lt {since τ stop : ℕ} {calls : List UdpCall}
    (hclock : ∀ c ∈ calls, c.clock ≤ stop) (hτ : timeKept now since calls = some τ) :
    τ < stop + 2 ^ 32 := by
  induction calls generalizing since with
  | nil => cases hτ
  | cons c calls ih =>
      rw [timeKept] at hτ
      split at hτ
      · exact ih (fun c' hc' => hclock c' (List.mem_cons_of_mem c hc')) hτ
      · obtain rfl := Option.some.inj hτ
        have htold : c.told since < 2 ^ 32 := by
          unfold UdpCall.told
          split
          · decide
          · split
            · exact UInt32.toNat_lt _
            · decide
        have hle := hclock c List.mem_cons_self
        omega

/-- The time that is kept after one more call. -/
theorem timeKept_append (since : ℕ) (calls : List UdpCall) (c : UdpCall) :
    timeKept now since (calls ++ [c]) = (timeKept now since calls).or
      (if c.told (connectedAfter since calls) = 0 ∧ c.clock = now then none
        else some (c.clock + c.told (connectedAfter since calls))) := by
  induction calls generalizing since with
  | nil => rfl
  | cons c' calls ih =>
      rw [List.cons_append, timeKept, timeKept]
      split
      · exact ih _
      · rfl

/-! ## The trackers of a run -/

theorem getElem?_results (s : State) (x : ℕ → Call) (i : ℕ) :
    (s.results x)[i]? =
      (s.trackers[i]?).map fun t => trackerHandleProcess t s.scanTime (x i) := by
  rw [State.results, List.getElem?_mapIdx]

theorem getElem?_scanTracker (s : State) (x : ℕ → Call) (i : ℕ) :
    (s.scanTracker x).1[i]? =
      (s.trackers[i]?).map fun t => (trackerHandleProcess t s.scanTime (x i)).1 := by
  rw [State.scanTracker, List.getElem?_map, getElem?_results, Option.map_map]
  rfl

/-- The guard of a step. -/
theorem step_cases (hstep : step s a = some s') :
    s.clock ≤ a.start ∧ a.start ≤ a.stop ∧ a.stop + 2 ^ 32 ≤ u64Max ∧
      (∀ i < s.trackers.length, a.start ≤ (a.calls i).udp.clock ∧ (a.calls i).udp.clock ≤ a.stop) ∧
      s' = { s with trackers := (s.scanTracker a.calls).1, clock := a.stop } := by
  obtain ⟨⟨hclock, hstart, hstop, hcalls⟩, rfl⟩ := Transition.of_ite_eq_some hstep
  exact ⟨hclock, hstart, hstop, hcalls, rfl⟩

/-- The invariant: the trackers are those that their calls have left. -/
structure Inv (now : ℕ) (protocols : List Protocol) (as : List Scan) (s : State) : Prop where
  scanTime : s.scanTime = now
  clock : now ≤ s.clock
  trackers : ∀ i, s.trackers[i]? = (protocols[i]?).map fun protocol =>
    (TrackerInstance.new protocol).after now (as.map fun a => a.calls i)
  calls : ∀ i < protocols.length, ∀ a ∈ as,
    now ≤ (a.calls i).udp.clock ∧ (a.calls i).udp.clock ≤ s.clock

theorem Inv.init (now : ℕ) (protocols : List Protocol) :
    Inv now protocols [] (.init now protocols) :=
  ⟨rfl, le_rfl, fun _ => List.getElem?_map, fun _ _ _ ha => absurd ha List.not_mem_nil⟩

theorem Inv.length (h : Inv now protocols as s) : s.trackers.length = protocols.length := by
  have hsame : s.trackers = protocols.mapIdx fun i protocol =>
      (TrackerInstance.new protocol).after now (as.map fun a => a.calls i) := by
    refine List.ext_getElem? fun i => ?_
    rw [h.trackers i, List.getElem?_mapIdx]
  rw [hsame, List.length_mapIdx]

/-- **A scan keeps the invariant.** -/
theorem Inv.step (h : Inv now protocols as s) (hstep : step s a = some s') :
    Inv now protocols (as ++ [a]) s' := by
  obtain ⟨hclock, hstart, -, hcalls, rfl⟩ := step_cases hstep
  rw [h.length] at hcalls
  have hnow := h.clock
  refine ⟨h.scanTime, by show now ≤ a.stop; omega, fun i => ?_, fun i hi a' ha' => ?_⟩
  · show (s.scanTracker a.calls).1[i]? = _
    rw [getElem?_scanTracker, h.trackers i, Option.map_map, h.scanTime]
    simp only [TrackerInstance.after, List.map_append, List.map_cons, List.map_nil,
      List.foldl_append, List.foldl_cons, List.foldl_nil, Function.comp_def]
  · show now ≤ (a'.calls i).udp.clock ∧ (a'.calls i).udp.clock ≤ a.stop
    rcases List.mem_append.mp ha' with ha' | ha'
    · obtain ⟨hge, hle⟩ := h.calls i hi a' ha'
      omega
    · rw [List.mem_singleton.mp ha']
      obtain ⟨hge, hle⟩ := hcalls i hi
      omega

/-- **Every run.** -/
theorem Inv.of_run (hrun : Transition.FreeRun TrackerSchedule.step (.init now protocols) as s) :
    Inv now protocols as s := by
  induction hrun with
  | refl => exact .init now protocols
  | tail _ _ hstep ih => exact ih.step hstep

/-- A UDP tracker in a run. -/
theorem Inv.udp (h : Inv now protocols as s) (hi : protocols[i]? = some .udp) :
    ∃ t, s.trackers[i]? = some (.udp t) ∧ t.Follows now 0 (udpCalls as i) := by
  have hclock : ∀ x ∈ as.map fun a => a.calls i, now ≤ x.udp.clock := by
    intro x hx
    obtain ⟨a, ha, rfl⟩ := List.mem_map.mp hx
    obtain ⟨hlt, -⟩ := List.getElem?_eq_some_iff.mp hi
    exact (h.calls i hlt a ha).1
  obtain ⟨t, ht, hfollows⟩ :=
    UdpTracker.after_follows (t := .new) rfl (Nat.zero_le now) hclock
  rw [List.map_map] at hfollows
  refine ⟨t, ?_, hfollows⟩
  rw [h.trackers i, hi, Option.map_some]
  exact congrArg some ht

/-- An HTTP tracker in a run. -/
theorem Inv.http (h : Inv now protocols as s) (hnow : now < u64Max)
    (hi : protocols[i]? = some .http) :
    s.trackers[i]? =
      some (.http ⟨if ∀ a ∈ as, (a.calls i).http.isSome then 0 else u64Max⟩) := by
  rw [h.trackers i, hi, Option.map_some]
  refine congrArg some ((HttpTracker.after_eq hnow _).trans ?_)
  simp only [List.forall_mem_map]

/-- Every tracker of a run has its protocol. -/
theorem Inv.exists_protocol {t : TrackerInstance} (h : Inv now protocols as s)
    (ht : s.trackers[i]? = some t) : ∃ protocol, protocols[i]? = some protocol := by
  rw [h.trackers i] at ht
  obtain ⟨protocol, hi, -⟩ := Option.map_eq_some_iff.mp ht
  exact ⟨protocol, hi⟩

/-! ## The least wait -/

/-- Somebody who is asked tells a wait that is no longer. -/
def Covered (s : State) (a : Scan) (left : ℕ) : Prop :=
  ∃ i t, s.trackers[i]? = some t ∧ s.Asks t ∧ t.wait (a.calls i) ≤ left

/-- What is skipped does not shorten the sleep. -/
theorem scanTracker_le_iff {d : ℕ} (hd : d < u64Max) :
    (s.scanTracker a.calls).2 ≤ d ↔ Covered s a d := by
  show ((s.results a.calls).map Prod.snd).foldl (fun m w => min m w) u64Max ≤ d ↔ _
  rw [Counting.foldl_min_le_iff]
  constructor
  · rintro (hmax | ⟨w, hw, hle⟩)
    · omega
    · obtain ⟨r, hr, rfl⟩ := List.mem_map.mp hw
      obtain ⟨i, hi⟩ := List.mem_iff_getElem?.mp hr
      rw [getElem?_results] at hi
      obtain ⟨t, ht, rfl⟩ := Option.map_eq_some_iff.mp hi
      rw [trackerHandleProcess_eq] at hle
      split at hle
      · next hasks => exact ⟨i, t, ht, hasks, hle⟩
      · have hmax : u64Max ≤ d := hle
        omega
  · rintro ⟨i, t, ht, hasks, hle⟩
    refine Or.inr ⟨_, List.mem_map_of_mem (List.mem_of_getElem? (i := i) ?_), hle⟩
    have hasks : t.nextRequestTime ≤ s.scanTime := hasks
    rw [getElem?_results, ht, Option.map_some, trackerHandleProcess_eq, if_pos hasks]

/-- Who is asked, and what is told, by the calls. -/
theorem Inv.asks_iff {protocol : Protocol} {t : TrackerInstance} (h : Inv now protocols as s)
    (hnow : now < u64Max) (hi : protocols[i]? = some protocol) (ht : s.trackers[i]? = some t) :
    (s.Asks t ↔ Asked now as i protocol) ∧
      (s.Asks t → t.wait (a.calls i) = told as a i protocol) := by
  have hscan := h.scanTime
  cases protocol with
  | udp =>
      obtain ⟨t', ht', hfollows⟩ := h.udp hi
      obtain rfl : .udp t' = t := Option.some.inj (ht'.symm.trans ht)
      have hasked : s.Asks (.udp t') ↔ Asked now as i .udp := by
        show t'.nextRequestTime ≤ s.scanTime ↔ timeKept now 0 (udpCalls as i) = none
        rw [hscan]
        constructor
        · intro hdue
          by_contra hkept
          obtain ⟨τ, hτ⟩ := Option.ne_none_iff_exists'.mp hkept
          obtain ⟨hlate, hnext, -⟩ := hfollows.late τ hτ
          omega
        · exact fun hnone => (hfollows.due hnone).2.1
      refine ⟨hasked, fun hasks => ?_⟩
      obtain ⟨hfresh, -, hconnected⟩ := hfollows.due (hasked.mp hasks)
      show (t'.request (a.calls i).udp).2 = UdpCall.told _ _
      rw [(t'.request_eq hfresh (a.calls i).udp).1, hconnected]
  | http =>
      obtain rfl : .http _ = t := Option.some.inj ((h.http hnow hi).symm.trans ht)
      by_cases hall : ∀ a ∈ as, (a.calls i).http.isSome
      · refine ⟨iff_of_true ?_ hall, fun _ => ?_⟩
        · show (if _ then 0 else u64Max) ≤ s.scanTime
          rw [if_pos hall]
          exact Nat.zero_le _
        · show (HttpTracker.request _ (a.calls i).http).2 = _
          unfold told HttpTracker.request
          cases (a.calls i).http <;> rfl
      · have hskips : ¬ s.Asks
            (.http ⟨if ∀ a ∈ as, (a.calls i).http.isSome then 0 else u64Max⟩) := by
          show ¬ (if _ then 0 else u64Max) ≤ s.scanTime
          rw [if_neg hall, hscan]
          exact Nat.not_le.mpr hnow
        exact ⟨iff_of_false hskips hall, fun hasks => absurd hasks hskips⟩

/-- Who tells a short wait, by the calls. -/
theorem Inv.exists_told_le_iff {left : ℕ} (h : Inv now protocols as s) (hnow : now < u64Max) :
    Covered s a left ↔
      ∃ i p, protocols[i]? = some p ∧ Asked now as i p ∧ told as a i p ≤ left := by
  constructor
  · rintro ⟨i, t, ht, hasks, hle⟩
    obtain ⟨protocol, hi⟩ := h.exists_protocol ht
    obtain ⟨hasked, hwait⟩ := h.asks_iff (a := a) hnow hi ht
    exact ⟨i, protocol, hi, hasked.mp hasks, hwait hasks ▸ hle⟩
  · rintro ⟨i, protocol, hi, hasked, hle⟩
    have ht := h.trackers i
    rw [hi, Option.map_some] at ht
    obtain ⟨hasks, hwait⟩ := h.asks_iff (a := a) hnow hi ht
    exact ⟨i, _, ht, hasks.mpr hasked, (hwait (hasks.mpr hasked)).trans_le hle⟩

/-! ## When a scan does what it should do -/

/-- The trackers that are due are asked. -/
theorem Inv.asked_iff (h : Inv now protocols as s) (hnow : now < u64Max) :
    (∀ t ∈ s.trackers, t.Usable → t.nextRequestTime ≤ a.start → s.Asks t) ↔
      ∀ i τ, protocols[i]? = some .udp → timeKept now 0 (udpCalls as i) = some τ →
        a.start < τ := by
  have hscan := h.scanTime
  constructor
  · intro hasked i τ hi hτ
    obtain ⟨t, ht, hfollows⟩ := h.udp hi
    obtain ⟨hlate, hnext, hfew⟩ := hfollows.late τ hτ
    by_contra hdue
    have hasks : t.nextRequestTime ≤ s.scanTime :=
      hasked (.udp t) (List.mem_of_getElem? ht) hfew (hnext.trans_le (Nat.not_lt.mp hdue))
    omega
  · intro hearly t hmem husable hdue
    obtain ⟨i, ht⟩ := List.mem_iff_getElem?.mp hmem
    obtain ⟨protocol, hi⟩ := h.exists_protocol ht
    refine (h.asks_iff (a := a) hnow hi ht).1.mpr ?_
    cases protocol with
    | udp =>
        obtain ⟨t', ht', hfollows⟩ := h.udp hi
        obtain rfl : .udp t' = t := Option.some.inj (ht'.symm.trans ht)
        show timeKept now 0 (udpCalls as i) = none
        by_contra hkept
        obtain ⟨τ, hτ⟩ := Option.ne_none_iff_exists'.mp hkept
        have hnext := (hfollows.late τ hτ).2.1
        have hstart := hearly i τ hi hτ
        have hdue : t'.nextRequestTime ≤ a.start := hdue
        omega
    | http =>
        obtain rfl : .http _ = t := Option.some.inj ((h.http hnow hi).symm.trans ht)
        show ∀ a ∈ as, (a.calls i).http.isSome
        by_contra hfailed
        exact husable (if_neg hfailed)

/-- When a scan returns no wait. -/
theorem Inv.wait_zero_iff (h : Inv now protocols as s) (hnow : now < u64Max) :
    (s.scanTracker a.calls).2 ≤ 0 ↔
      ∃ i p, protocols[i]? = some p ∧ Asked now as i p ∧ told as a i p = 0 := by
  rw [scanTracker_le_iff (by decide), h.exists_told_le_iff hnow]
  simp only [Nat.le_zero]

/-- When a scan returns no more than what is left of a time that is kept after it. -/
theorem Inv.wait_le_iff {τ : ℕ} (h : Inv now protocols as s)
    (hstep : TrackerSchedule.step s a = some s') (hi : protocols[i]? = some .udp)
    (hτ : timeKept now 0 (udpCalls (as ++ [a]) i) = some τ) :
    τ - a.stop < u64Max ∧ ((s.scanTracker a.calls).2 ≤ τ - a.stop ↔
      ∃ j p, protocols[j]? = some p ∧ Asked now as j p ∧ told as a j p ≤ τ - a.stop) := by
  have hafter := h.step hstep
  obtain ⟨hclock, hstart, hstop, -, rfl⟩ := step_cases hstep
  have hge := h.clock
  have hcalls : ∀ c ∈ udpCalls (as ++ [a]) i, c.clock ≤ a.stop := by
    intro c hc
    obtain ⟨a', ha', rfl⟩ := List.mem_map.mp hc
    obtain ⟨hlt, -⟩ := List.getElem?_eq_some_iff.mp hi
    exact (hafter.calls i hlt a' ha').2
  have hlt := timeKept_lt hcalls hτ
  have hsmall : τ - a.stop < u64Max := by omega
  exact ⟨hsmall, (scanTracker_le_iff hsmall).trans (h.exists_told_le_iff (by omega))⟩

/-- The times that are kept are not over, if nobody answers without a wait. -/
theorem Inv.brief_of_slept (h : Inv now protocols as s) (hnow : now < u64Max)
    (hstep : TrackerSchedule.step s a = some s') (hwaits : ¬ (s.scanTracker a.calls).2 ≤ 0)
    (hslept : ∀ t ∈ s'.trackers, t.Usable →
      (s.scanTracker a.calls).2 ≤ t.nextRequestTime - a.stop) :
    (∀ i, protocols[i]? = some .http → Asked now as i .http → (a.calls i).http = none) ∧
      ∀ i τ, protocols[i]? = some .udp → timeKept now 0 (udpCalls (as ++ [a]) i) = some τ →
        ∃ j, protocols[j]? = some .udp ∧ Asked now as j .udp ∧ a.stop + told as a j .udp ≤ τ := by
  have hafter := h.step hstep
  have hhttp : ∀ i, protocols[i]? = some .http → Asked now as i .http →
      (a.calls i).http = none := by
    intro i hi hasked
    by_contra hanswers
    have hall : ∀ a' ∈ as ++ [a], (a'.calls i).http.isSome := by
      rw [List.forall_mem_append, List.forall_mem_singleton]
      exact ⟨hasked, Option.isSome_iff_ne_none.mpr hanswers⟩
    -- it is due already
    have ht := hafter.http hnow hi
    rw [if_pos hall] at ht
    have hleft := hslept _ (List.mem_of_getElem? ht) (by decide)
    exact hwaits (hleft.trans_eq (Nat.zero_sub _))
  refine ⟨hhttp, fun i τ hi hτ => ?_⟩
  obtain ⟨t, ht, hfollows⟩ := hafter.udp hi
  obtain ⟨-, hnext, hfew⟩ := hfollows.late τ hτ
  have hleft : (s.scanTracker a.calls).2 ≤ t.nextRequestTime - a.stop :=
    hslept (.udp t) (List.mem_of_getElem? ht) hfew
  rw [hnext] at hleft
  obtain ⟨hsmall, hiff⟩ := h.wait_le_iff hstep hi hτ
  obtain ⟨j, p, hj, hasked, hle⟩ := hiff.mp hleft
  have hpos : told as a j p ≠ 0 :=
    fun htold => hwaits ((h.wait_zero_iff hnow).mpr ⟨j, p, hj, hasked, htold⟩)
  cases p with
  | udp => exact ⟨j, hj, hasked, by omega⟩
  | http =>
      -- it does not answer
      have htold : told as a j .http = u64Max := by
        unfold told
        rw [hhttp j hj hasked]
      omega

/-- The time that is left to the trackers of either kind. -/
theorem Inv.slept_of_brief (h : Inv now protocols as s) (hnow : now < u64Max)
    (hstep : TrackerSchedule.step s a = some s') (hwaits : ¬ (s.scanTracker a.calls).2 ≤ 0)
    (hhttp : ∀ i, protocols[i]? = some .http → Asked now as i .http → (a.calls i).http = none)
    (hudp : ∀ i τ, protocols[i]? = some .udp →
      timeKept now 0 (udpCalls (as ++ [a]) i) = some τ →
        ∃ j, protocols[j]? = some .udp ∧ Asked now as j .udp ∧ a.stop + told as a j .udp ≤ τ) :
    ∀ t ∈ s'.trackers, t.Usable → (s.scanTracker a.calls).2 ≤ t.nextRequestTime - a.stop := by
  have hafter := h.step hstep
  intro t hmem husable
  obtain ⟨i, ht⟩ := List.mem_iff_getElem?.mp hmem
  obtain ⟨protocol, hi⟩ := hafter.exists_protocol ht
  cases protocol with
  | udp =>
      obtain ⟨t', ht', hfollows⟩ := hafter.udp hi
      obtain rfl : .udp t' = t := Option.some.inj (ht'.symm.trans ht)
      cases hkept : timeKept now 0 (udpCalls (as ++ [a]) i) with
      | none =>
          -- it has told no wait in this scan
          have hcalls : udpCalls (as ++ [a]) i = udpCalls as i ++ [(a.calls i).udp] :=
            List.map_append
          rw [hcalls, timeKept_append, Option.or_eq_none_iff] at hkept
          obtain ⟨hasked, hnone⟩ := hkept
          have htold : told as a i .udp = 0 := by
            by_contra hpos
            rw [if_neg fun hboth => hpos hboth.1] at hnone
            cases hnone
          exact absurd ((h.wait_zero_iff hnow).mpr ⟨i, .udp, hi, hasked, htold⟩) hwaits
      | some τ =>
          obtain ⟨-, hnext, -⟩ := hfollows.late τ hkept
          obtain ⟨j, hj, hasked, hle⟩ := hudp i τ hi hkept
          show _ ≤ t'.nextRequestTime - a.stop
          rw [hnext]
          exact (h.wait_le_iff hstep hi hkept).2.mpr ⟨j, .udp, hj, hasked, by omega⟩
  | http =>
      obtain rfl : .http _ = t := Option.some.inj ((hafter.http hnow hi).symm.trans ht)
      by_cases hall : ∀ a' ∈ as ++ [a], (a'.calls i).http.isSome
      · have hnone := hhttp i hi fun a' ha' => hall a' (List.mem_append_left _ ha')
        have hanswers := hall a (List.mem_append_right _ List.mem_cons_self)
        rw [hnone] at hanswers
        cases hanswers
      · exact absurd (if_neg hall) husable

/-- **When trackers are asked in time.**  In every run, a scan asks all usable trackers that are
due and returns no more than the time that is left to any, exactly if the scan is punctual. -/
theorem rescheduled_iff (hrun : Transition.FreeRun step (.init now protocols) as s)
    (hstep : step s a = some s') : Rescheduled s a ↔ Punctual now protocols as a := by
  have hinv := Inv.of_run hrun
  have hnow : now < u64Max := by
    obtain ⟨hclock, hstart, hstop, -⟩ := step_cases hstep
    have hge := hinv.clock
    omega
  have hasked := hinv.asked_iff (a := a) hnow
  have hzero := hinv.wait_zero_iff (a := a) hnow
  have htrackers : s'.trackers = (s.scanTracker a.calls).1 := by
    obtain ⟨-, -, -, -, rfl⟩ := step_cases hstep
    rfl
  constructor
  · rintro ⟨hdue, hslept⟩
    refine ⟨hasked.mp hdue, ?_⟩
    by_cases hsome : (s.scanTracker a.calls).2 ≤ 0
    · exact Or.inl (hzero.mp hsome)
    · exact Or.inr (hinv.brief_of_slept hnow hstep hsome (htrackers ▸ hslept))
  · rintro ⟨hearly, hbrief⟩
    refine ⟨hasked.mpr hearly, ?_⟩
    by_cases hsome : (s.scanTracker a.calls).2 ≤ 0
    · exact fun t _ _ => hsome.trans (Nat.zero_le _)
    · obtain ⟨hhttp, hudp⟩ := hbrief.resolve_left fun htells => hsome (hzero.mpr htells)
      exact htrackers ▸ hinv.slept_of_brief hnow hstep hsome hhttp hudp

/-- A scan is punctual if it skips no UDP tracker, no HTTP tracker answers, and no time passes
until it is over. -/
theorem Punctual.of_prompt (hudp : ∀ i, protocols[i]? = some .udp → Asked now as i .udp)
    (hhttp : ∀ i, (a.calls i).http = none) (hclock : ∀ i, (a.calls i).udp.clock = a.stop) :
    Punctual now protocols as a := by
  refine ⟨fun i τ hi hτ => ?_, Or.inr ⟨fun i _ _ => hhttp i, fun i τ hi hτ => ?_⟩⟩
  · have hnone : timeKept now 0 (udpCalls as i) = none := hudp i hi
    rw [hnone] at hτ
    cases hτ
  · have hnone : timeKept now 0 (udpCalls as i) = none := hudp i hi
    have hcalls : udpCalls (as ++ [a]) i = udpCalls as i ++ [(a.calls i).udp] := List.map_append
    rw [hcalls, timeKept_append, hnone, Option.none_or] at hτ
    split at hτ
    · cases hτ
    · obtain rfl := Option.some.inj hτ
      exact ⟨i, hi, hnone, by rw [hclock i]; exact le_rfl⟩

/-- All UDP trackers answer at once, with an interval. -/
def promptScan (now : ℕ) (interval : UInt32) : Scan :=
  ⟨now, fun _ => ⟨⟨now, .answer now, .answer interval, now⟩, none⟩, now⟩

/-- A UDP tracker answers without a wait, and in the same second with one of 1800 seconds: it is
asked as it should.  In the next scan it is not. -/
theorem rescheduled_same_second : ∃ s s' s'',
    Transition.FreeRun step (.init 100 [.udp, .http]) [promptScan 100 0] s ∧
      step s (promptScan 100 1800) = some s' ∧ Rescheduled s (promptScan 100 1800) ∧
      step s' (promptScan 1900 1800) = some s'' ∧ ¬ Rescheduled s' (promptScan 1900 1800) := by
  have hexec : Transition.exec step (.init 100 [.udp, .http]) [promptScan 100 0] =
      some ⟨100, [.udp ⟨100, 0, 100⟩, .http ⟨u64Max⟩], 100⟩ := by decide
  have hsecond : step ⟨100, [.udp ⟨100, 0, 100⟩, .http ⟨u64Max⟩], 100⟩ (promptScan 100 1800) =
      some ⟨100, [.udp ⟨100, 0, 1900⟩, .http ⟨u64Max⟩], 100⟩ := by decide
  have hthird : step ⟨100, [.udp ⟨100, 0, 1900⟩, .http ⟨u64Max⟩], 100⟩ (promptScan 1900 1800) =
      some ⟨100, [.udp ⟨100, 0, 1900⟩, .http ⟨u64Max⟩], 1900⟩ := by decide
  have hrun := Transition.Run.of_exec hexec
  refine ⟨_, _, _, hrun, hsecond, (rescheduled_iff hrun hsecond).mpr ?_, hthird, fun h => ?_⟩
  · refine Punctual.of_prompt (fun i hi => ?_) (fun _ => rfl) fun _ => rfl
    show timeKept 100 0 [⟨100, .answer 100, .answer 0, 100⟩] = none
    decide
  · -- it has kept 1900
    have hlate := ((rescheduled_iff (hrun.tail trivial hsecond) hthird).mp h).early 0 1900 rfl
      (by decide)
    exact absurd hlate (lt_irrefl 1900)

/-- A UDP tracker asks for a wait of 1800 seconds, and the next scan comes when they are over: it
does not ask. -/
theorem due_tracker_skipped :
    ∃ s s', Transition.FreeRun step (.init 100 [.udp]) [promptScan 100 1800] s ∧
      ((State.init 100 [.udp]).scanTracker (promptScan 100 1800).calls).2 = 1800 ∧
      step s (promptScan (100 + 1800) 1800) = some s' ∧
      ¬ Rescheduled s (promptScan (100 + 1800) 1800) := by
  have hexec : Transition.exec step (.init 100 [.udp]) [promptScan 100 1800] =
      some ⟨100, [.udp ⟨100, 0, 1900⟩], 100⟩ := by decide
  have hstep : step ⟨100, [.udp ⟨100, 0, 1900⟩], 100⟩ (promptScan (100 + 1800) 1800) =
      some ⟨100, [.udp ⟨100, 0, 1900⟩], 1900⟩ := by decide
  refine ⟨_, _, .of_exec hexec, by decide, hstep, ?_⟩
  intro h
  have hasks := h.asked _ (List.mem_singleton_self _) (by decide) (by decide)
  exact absurd hasks (by decide)

/-! ## The second scan -/

/-- A tracker whose time lies after `scan_time` stays as it is for good. -/
theorem skipped_forever {t : TrackerInstance} {as : List Scan}
    (hrun : Transition.FreeRun step s as s') (ht : s.trackers[i]? = some t) (hskips : ¬ s.Asks t) :
    s'.trackers[i]? = some t ∧ ¬ s'.Asks t := by
  refine hrun.invariant (I := fun s => s.trackers[i]? = some t ∧ ¬ s.Asks t) ⟨ht, hskips⟩ ?_
  rintro s a s' ⟨ht, hskips⟩ - hstep
  obtain ⟨-, -, -, -, rfl⟩ := step_cases hstep
  refine ⟨?_, hskips⟩
  have hskips : ¬ t.nextRequestTime ≤ s.scanTime := hskips
  show (s.scanTracker a.calls).1[i]? = some t
  rw [getElem?_scanTracker, ht, Option.map_some, trackerHandleProcess_eq, if_neg hskips]

/-- **A UDP tracker is asked once.**  A UDP tracker that is asked, tells a wait and can be asked
again is never asked again. -/
theorem asked_once {t : UdpTracker} {as : List Scan} {s'' : State}
    (hstep : step s a = some s') (hscan : s.scanTime ≤ (a.calls i).udp.clock)
    (ht : s.trackers[i]? = some (.udp t)) (hasks : s.Asks (.udp t))
    (husable : (TrackerInstance.request (.udp t) (a.calls i)).1.Usable)
    (hwait : 0 < TrackerInstance.wait (.udp t) (a.calls i))
    (hrun : Transition.FreeRun step s' as s'') :
    ∃ t', s''.trackers[i]? = some t' ∧ t'.Usable ∧ ¬ s''.Asks t' := by
  obtain ⟨-, -, -, -, rfl⟩ := step_cases hstep
  have hasks : (TrackerInstance.udp t).nextRequestTime ≤ s.scanTime := hasks
  have hat : (s.scanTracker a.calls).1[i]? =
      some (TrackerInstance.request (.udp t) (a.calls i)).1 := by
    rw [getElem?_scanTracker, ht, Option.map_some, trackerHandleProcess_eq, if_pos hasks]
  obtain ⟨htime, -⟩ := t.request_nextRequestTime (a.calls i).udp husable
  have hlate : ¬ (TrackerInstance.request (.udp t) (a.calls i)).1.nextRequestTime ≤ s.scanTime := by
    have hwait : 0 < (t.request (a.calls i).udp).2 := hwait
    show ¬ (t.request (a.calls i).udp).1.nextRequestTime ≤ s.scanTime
    omega
  obtain ⟨hsame, hskips⟩ := skipped_forever hrun hat hlate
  exact ⟨_, hsame, husable, hskips⟩

end TrackerSchedule
