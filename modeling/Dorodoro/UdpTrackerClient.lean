/-
# The UDP tracker client, byte by byte (`bt/tracker/udp_tracker.rs`)

`UdpTracker` speaks the protocol of BEP 15: a connect request buys a connection id, an announce
request that carries the id buys a list of peers.

* `Session` is a tracker with the datagrams it has sent so far, each with what came back;
  `send`, `connecting`, `updateConnect`, `announcing` and `incRetryCount` follow the source;
* `request_refines`: seen from outside it keeps the times of `TrackerSchedule.UdpTracker`;
* `fresh_ids`: every announce carries an id that the tracker has given for a connect request of this
  client, looked at within a minute;
* `unanswered_le`: no more than nine datagrams in a row stay without an answer;
* `announcing_bep15`: what a tracker that keeps to the protocol is asked and what is made of its
  answer.
-/
import Dorodoro.CompactLists
import Dorodoro.TrackerSchedule
import Mathlib.Algebra.GroupWithZero.Nat

open Transition CompactLists

namespace TrackerClient

/-! ## Data -/

/-- `tracker::Event`. -/
inductive Event where
  | none
  | completed
  | started
  | stopped
  deriving DecidableEq

/-- `event as u32`. -/
def Event.toNat : Event → ℕ
  | none => 0
  | completed => 1
  | started => 2
  | stopped => 3

/-- `Action`. -/
inductive Action where
  | connect
  | announce
  | scrape
  | error
  deriving DecidableEq

/-- `action as u32`. -/
def Action.toNat : Action → ℕ
  | connect => 0
  | announce => 1
  | scrape => 2
  | error => 3

/-- An error of the socket or a timeout, or one of the checks with its text. -/
inductive Failure where
  | socket
  | check (message : String)
  deriving DecidableEq

/-- `TRACKER_PROTOCOL_ID`. -/
def trackerProtocolId : ℕ := 0x41727101980

/-- `MIN_CONNECT_RESP_SIZE`. -/
def minConnectRespSize : ℕ := 16

/-- `MIN_ANNOUNCE_RESP_SIZE`. -/
def minAnnounceRespSize : ℕ := 20

/-- `MAX_PAYLOAD_SIZE`. -/
def maxPayloadSize : ℕ := 65507

/-- `UdpTracker`, without the address it sends to. -/
structure UdpTracker where
  /-- `connect`: the connection id and when it was obtained. -/
  connectionId : ℕ
  timestamp : ℕ
  retryCount : ℕ
  infoHash : Vector UInt8 20
  peerId : Vector UInt8 20
  nextRequestTime : ℕ
  deriving DecidableEq

/-- `UdpTracker::new`. -/
def UdpTracker.new (infoHash peerId : Vector UInt8 20) : UdpTracker :=
  ⟨0, 0, 0, infoHash, peerId, 0⟩

/-- `AnnounceInfo`, as it is read for one announce. -/
structure AnnounceInfo where
  download : ℕ
  uploaded : ℕ
  resourceSize : ℕ
  port : ℕ
  deriving DecidableEq

/-- `Announce`. -/
structure Announce where
  interval : ℕ
  leechers : ℕ
  seedrs : ℕ
  peers : List SocketAddr
  deriving DecidableEq

/-- A datagram that was sent, what the socket has received for it, and a reading of the clock:
behind a connect, and in `update_connect` in front of an announce. -/
structure Exchange where
  data : Bytes
  reply : Option Bytes
  clock : ℕ
  deriving DecidableEq

/-- A tracker, and what it has sent; the last datagram is the first in the list. -/
structure Session where
  tracker : UdpTracker
  log : List Exchange
  deriving DecidableEq

/-- What an announce meets: random numbers, readings of the clock, and what comes back. -/
structure Call where
  event : Event
  info : AnnounceInfo
  processKey : UInt32
  /-- The clock in `update_connect`. -/
  checked : ℕ
  connectTran : UInt32
  connectReply : Option Bytes
  /-- The clock behind the connect. -/
  connected : ℕ
  announceTran : UInt32
  announceReply : Option Bytes
  /-- The clock when the next time is set. -/
  clock : ℕ
  deriving DecidableEq

/-! ## Requests and responses -/

/-- `gen_protocol_head`, with the transaction id that is drawn. -/
def genProtocolHead (connectId : ℕ) (action : Action) (tranId : UInt32) : Bytes :=
  toBeBytes 8 connectId ++ toBeBytes 4 action.toNat ++ toBeBytes 4 tranId.toNat

/-- The fields of an announce request in the order in which they are written. -/
def announceFields (t : UdpTracker) (x : Call) : List Bytes :=
  [toBeBytes 8 t.connectionId, toBeBytes 4 Action.announce.toNat, toBeBytes 4 x.announceTran.toNat,
    t.infoHash.toList, t.peerId.toList, toBeBytes 8 x.info.download,
    toBeBytes 8 (x.info.resourceSize - x.info.download), toBeBytes 8 x.info.uploaded,
    toBeBytes 4 x.event.toNat,
    -- the address
    toBeBytes 4 0,
    toBeBytes 4 x.processKey.toNat,
    -- `write_i32(-1)`
    toBeBytes 4 (2 ^ 32 - 1),
    toBeBytes 2 x.info.port]

/-- The request of `announcing`. -/
def announceRequest (t : UdpTracker) (x : Call) : Bytes := (announceFields t x).flatten

/-- `parse_peers_v4`. -/
def parsePeersV4 (peers : Bytes) : Except Failure (List SocketAddr) :=
  if peers.length % 6 = 0 then
    .ok ((chunks 6 peers).map fun chunk =>
      .v4 (fromBeSlice 4 (chunk.take 4)) (fromBeSlice 2 (chunk.drop 4)))
  else .error (.check "peers length should be a multiple of 6")

/-- `check_resp_data`; the action is not compared with the one that was asked for. -/
def checkRespData (data : Bytes) (reqTranId : UInt32) : Except Failure Unit :=
  let action := fromBeSlice 4 (data.take 4)
  let respTranId := fromBeSlice 4 ((data.drop 4).take 4)
  if respTranId ≠ reqTranId.toNat then .error (.check "传输 ID 不匹配")
  else if action = Action.error.toNat then .error (.check "Tracker 出现错误")
  else .ok ()

/-- The checks of `connecting`, and the connection id. -/
def parseConnect (resp : Bytes) (reqTranId : UInt32) : Except Failure ℕ := do
  if resp.length < minConnectRespSize then throw (.check "响应数据长度不足")
  checkRespData resp reqTranId
  return fromBeSlice 8 ((resp.drop 8).take 8)

/-- The checks of `announcing`, and the fields of the response. -/
def parseAnnounce (resp : Bytes) (reqTranId : UInt32) : Except Failure Announce := do
  if resp.length < minAnnounceRespSize then throw (.check "响应数据长度不足")
  checkRespData resp reqTranId
  let peers ← parsePeersV4 (resp.drop 20)
  return ⟨fromBeSlice 4 ((resp.drop 8).take 4), fromBeSlice 4 ((resp.drop 12).take 4),
    fromBeSlice 4 ((resp.drop 16).take 4), peers⟩

/-! ## The client -/

/-- `send_recv`, with what arrives: the buffer cuts it off. -/
def sendRecv (expectSize : ℤ) (arrives : Option Bytes) : Except Failure Bytes :=
  match arrives with
  | none => .error .socket
  | some datagram =>
      .ok (datagram.take (if expectSize < 0 then maxPayloadSize else expectSize.toNat))

/-- `send`. -/
def send (s : Session) (data : Bytes) (expectSize : ℤ) (arrives : Option Bytes) (clock : ℕ) :
    Session × Except Failure Bytes :=
  if s.tracker.retryCount ≤ TrackerSchedule.maxRetryNum then
    let log := ⟨data, (sendRecv expectSize arrives).toOption, clock⟩ :: s.log
    match sendRecv expectSize arrives with
    | .ok resp => (⟨{ s.tracker with retryCount := 0 }, log⟩, .ok resp)
    | .error e => (⟨s.tracker, log⟩, .error e)
  else (s, .error (.check "请求超时，且重试次数过多"))

/-- `connecting`. -/
def connecting (s : Session) (x : Call) : Session × Except Failure ℕ :=
  let req := genProtocolHead trackerProtocolId .connect x.connectTran
  match send s req minConnectRespSize x.connectReply x.connected with
  | (s', .error e) => (s', .error e)
  | (s', .ok resp) => (s', parseConnect resp x.connectTran)

/-- `update_connect`. -/
def updateConnect (s : Session) (x : Call) : Session × Except Failure Unit :=
  if s.tracker.timestamp ≤ x.checked ∧
      x.checked - s.tracker.timestamp ≤ TrackerSchedule.connectionIdTimeout then (s, .ok ())
  else
    match connecting s x with
    | (s', .error e) => (s', .error e)
    | (s', .ok connectionId) =>
        (⟨{ s'.tracker with connectionId := connectionId, timestamp := x.connected }, s'.log⟩,
          .ok ())

/-- `announcing`. -/
def announcing (s : Session) (x : Call) : Session × Except Failure Announce :=
  match updateConnect s x with
  | (s₁, .error e) => (s₁, .error e)
  | (s₁, .ok ()) =>
      match send s₁ (announceRequest s₁.tracker x) (-1) x.announceReply x.checked with
      | (s₂, .error e) => (s₂, .error e)
      | (s₂, .ok resp) =>
          match parseAnnounce resp x.announceTran with
          | .error e => (s₂, .error e)
          | .ok announce =>
              (⟨{ s₂.tracker with nextRequestTime := x.clock + announce.interval }, s₂.log⟩,
                .ok announce)

/-- `inc_retry_count`. -/
def incRetryCount (s : Session) (clock : ℕ) : Session × ℕ :=
  if s.tracker.retryCount > TrackerSchedule.maxRetryNum then (s, TrackerSchedule.u64Max)
  else
    let interval := TrackerSchedule.socketReadTimeoutMillis * (s.tracker.retryCount + 1)
    (⟨{ s.tracker with
        retryCount := s.tracker.retryCount + 1
        nextRequestTime := clock + interval }, s.log⟩, interval)

/-- `scan_udp_tracker` asks the tracker; the wait it returns. -/
def request (s : Session) (x : Call) : Session × ℕ :=
  match announcing s x with
  | (s', .ok announce) => (s', announce.interval)
  | (s', .error _) => incRetryCount s' x.clock

/-- The tracker is asked again and again. -/
def step (s : Session) (x : Call) : Option Session := some (request s x).1

/-- The session of a new tracker. -/
def Session.new (infoHash peerId : Vector UInt8 20) : Session := ⟨.new infoHash peerId, []⟩

/-! ## What a call does -/

/-- What became of a datagram: it was not sent, was not answered, or was answered. -/
theorem send_cases (s : Session) (data : Bytes) (expectSize : ℤ) (arrives : Option Bytes)
    (clock : ℕ) :
    (TrackerSchedule.maxRetryNum < s.tracker.retryCount ∧
      ∃ e, send s data expectSize arrives clock = (s, .error e)) ∨
    (s.tracker.retryCount ≤ TrackerSchedule.maxRetryNum ∧
      ((arrives = none ∧
        send s data expectSize arrives clock =
          (⟨s.tracker, ⟨data, none, clock⟩ :: s.log⟩, .error .socket)) ∨
      ∃ resp, sendRecv expectSize arrives = .ok resp ∧
        send s data expectSize arrives clock =
          (⟨{ s.tracker with retryCount := 0 }, ⟨data, some resp, clock⟩ :: s.log⟩,
            .ok resp))) := by
  unfold send
  split
  · next hfew =>
      refine Or.inr ⟨hfew, ?_⟩
      match arrives with
      | none => exact Or.inl ⟨rfl, rfl⟩
      | some datagram => exact Or.inr ⟨_, rfl, rfl⟩
  · next hmany => exact Or.inl ⟨Nat.not_le.mp hmany, _, rfl⟩

/-! ## The times of the schedule -/

/-- The times of a tracker. -/
def UdpTracker.times (t : UdpTracker) : TrackerSchedule.UdpTracker :=
  ⟨t.timestamp, t.retryCount, t.nextRequestTime⟩

/-- What the schedule sees of what has come back. -/
def toReply {α β : Type} (received : Except Failure Bytes) (parse : Bytes → Except Failure α)
    (view : α → β) : TrackerSchedule.Reply β :=
  match received with
  | .error _ => .lost
  | .ok resp =>
      match parse resp with
      | .error _ => .garbled
      | .ok a => .answer (view a)

/-- What the schedule sees of a call. -/
def Call.times (x : Call) : TrackerSchedule.UdpCall where
  checked := x.checked
  connect := toReply (sendRecv minConnectRespSize x.connectReply)
    (fun resp => parseConnect resp x.connectTran) fun _ => x.connected
  announce := toReply (sendRecv (-1) x.announceReply)
    (fun resp => parseAnnounce resp x.announceTran) fun a => UInt32.ofNat a.interval
  clock := x.clock

/-- The answers to the calls of a run, one after the other. -/
def requests (s : Session) : List Call → Session × List ℕ
  | [] => (s, [])
  | x :: xs =>
      ((requests (request s x).1 xs).1, (request s x).2 :: (requests (request s x).1 xs).2)

/-- The same in the schedule. -/
def scheduled (t : TrackerSchedule.UdpTracker) :
    List TrackerSchedule.UdpCall → TrackerSchedule.UdpTracker × List ℕ
  | [] => (t, [])
  | x :: xs =>
      ((scheduled (t.request x).1 xs).1, (t.request x).2 :: (scheduled (t.request x).1 xs).2)

/-- A datagram and the checks of its answer, in the schedule. -/
theorem send_times {α β : Type} (s : Session) (data : Bytes) (expectSize : ℤ)
    (arrives : Option Bytes) (clock : ℕ) (parse : Bytes → Except Failure α) (view : α → β) :
    s.tracker.times.send (toReply (sendRecv expectSize arrives) parse view) =
      ((send s data expectSize arrives clock).1.tracker.times,
        ((send s data expectSize arrives clock).2.bind parse).toOption.map view) := by
  rcases send_cases s data expectSize arrives clock with
    ⟨hmany, e, hsend⟩ | ⟨hfew, ⟨rfl, hsend⟩ | ⟨resp, hresp, hsend⟩⟩
  · unfold TrackerSchedule.UdpTracker.send
    rw [hsend, if_neg (show ¬ s.tracker.times.retryCount ≤ _ from Nat.not_le.mpr hmany)]
    rfl
  · unfold TrackerSchedule.UdpTracker.send
    rw [hsend, if_pos (show s.tracker.times.retryCount ≤ _ from hfew)]
    rfl
  · unfold TrackerSchedule.UdpTracker.send
    rw [hsend, hresp, if_pos (show s.tracker.times.retryCount ≤ _ from hfew)]
    unfold toReply
    dsimp only
    show _ = (_, Option.map view (parse resp).toOption)
    rcases parse resp with _ | a
    · rfl
    · rfl

/-- A connect is a datagram and the checks of its answer. -/
theorem connecting_eq (s : Session) (x : Call) :
    connecting s x =
      ((send s (genProtocolHead trackerProtocolId .connect x.connectTran) minConnectRespSize
          x.connectReply x.connected).1,
        (send s (genProtocolHead trackerProtocolId .connect x.connectTran) minConnectRespSize
          x.connectReply x.connected).2.bind fun resp => parseConnect resp x.connectTran) := by
  unfold connecting
  dsimp only
  match send s _ _ _ _ with
  | (s', .error e) => rfl
  | (s', .ok resp) => rfl

theorem updateConnect_times (s : Session) (x : Call) :
    s.tracker.times.updateConnect x.times =
      ((updateConnect s x).1.tracker.times, (updateConnect s x).2.toOption) := by
  unfold TrackerSchedule.UdpTracker.updateConnect updateConnect
  show (if s.tracker.timestamp ≤ x.checked ∧ x.checked - s.tracker.timestamp ≤ _ then _ else _) = _
  split
  · rfl
  · have hsend : s.tracker.times.send x.times.connect = _ :=
      send_times s (genProtocolHead trackerProtocolId .connect x.connectTran) minConnectRespSize
        x.connectReply x.connected (fun resp => parseConnect resp x.connectTran)
        fun _ => x.connected
    rw [connecting_eq, hsend]
    match (send s _ _ _ _).2.bind fun resp => parseConnect resp x.connectTran with
    | .error _ => rfl
    | .ok _ => rfl

/-- The interval of a response is a number of 32 bits. -/
theorem interval_lt {resp : Bytes} {tran : UInt32} {a : Announce}
    (h : parseAnnounce resp tran = .ok a) : a.interval < 2 ^ 32 := by
  unfold parseAnnounce at h
  split at h
  · cases h
  · next hlen =>
      obtain ⟨-, -, h⟩ := Checked.bind_eq_ok.mp h
      obtain ⟨peers, -, h⟩ := Checked.bind_eq_ok.mp h
      obtain rfl := Except.ok.inj h
      have hfour : ((resp.drop 8).take 4).length = 4 := by
        rw [List.length_take, List.length_drop]
        have hmin : minAnnounceRespSize = 20 := rfl
        omega
      exact fromBeSlice_lt _ 4 hfour

theorem announcing_times (s : Session) (x : Call) :
    s.tracker.times.announcing x.times =
      ((announcing s x).1.tracker.times, (announcing s x).2.toOption.map Announce.interval) := by
  unfold TrackerSchedule.UdpTracker.announcing announcing
  rw [updateConnect_times]
  match updateConnect s x with
  | (s₁, .error e) => rfl
  | (s₁, .ok ()) =>
      have hsend : s₁.tracker.times.send x.times.announce = _ :=
        send_times s₁ (announceRequest s₁.tracker x) (-1) x.announceReply x.checked
          (fun resp => parseAnnounce resp x.announceTran) fun a => UInt32.ofNat a.interval
      dsimp only [Except.toOption]
      rw [hsend]
      match send s₁ (announceRequest s₁.tracker x) (-1) x.announceReply x.checked with
      | (s₂, .error e) => rfl
      | (s₂, .ok resp) =>
          dsimp only [Except.bind]
          match hparse : parseAnnounce resp x.announceTran with
          | .error e => rfl
          | .ok a =>
              have hinterval : (UInt32.ofNat a.interval).toNat = a.interval :=
                UInt32.toNat_ofNat_of_lt' (interval_lt hparse)
              show (_, some _) = (_, some _)
              rw [hinterval]
              rfl

theorem incRetryCount_times (s : Session) (clock : ℕ) :
    s.tracker.times.incRetryCount clock =
      ((incRetryCount s clock).1.tracker.times, (incRetryCount s clock).2) := by
  unfold TrackerSchedule.UdpTracker.incRetryCount incRetryCount
  show (if s.tracker.retryCount > _ then _ else _) = _
  split <;> rfl

/-- A call, in the schedule. -/
theorem request_times (s : Session) (x : Call) :
    s.tracker.times.request x.times = ((request s x).1.tracker.times, (request s x).2) := by
  unfold TrackerSchedule.UdpTracker.request request
  rw [announcing_times]
  match announcing s x with
  | (s', .ok a) => rfl
  | (s', .error e) => exact incRetryCount_times s' x.clock

/-- **Refinement.**  Whatever the network does, a tracker that is asked again and again keeps the
times of the schedule and tells its waits. -/
theorem request_refines (s : Session) (xs : List Call) :
    scheduled s.tracker.times (xs.map Call.times) =
      ((requests s xs).1.tracker.times, (requests s xs).2) := by
  induction xs generalizing s with
  | nil => rfl
  | cons x xs ih =>
      rw [List.map_cons, scheduled, requests, request_times, ih]

/-! ## What was sent, and what came back -/

/-- `size` bytes from `offset` on. -/
def field (data : Bytes) (offset size : ℕ) : Bytes := (data.drop offset).take size

/-- A field of a string that was put together from its fields. -/
theorem field_flatten (fields : List Bytes) (i : ℕ) (hi : i < fields.length) :
    field fields.flatten ((fields.map List.length).take i).sum fields[i].length = fields[i] := by
  induction fields generalizing i with
  | nil => cases hi
  | cons f fields ih =>
      rw [field, List.flatten_cons]
      match i with
      | 0 =>
          show ((f ++ fields.flatten).drop 0).take f.length = f
          rw [List.drop_zero, List.take_left]
      | i + 1 =>
          rw [List.map_cons, List.take_succ_cons, List.sum_cons, ← List.drop_drop, List.drop_left]
          exact ih i (Nat.lt_of_succ_lt_succ hi)

/-- The sizes of the fields of an announce request. -/
def announceSizes : List ℕ := [8, 4, 4, 20, 20, 8, 8, 8, 4, 4, 4, 4, 2]

theorem map_length_announceFields (t : UdpTracker) (x : Call) :
    (announceFields t x).map List.length = announceSizes := by
  simp [announceFields, announceSizes]

/-- The fields of an announce request stand where they should. -/
theorem field_announceRequest (t : UdpTracker) (x : Call) (i : ℕ)
    (hi : i < (announceFields t x).length) :
    field (announceRequest t x) (announceSizes.take i).sum
      (announceFields t x)[i].length = (announceFields t x)[i] := by
  rw [← map_length_announceFields t x]
  exact field_flatten _ i hi

theorem length_announceRequest (t : UdpTracker) (x : Call) :
    (announceRequest t x).length = 98 := by
  rw [announceRequest, List.length_flatten, map_length_announceFields]
  rfl

namespace Exchange

/-- The first field of a request: the protocol, or a connection id. -/
def connectId (e : Exchange) : ℕ := fromBeSlice 8 (field e.data 0 8)

/-- The action of a request. -/
def action (e : Exchange) : ℕ := fromBeSlice 4 (field e.data 8 4)

/-- The transaction id of a request. -/
def tranId (e : Exchange) : ℕ := fromBeSlice 4 (field e.data 12 4)

/-- The answer belongs to the request and is no error. -/
def Matches (e : Exchange) (resp : Bytes) : Prop :=
  fromBeSlice 4 (field resp 4 4) = e.tranId ∧ fromBeSlice 4 (field resp 0 4) ≠ Action.error.toNat

instance (e : Exchange) : DecidablePred e.Matches :=
  fun _ => inferInstanceAs (Decidable (_ ∧ _))

/-- The connection id that a tracker has given. -/
def granted (e : Exchange) : Option ℕ :=
  if e.connectId = trackerProtocolId ∧ e.action = Action.connect.toNat then
    e.reply.bind fun resp =>
      if minConnectRespSize ≤ resp.length ∧ e.Matches resp then
        some (fromBeSlice 8 (field resp 8 8))
      else none
  else none

/-- The answer is one that is asked for. -/
def Answers (e : Exchange) (resp : Bytes) : Prop :=
  if e.action = Action.connect.toNat then minConnectRespSize ≤ resp.length ∧ e.Matches resp
  else minAnnounceRespSize ≤ resp.length ∧ e.Matches resp ∧ (resp.length - 20) % 6 = 0

instance (e : Exchange) : DecidablePred e.Answers :=
  fun _ => inferInstanceAs (Decidable (ite _ _ _))

end Exchange

/-- The newest connection id, and when it was given. -/
def lastGrant : List Exchange → Option (ℕ × ℕ)
  | [] => none
  | e :: earlier =>
      match e.granted with
      | some id => some (id, e.clock)
      | none => lastGrant earlier

/-- The announces in a row that came to nothing, as the datagrams tell: after an answer of no use
they are counted afresh. -/
def failures : List Exchange → ℕ
  | [] => 0
  | e :: earlier =>
      match e.reply with
      | none => failures earlier + 1
      | some resp => if e.Answers resp then 0 else 1

/-- The id of an announce is the newest one; it was given just before or not more than a minute ago.
A tracker that has asked for none has the id 0 of the time 0. -/
def Fresh (id clock : ℕ) (earlier : List Exchange) : Prop :=
  id = ((lastGrant earlier).getD (0, 0)).1 ∧
    ((∃ c ∈ earlier.head?, c.granted = some id) ∨
      ((lastGrant earlier).getD (0, 0)).2 ≤ clock ∧
        clock ≤ ((lastGrant earlier).getD (0, 0)).2 + TrackerSchedule.connectionIdTimeout)

/-! ## The requests of the client -/

section Requests

variable (t : UdpTracker) (x : Call) (reply : Option Bytes) (clock : ℕ)

/-- A connect, with what came back. -/
def connectExchange : Exchange :=
  ⟨genProtocolHead trackerProtocolId .connect x.connectTran, reply, clock⟩

/-- An announce, with what came back. -/
def announceExchange : Exchange := ⟨announceRequest t x, reply, clock⟩

theorem connectExchange_fields :
    (connectExchange x reply clock).connectId = trackerProtocolId ∧
      (connectExchange x reply clock).action = Action.connect.toNat ∧
        (connectExchange x reply clock).tranId = x.connectTran.toNat := by
  have hfields := field_flatten
    [toBeBytes 8 trackerProtocolId, toBeBytes 4 Action.connect.toNat,
      toBeBytes 4 x.connectTran.toNat]
  have hdata : (connectExchange x reply clock).data =
      [toBeBytes 8 trackerProtocolId, toBeBytes 4 Action.connect.toNat,
        toBeBytes 4 x.connectTran.toNat].flatten := by
    simp [connectExchange, genProtocolHead]
  rw [← hdata] at hfields
  refine ⟨?_, ?_, ?_⟩
  · refine (congrArg (fromBeSlice 8) (hfields 0 (by simp))).trans ?_
    exact fromBeSlice_toBeBytes 8 _ (by decide)
  · refine (congrArg (fromBeSlice 4) (hfields 1 (by simp))).trans ?_
    exact fromBeSlice_toBeBytes 4 _ (by decide)
  · refine (congrArg (fromBeSlice 4) (hfields 2 (by simp))).trans ?_
    exact fromBeSlice_toBeBytes 4 _ x.connectTran.toNat_lt

theorem announceExchange_fields (hid : t.connectionId < 256 ^ 8) :
    (announceExchange t x reply clock).connectId = t.connectionId ∧
      (announceExchange t x reply clock).action = Action.announce.toNat ∧
        (announceExchange t x reply clock).tranId = x.announceTran.toNat := by
  refine ⟨?_, ?_, ?_⟩
  · refine (congrArg (fromBeSlice 8) (field_announceRequest t x 0 (by simp [announceFields]))).trans
      ?_
    exact fromBeSlice_toBeBytes 8 _ hid
  · refine (congrArg (fromBeSlice 4) (field_announceRequest t x 1 (by simp [announceFields]))).trans
      ?_
    exact fromBeSlice_toBeBytes 4 _ (by decide)
  · refine (congrArg (fromBeSlice 4) (field_announceRequest t x 2 (by simp [announceFields]))).trans
      ?_
    exact fromBeSlice_toBeBytes 4 _ x.announceTran.toNat_lt

end Requests

/-- The checks of a response. -/
theorem checkRespData_iff {e : Exchange} {tran : UInt32} {resp : Bytes}
    (htran : e.tranId = tran.toNat) : checkRespData resp tran = .ok () ↔ e.Matches resp := by
  unfold checkRespData Exchange.Matches
  rw [htran]
  dsimp only
  show (if fromBeSlice 4 (field resp 4 4) ≠ tran.toNat then _
    else if fromBeSlice 4 (field resp 0 4) = Action.error.toNat then _ else _) = _ ↔ _
  split
  · next hne => exact iff_of_false nofun fun h => hne h.1
  · next heq =>
      split
      · next herr => exact iff_of_false nofun fun h => h.2 herr
      · next hok => exact iff_of_true rfl ⟨not_not.mp heq, hok⟩

theorem parseConnect_iff {e : Exchange} {tran : UInt32} {resp : Bytes} {id : ℕ}
    (htran : e.tranId = tran.toNat) :
    parseConnect resp tran = .ok id ↔
      (minConnectRespSize ≤ resp.length ∧ e.Matches resp) ∧ fromBeSlice 8 (field resp 8 8) = id := by
  unfold parseConnect
  split
  · next hlen => exact iff_of_false nofun fun h => absurd h.1.1 (Nat.not_le.mpr hlen)
  · next hlen =>
      rw [← checkRespData_iff htran, and_iff_right (Nat.not_lt.mp hlen)]
      match checkRespData resp tran with
      | .error _ => exact iff_of_false nofun fun h => nomatch h.1
      | .ok () =>
          constructor
          · intro h
            exact ⟨rfl, Except.ok.inj h⟩
          · rintro ⟨-, h⟩
            exact congrArg Except.ok h

theorem parseAnnounce_iff {e : Exchange} {tran : UInt32} {resp : Bytes}
    (htran : e.tranId = tran.toNat) :
    (∃ a, parseAnnounce resp tran = .ok a) ↔
      minAnnounceRespSize ≤ resp.length ∧ e.Matches resp ∧ (resp.length - 20) % 6 = 0 := by
  unfold parseAnnounce
  split
  · next hlen =>
      exact iff_of_false (fun ⟨_, h⟩ => nomatch h) fun h => absurd h.1 (Nat.not_le.mpr hlen)
  · next hlen =>
      rw [← checkRespData_iff htran, and_iff_right (Nat.not_lt.mp hlen)]
      match checkRespData resp tran with
      | .error _ => exact iff_of_false (fun ⟨_, h⟩ => nomatch h) fun h => nomatch h.1
      | .ok () =>
          rw [and_iff_right rfl, ← List.length_drop]
          show (∃ a, (parsePeersV4 (resp.drop 20) >>= fun _ => _) = _) ↔ _
          unfold parsePeersV4
          split
          · next hdvd => exact iff_of_true ⟨_, rfl⟩ hdvd
          · next hdvd => exact iff_of_false (fun ⟨_, h⟩ => nomatch h) hdvd

/-! ## The invariant -/

/-- The id of a granted connect has eight bytes. -/
theorem Exchange.granted_lt {e : Exchange} {id : ℕ} (h : e.granted = some id) : id < 256 ^ 8 := by
  unfold Exchange.granted at h
  split at h
  · obtain ⟨resp, -, hresp⟩ := Option.bind_eq_some_iff.mp h
    obtain ⟨⟨hlen, -⟩, rfl⟩ := Transition.of_ite_eq_some hresp
    apply fromBeSlice_lt
    rw [field, List.length_take, List.length_drop]
    have hmin : minConnectRespSize = 16 := rfl
    omega
  · cases h

/-- What holds of a session between any two datagrams. -/
structure Kept (s : Session) : Prop where
  connect : (s.tracker.connectionId, s.tracker.timestamp) = (lastGrant s.log).getD (0, 0)
  id_lt : s.tracker.connectionId < 256 ^ 8
  fresh : ∀ e earlier, e :: earlier <:+ s.log → e.action = Action.announce.toNat →
    Fresh e.connectId e.clock earlier
  few : ∀ l, l <:+ s.log → failures l ≤ 9

/-- The invariant between two calls. -/
def Ready (s : Session) : Prop := Kept s ∧ s.tracker.retryCount = failures s.log

/-- What holds behind an announce that came to nothing. -/
def Failed (s : Session) : Prop :=
  Kept s ∧ if s.tracker.retryCount ≤ TrackerSchedule.maxRetryNum then
    s.tracker.retryCount + 1 = failures s.log else s.tracker.retryCount = failures s.log

theorem Ready.new (infoHash peerId : Vector UInt8 20) : Ready (.new infoHash peerId) := by
  refine ⟨⟨rfl, show 0 < 256 ^ 8 by decide, ?_, ?_⟩, rfl⟩
  · intro e earlier h
    cases List.suffix_nil.mp h
  · intro l h
    cases List.suffix_nil.mp h
    decide

/-- One more datagram. -/
theorem Kept.push {s : Session} (h : Kept s) {e : Exchange} {t : UdpTracker}
    (hconnect : (t.connectionId, t.timestamp) = (lastGrant (e :: s.log)).getD (0, 0))
    (hid : t.connectionId < 256 ^ 8)
    (hfresh : e.action = Action.announce.toNat → Fresh e.connectId e.clock s.log)
    (hfew : failures (e :: s.log) ≤ 9) : Kept ⟨t, e :: s.log⟩ := by
  refine ⟨hconnect, hid, ?_, ?_⟩
  · intro e' earlier hsuffix haction
    rcases List.suffix_cons_iff.mp hsuffix with heq | hold
    · obtain ⟨rfl, rfl⟩ := List.cons.inj heq
      exact hfresh haction
    · exact h.fresh e' earlier hold haction
  · intro l hsuffix
    rcases List.suffix_cons_iff.mp hsuffix with rfl | hold
    · exact hfew
    · exact h.few l hold

/-- A call that came to nothing is counted. -/
theorem Failed.incRetryCount {s : Session} (h : Failed s) (clock : ℕ) :
    Ready (incRetryCount s clock).1 := by
  obtain ⟨hkept, hcount⟩ := h
  unfold TrackerClient.incRetryCount
  split
  · next hmany =>
      rw [if_neg (Nat.not_le.mpr hmany)] at hcount
      exact ⟨hkept, hcount⟩
  · next hfew =>
      rw [if_pos (Nat.not_lt.mp hfew)] at hcount
      exact ⟨⟨hkept.connect, hkept.id_lt, hkept.fresh, hkept.few⟩, hcount⟩

/-- A datagram that is not answered. -/
theorem Ready.lost {s : Session} (h : Ready s)
    (hfew : s.tracker.retryCount ≤ TrackerSchedule.maxRetryNum) {e : Exchange}
    (hreply : e.reply = none)
    (hfresh : e.action = Action.announce.toNat → Fresh e.connectId e.clock s.log) :
    Failed ⟨s.tracker, e :: s.log⟩ := by
  have hcount : failures (e :: s.log) = s.tracker.retryCount + 1 := by
    rw [h.2, failures, hreply]
  have hgranted : e.granted = none := by
    unfold Exchange.granted
    rw [hreply]
    split <;> rfl
  have hmax : TrackerSchedule.maxRetryNum = 8 := rfl
  refine ⟨h.1.push ?_ h.1.id_lt hfresh (by omega), ?_⟩
  · rw [h.1.connect, lastGrant, hgranted]
  · show if s.tracker.retryCount ≤ TrackerSchedule.maxRetryNum then _ else _
    rw [if_pos hfew]
    exact hcount.symm

/-- An answer of no use. -/
theorem Ready.garbled {s : Session} (h : Ready s) {e : Exchange} {resp : Bytes}
    (hreply : e.reply = some resp) (hanswers : ¬ e.Answers resp) (hgranted : e.granted = none)
    (hfresh : e.action = Action.announce.toNat → Fresh e.connectId e.clock s.log) :
    Failed ⟨{ s.tracker with retryCount := 0 }, e :: s.log⟩ := by
  have hcount : failures (e :: s.log) = 1 := by
    rw [failures, hreply]
    exact if_neg hanswers
  refine ⟨h.1.push ?_ h.1.id_lt hfresh (by omega), ?_⟩
  · rw [lastGrant, hgranted]
    exact h.1.connect
  · exact hcount.symm

/-- A connection id is given. -/
theorem Ready.granted {s : Session} (h : Ready s) {e : Exchange} {resp : Bytes} {id : ℕ}
    (hreply : e.reply = some resp) (hanswers : e.Answers resp) (hgranted : e.granted = some id)
    (hfresh : e.action = Action.announce.toNat → Fresh e.connectId e.clock s.log) :
    Ready ⟨{ s.tracker with retryCount := 0, connectionId := id, timestamp := e.clock },
      e :: s.log⟩ := by
  have hcount : failures (e :: s.log) = 0 := by
    rw [failures, hreply]
    exact if_pos hanswers
  refine ⟨h.1.push ?_ (Exchange.granted_lt hgranted) hfresh (by omega), ?_⟩
  · rw [lastGrant, hgranted]
    rfl
  · exact hcount.symm

/-- An announce is answered. -/
theorem Ready.answered {s : Session} (h : Ready s) {e : Exchange} {resp : Bytes}
    (hreply : e.reply = some resp) (hanswers : e.Answers resp) (hgranted : e.granted = none)
    (hfresh : e.action = Action.announce.toNat → Fresh e.connectId e.clock s.log) :
    Ready ⟨{ s.tracker with retryCount := 0 }, e :: s.log⟩ := by
  have hcount : failures (e :: s.log) = 0 := by
    rw [failures, hreply]
    exact if_pos hanswers
  refine ⟨h.1.push ?_ h.1.id_lt hfresh (by omega), ?_⟩
  · rw [lastGrant, hgranted]
    exact h.1.connect
  · exact hcount.symm

/-! ## A call keeps it -/

/-- A connect. -/
theorem Ready.connecting {s : Session} (h : Ready s) (x : Call) :
    match connecting s x with
    | (s', .error _) => Failed s'
    | (s', .ok id) =>
        Ready ⟨{ s'.tracker with connectionId := id, timestamp := x.connected }, s'.log⟩ ∧
          ∃ c ∈ s'.log.head?, c.granted = some id := by
  rw [connecting_eq]
  rcases send_cases s (genProtocolHead trackerProtocolId .connect x.connectTran)
      minConnectRespSize x.connectReply x.connected with
    ⟨hmany, e, hsend⟩ | ⟨hfew, ⟨-, hsend⟩ | ⟨resp, -, hsend⟩⟩
  · rw [hsend]
    exact ⟨h.1, by rw [if_neg (Nat.not_le.mpr hmany)]; exact h.2⟩
  · rw [hsend]
    obtain ⟨-, haction, -⟩ := connectExchange_fields x none x.connected
    apply h.lost hfew rfl
    intro hannounce
    cases haction.symm.trans hannounce
  · rw [hsend]
    obtain ⟨hproto, haction, htran⟩ := connectExchange_fields x (some resp) x.connected
    have hfresh : (connectExchange x (some resp) x.connected).action = Action.announce.toNat →
        Fresh (connectExchange x (some resp) x.connected).connectId x.connected s.log :=
      fun hannounce => nomatch haction.symm.trans hannounce
    have hgranted : (connectExchange x (some resp) x.connected).granted =
        if minConnectRespSize ≤ resp.length ∧
            (connectExchange x (some resp) x.connected).Matches resp then
          some (fromBeSlice 8 (field resp 8 8)) else none := by
      rw [Exchange.granted, if_pos ⟨hproto, haction⟩]
      rfl
    have hanswers : (connectExchange x (some resp) x.connected).Answers resp ↔
        minConnectRespSize ≤ resp.length ∧
          (connectExchange x (some resp) x.connected).Matches resp := by
      rw [Exchange.Answers, if_pos haction]
    show match (_, parseConnect resp x.connectTran) with
      | (s', .error _) => Failed s'
      | (s', .ok id) => _
    match hparse : parseConnect resp x.connectTran with
    | .error _ =>
        have hnot : ¬ (minConnectRespSize ≤ resp.length ∧
            (connectExchange x (some resp) x.connected).Matches resp) := fun hyes =>
          nomatch hparse.symm.trans ((parseConnect_iff htran).mpr ⟨hyes, rfl⟩)
        apply h.garbled rfl (mt hanswers.mp hnot) (hgranted.trans (if_neg hnot)) hfresh
    | .ok id =>
        obtain ⟨hyes, rfl⟩ := (parseConnect_iff htran).mp hparse
        have hid := hgranted.trans (if_pos hyes)
        exact ⟨h.granted rfl (hanswers.mpr hyes) hid hfresh, _, rfl, hid⟩

/-- Before an announce: the connection id is the newest one, and no older than it may be. -/
theorem Ready.updateConnect {s : Session} (h : Ready s) (x : Call) :
    match updateConnect s x with
    | (s', .error _) => Failed s'
    | (s', .ok ()) => Ready s' ∧ Fresh s'.tracker.connectionId x.checked s'.log := by
  unfold TrackerClient.updateConnect
  by_cases hyoung : s.tracker.timestamp ≤ x.checked ∧
      x.checked - s.tracker.timestamp ≤ TrackerSchedule.connectionIdTimeout
  · rw [if_pos hyoung]
    have hconnect := h.1.connect
    refine ⟨h, congrArg Prod.fst hconnect, Or.inr ?_⟩
    rw [← hconnect]
    show s.tracker.timestamp ≤ x.checked ∧ x.checked ≤ s.tracker.timestamp + _
    omega
  · rw [if_neg hyoung]
    have hconnecting := h.connecting x
    revert hconnecting
    match TrackerClient.connecting s x with
    | (s', .error e) => exact id
    | (s', .ok connectionId) =>
        rintro ⟨hready, c, hlast, hgranted⟩
        exact ⟨hready, congrArg Prod.fst hready.1.connect, Or.inl ⟨c, hlast, hgranted⟩⟩

/-- An announce. -/
theorem Ready.announcing {s : Session} (h : Ready s) (x : Call) :
    match announcing s x with
    | (s', .error _) => Failed s'
    | (s', .ok _) => Ready s' := by
  unfold TrackerClient.announcing
  have hupdate := h.updateConnect x
  revert hupdate
  match TrackerClient.updateConnect s x with
  | (s₁, .error e) => exact id
  | (s₁, .ok ()) =>
      rintro ⟨h, hfresh⟩
      dsimp only
      rcases send_cases s₁ (announceRequest s₁.tracker x) (-1) x.announceReply x.checked with
        ⟨hmany, e, hsend⟩ | ⟨hfew, ⟨-, hsend⟩ | ⟨resp, -, hsend⟩⟩
      · rw [hsend]
        exact ⟨h.1, by rw [if_neg (Nat.not_le.mpr hmany)]; exact h.2⟩
      · rw [hsend]
        obtain ⟨hid, -, -⟩ := announceExchange_fields s₁.tracker x none x.checked h.1.id_lt
        apply h.lost hfew rfl
        intro _
        exact hid.symm ▸ hfresh
      · rw [hsend]
        obtain ⟨hid, haction, htran⟩ :=
          announceExchange_fields s₁.tracker x (some resp) x.checked h.1.id_lt
        have hfresh : Fresh (announceExchange s₁.tracker x (some resp) x.checked).connectId
            x.checked s₁.log := hid.symm ▸ hfresh
        have hgranted : (announceExchange s₁.tracker x (some resp) x.checked).granted = none := by
          rw [Exchange.granted, if_neg]
          exact fun hconnect => nomatch haction.symm.trans hconnect.2
        have hanswers : (announceExchange s₁.tracker x (some resp) x.checked).Answers resp ↔
            ∃ a, parseAnnounce resp x.announceTran = .ok a := by
          rw [parseAnnounce_iff htran, Exchange.Answers, if_neg]
          exact fun hconnect => nomatch haction.symm.trans hconnect
        dsimp only
        match hparse : parseAnnounce resp x.announceTran with
        | .error e =>
            apply h.garbled (e := announceExchange s₁.tracker x (some resp) x.checked) rfl ?_
              hgranted
            · exact fun _ => hfresh
            · rw [hanswers, hparse]
              exact fun ⟨_, h⟩ => nomatch h
        | .ok a =>
            have hready := h.answered (e := announceExchange s₁.tracker x (some resp) x.checked) rfl
              (hanswers.mpr ⟨a, hparse⟩) hgranted fun _ => hfresh
            exact ⟨⟨hready.1.connect, hready.1.id_lt, hready.1.fresh, hready.1.few⟩, hready.2⟩

/-- **A call keeps the invariant.** -/
theorem Ready.request {s : Session} (h : Ready s) (x : Call) : Ready (request s x).1 := by
  unfold TrackerClient.request
  have hannouncing := h.announcing x
  revert hannouncing
  match TrackerClient.announcing s x with
  | (s', .ok a) => exact id
  | (s', .error e) => exact fun hfailed => hfailed.incRetryCount x.clock

theorem Ready.of_run {infoHash peerId : Vector UInt8 20} {xs : List Call} {s : Session}
    (hrun : FreeRun step (.new infoHash peerId) xs s) : Ready s := by
  refine hrun.invariant (.new infoHash peerId) ?_
  intro s x s' h _ hstep
  obtain rfl := Option.some.inj hstep
  exact h.request x

/-- **Connection ids.**  Every announce carries the newest id that the tracker has given for a
connect request of this client, given just before or not more than a minute ago. -/
theorem fresh_ids {infoHash peerId : Vector UInt8 20} {xs : List Call} {s : Session}
    (hrun : FreeRun step (.new infoHash peerId) xs s) (e : Exchange) (earlier : List Exchange)
    (hlog : e :: earlier <:+ s.log) (haction : e.action = Action.announce.toNat) :
    Fresh e.connectId e.clock earlier :=
  (Ready.of_run hrun).1.fresh e earlier hlog haction

/-- A call at a time, with what comes back. -/
def callAt (now : ℕ) (connectReply announceReply : Option Bytes) : Call where
  event := .started
  info := ⟨0, 0, 4096, 6881⟩
  processKey := 1
  checked := now
  connectTran := 5
  connectReply := connectReply
  connected := now
  announceTran := 7
  announceReply := announceReply
  clock := now

/-- Only the connect is answered. -/
theorem fresh_ids_connect :
    ∃ s e earlier, FreeRun step (.new (.replicate 20 1) (.replicate 20 2))
        [callAt 100 (some (toBeBytes 4 0 ++ toBeBytes 4 5 ++ toBeBytes 8 99)) none] s ∧
      s.log = e :: earlier ∧ Fresh e.connectId e.clock earlier := by
  have hexec : (exec step (.new (.replicate 20 1) (.replicate 20 2))
      [callAt 100 (some (toBeBytes 4 0 ++ toBeBytes 4 5 ++ toBeBytes 8 99)) none]).map
        (fun s => s.log.map Exchange.action) = some [1, 0] := by
    decide +kernel
  obtain ⟨s, hrun, hactions⟩ := Run.exists_of_exec hexec
  match hlog : s.log with
  | [] => rw [hlog] at hactions; cases hactions
  | e :: earlier =>
      have haction : e.action = Action.announce.toNat := by
        rw [hlog, List.map_cons] at hactions
        exact (List.cons.inj hactions).1
      exact ⟨s, e, earlier, hrun, hlog,
        fresh_ids hrun e earlier (hlog ▸ List.suffix_refl _) haction⟩

/-! ## Giving up -/

theorem length_le_failures {l : List Exchange} (rest : List Exchange)
    (h : ∀ e ∈ l, e.reply = none) : l.length ≤ failures (l ++ rest) := by
  induction l with
  | nil => exact Nat.zero_le _
  | cons e l ih =>
      rw [List.cons_append, failures, h e List.mem_cons_self, List.length_cons]
      exact Nat.succ_le_succ (ih fun e' he' => h e' (List.mem_cons_of_mem _ he'))

/-- A datagram that may be sent is sent. -/
theorem length_send {s : Session} (h : s.tracker.retryCount ≤ TrackerSchedule.maxRetryNum)
    (data : Bytes) (expectSize : ℤ) (arrives : Option Bytes) (clock : ℕ) :
    (send s data expectSize arrives clock).1.log.length = s.log.length + 1 := by
  rcases send_cases s data expectSize arrives clock with
    ⟨hmany, -⟩ | ⟨-, ⟨-, hsend⟩ | ⟨resp, -, hsend⟩⟩
  · exact absurd h (Nat.not_le.mpr hmany)
  · rw [hsend]
    rfl
  · rw [hsend]
    rfl

/-- The log only grows. -/
theorem length_le_send (s : Session) (data : Bytes) (expectSize : ℤ) (arrives : Option Bytes)
    (clock : ℕ) : s.log.length ≤ (send s data expectSize arrives clock).1.log.length := by
  rcases send_cases s data expectSize arrives clock with
    ⟨-, e, hsend⟩ | ⟨hfew, -⟩
  · rw [hsend]
  · rw [length_send hfew]
    exact Nat.le_succ _

/-- An announce behind `update_connect`. -/
theorem length_le_announcing (s : Session) (x : Call) :
    (updateConnect s x).1.log.length ≤ (announcing s x).1.log.length := by
  unfold announcing
  match updateConnect s x with
  | (s₁, .error e) => exact le_rfl
  | (s₁, .ok ()) =>
      have hsend := length_le_send s₁ (announceRequest s₁.tracker x) (-1) x.announceReply x.checked
      revert hsend
      dsimp only
      match send s₁ (announceRequest s₁.tracker x) (-1) x.announceReply x.checked with
      | (s₂, .error e) => exact id
      | (s₂, .ok resp) =>
          dsimp only
          match parseAnnounce resp x.announceTran with
          | .error e => exact id
          | .ok a => exact id

/-- A call of a tracker that is not given up sends something. -/
theorem length_lt_request {s : Session} (x : Call)
    (h : s.tracker.retryCount ≤ TrackerSchedule.maxRetryNum) :
    s.log.length < (request s x).1.log.length := by
  have hannouncing : s.log.length < (announcing s x).1.log.length := by
    by_cases hyoung : s.tracker.timestamp ≤ x.checked ∧
        x.checked - s.tracker.timestamp ≤ TrackerSchedule.connectionIdTimeout
    · have hsend := length_send h (announceRequest s.tracker x) (-1) x.announceReply x.checked
      unfold announcing updateConnect
      rw [if_pos hyoung]
      revert hsend
      dsimp only
      match send s (announceRequest s.tracker x) (-1) x.announceReply x.checked with
      | (s₂, .error e) => exact fun hsend => hsend ▸ Nat.lt_succ_self _
      | (s₂, .ok resp) =>
          intro hsend
          dsimp only at hsend ⊢
          match parseAnnounce resp x.announceTran with
          | .error e => exact hsend ▸ Nat.lt_succ_self _
          | .ok a => exact hsend ▸ Nat.lt_succ_self _
    · have hsend := length_send h (genProtocolHead trackerProtocolId .connect x.connectTran)
        minConnectRespSize x.connectReply x.connected
      refine Nat.lt_of_lt_of_le ?_ (length_le_announcing s x)
      unfold updateConnect
      rw [if_neg hyoung, connecting_eq]
      match (send s (genProtocolHead trackerProtocolId .connect x.connectTran) minConnectRespSize
          x.connectReply x.connected).2.bind fun resp => parseConnect resp x.connectTran with
      | .error e => exact hsend ▸ Nat.lt_succ_self _
      | .ok id => exact hsend ▸ Nat.lt_succ_self _
  unfold request
  revert hannouncing
  match announcing s x with
  | (s', .ok a) => exact id
  | (s', .error e) =>
      dsimp only
      unfold incRetryCount
      split <;> exact id

/-- A tracker that was given up sends nothing any more. -/
theorem request_of_lt {s : Session} (x : Call)
    (h : TrackerSchedule.maxRetryNum < s.tracker.retryCount) :
    request s x = (s, TrackerSchedule.u64Max) := by
  have hsend : ∀ data expectSize arrives clock,
      send s data expectSize arrives clock = (s, .error (.check "请求超时，且重试次数过多")) :=
    fun _ _ _ _ => if_neg (Nat.not_le.mpr h)
  have hupdate : updateConnect s x = (s, .ok ()) ∨ ∃ e, updateConnect s x = (s, .error e) := by
    unfold updateConnect connecting
    dsimp only
    rw [hsend]
    split
    · exact Or.inl rfl
    · exact Or.inr ⟨_, rfl⟩
  have hannouncing : ∃ e, announcing s x = (s, .error e) := by
    unfold announcing
    rcases hupdate with hupdate | ⟨e, hupdate⟩
    · rw [hupdate]
      dsimp only
      rw [hsend]
      exact ⟨_, rfl⟩
    · rw [hupdate]
      exact ⟨e, rfl⟩
  obtain ⟨e, hannouncing⟩ := hannouncing
  unfold request
  rw [hannouncing]
  exact if_pos h

/-- **Giving up.**  No more than nine datagrams in a row stay without an answer, and a tracker is
given up for good, with the longest of waits, behind nine failures in a row and not before. -/
theorem unanswered_le {infoHash peerId : Vector UInt8 20} {xs : List Call} {s : Session}
    (hrun : FreeRun step (.new infoHash peerId) xs s) :
    (∀ l, l <:+: s.log → (∀ e ∈ l, e.reply = none) → l.length ≤ 9) ∧
      ∀ x, if failures s.log = 9 then request s x = (s, TrackerSchedule.u64Max)
        else s.log.length < (request s x).1.log.length := by
  obtain ⟨hkept, hcount⟩ := Ready.of_run hrun
  constructor
  · rintro l ⟨later, earlier, hlog⟩ hnone
    refine (length_le_failures earlier hnone).trans (hkept.few _ ⟨later, ?_⟩)
    rw [← List.append_assoc, hlog]
  · intro x
    have hle := hkept.few s.log (List.suffix_refl _)
    have hmax : TrackerSchedule.maxRetryNum = 8 := rfl
    split
    · next hnine => exact request_of_lt x (by omega)
    · next hnine => exact length_lt_request x (by omega)

/-- Nine times nothing comes back. -/
theorem unanswered_le_nine :
    ∃ s, FreeRun step (.new (.replicate 20 1) (.replicate 20 2))
        (List.replicate 9 (callAt 100 none none)) s ∧
      ∀ x, request s x = (s, TrackerSchedule.u64Max) := by
  have hexec : (exec step (.new (.replicate 20 1) (.replicate 20 2))
      (List.replicate 9 (callAt 100 none none))).map (fun s => failures s.log) = some 9 := by
    decide +kernel
  obtain ⟨s, hrun, hnine⟩ := Run.exists_of_exec hexec
  refine ⟨s, hrun, fun x => ?_⟩
  have hcall := (unanswered_le hrun).2 x
  rwa [if_pos hnine] at hcall

/-! ## A tracker that keeps to BEP 15 -/

/-- What a tracker reads in an announce request. -/
structure AnnounceRequest where
  infoHash : Bytes
  peerId : Bytes
  downloaded : ℕ
  left : ℕ
  uploaded : ℕ
  event : ℕ
  ip : ℕ
  key : ℕ
  numWant : ℕ
  port : ℕ
  deriving DecidableEq

/-- The fields of an announce request, by their offsets. -/
def AnnounceRequest.read (data : Bytes) : AnnounceRequest where
  infoHash := field data 16 20
  peerId := field data 36 20
  downloaded := fromBeSlice 8 (field data 56 8)
  left := fromBeSlice 8 (field data 64 8)
  uploaded := fromBeSlice 8 (field data 72 8)
  event := fromBeSlice 4 (field data 80 4)
  ip := fromBeSlice 4 (field data 84 4)
  key := fromBeSlice 4 (field data 88 4)
  numWant := fromBeSlice 4 (field data 92 4)
  port := fromBeSlice 2 (field data 96 2)

/-- An answer to an announce that fits its datagram. -/
structure Announce.WellFormed (a : Announce) : Prop where
  interval : a.interval < 256 ^ 4
  leechers : a.leechers < 256 ^ 4
  seedrs : a.seedrs < 256 ^ 4
  peers : ∀ p ∈ a.peers, IsV4 p
  size : 20 + 6 * a.peers.length ≤ maxPayloadSize

/-- A tracker with a connection id and its answers to announces. -/
structure Bep15Tracker where
  connectionId : UInt64
  announce : AnnounceRequest → Announce
  wellFormed : ∀ q, (announce q).WellFormed

/-- The response to a connect. -/
def connectResponse (tran : Bytes) (id : ℕ) : Bytes :=
  [toBeBytes 4 Action.connect.toNat, tran, toBeBytes 8 id].flatten

/-- The response to an announce. -/
def announceResponse (tran : Bytes) (a : Announce) : Bytes :=
  [toBeBytes 4 Action.announce.toNat, tran, toBeBytes 4 a.interval, toBeBytes 4 a.leechers,
    toBeBytes 4 a.seedrs, a.peers.flatMap addrBytes].flatten

/-- What a tracker answers to a datagram; a connection id that it has not given is an error. -/
def Bep15Tracker.answer (tracker : Bep15Tracker) (data : Bytes) : Option Bytes :=
  if data.length = 16 ∧ fromBeSlice 8 (field data 0 8) = trackerProtocolId ∧
      fromBeSlice 4 (field data 8 4) = Action.connect.toNat then
    some (connectResponse (field data 12 4) tracker.connectionId.toNat)
  else if 98 ≤ data.length ∧ fromBeSlice 4 (field data 8 4) = Action.announce.toNat then
    if fromBeSlice 8 (field data 0 8) = tracker.connectionId.toNat then
      some (announceResponse (field data 12 4) (tracker.announce (.read data)))
    else some (toBeBytes 4 Action.error.toNat ++ field data 12 4)
  else none

/-- The counters of a torrent are numbers of 64 bits, the port has 16. -/
structure AnnounceInfo.InRange (info : AnnounceInfo) : Prop where
  download : info.download < 256 ^ 8
  uploaded : info.uploaded < 256 ^ 8
  resourceSize : info.resourceSize < 256 ^ 8
  port : info.port < 256 ^ 2

/-- Both requests of a call are answered by the tracker, and the clock is past its first minute. -/
structure Served (tracker : Bep15Tracker) (s : Session) (x : Call) : Prop where
  info : x.info.InRange
  connect : x.connectReply =
    tracker.answer (genProtocolHead trackerProtocolId .connect x.connectTran)
  announce : x.announceReply =
    tracker.answer (announceRequest (updateConnect s x).1.tracker x)
  clock : TrackerSchedule.connectionIdTimeout < x.checked

/-- The announce that a call means. -/
def Call.meant (x : Call) (t : UdpTracker) : AnnounceRequest where
  infoHash := t.infoHash.toList
  peerId := t.peerId.toList
  downloaded := x.info.download
  left := x.info.resourceSize - x.info.download
  uploaded := x.info.uploaded
  event := x.event.toNat
  ip := 0
  key := x.processKey.toNat
  -- as many as the tracker likes
  numWant := 2 ^ 32 - 1
  port := x.info.port

/-- A number in an announce request, by its offset. -/
theorem number_announceRequest {t : UdpTracker} {x : Call} (i offset : ℕ) {size n : ℕ}
    (hi : (announceFields t x)[i]? = some (toBeBytes size n))
    (hoffset : (announceSizes.take i).sum = offset) (hn : n < 256 ^ size) :
    fromBeSlice size (field (announceRequest t x) offset size) = n := by
  obtain ⟨hlt, heq⟩ := List.getElem?_eq_some_iff.mp hi
  have hat := field_announceRequest t x i hlt
  rw [heq, length_toBeBytes, hoffset] at hat
  rw [hat, fromBeSlice_toBeBytes size n hn]

/-- A hash in an announce request. -/
theorem hash_announceRequest {t : UdpTracker} {x : Call} (i offset : ℕ)
    {hash : Vector UInt8 20} (hi : (announceFields t x)[i]? = some hash.toList)
    (hoffset : (announceSizes.take i).sum = offset) :
    field (announceRequest t x) offset 20 = hash.toList := by
  obtain ⟨hlt, heq⟩ := List.getElem?_eq_some_iff.mp hi
  have hat := field_announceRequest t x i hlt
  rwa [heq, Vector.length_toList, hoffset] at hat

theorem Event.toNat_lt (e : Event) : e.toNat < 256 ^ 4 := by
  match e with
  | .none => decide
  | .completed => decide
  | .started => decide
  | .stopped => decide

/-- **An announce request** is read as it is meant. -/
theorem read_announceRequest (t : UdpTracker) (x : Call) (h : x.info.InRange) :
    AnnounceRequest.read (announceRequest t x) = x.meant t := by
  have hleft : x.info.resourceSize - x.info.download < 256 ^ 8 :=
    (Nat.sub_le _ _).trans_lt h.resourceSize
  unfold AnnounceRequest.read Call.meant
  rw [hash_announceRequest 3 16 rfl rfl, hash_announceRequest 4 36 rfl rfl,
    number_announceRequest 5 56 rfl rfl h.download, number_announceRequest 6 64 rfl rfl hleft,
    number_announceRequest 7 72 rfl rfl h.uploaded,
    number_announceRequest 8 80 rfl rfl x.event.toNat_lt,
    number_announceRequest 9 84 rfl rfl (show 0 < 256 ^ 4 by decide),
    number_announceRequest 10 88 rfl rfl x.processKey.toNat_lt,
    number_announceRequest 11 92 rfl rfl (show 2 ^ 32 - 1 < 256 ^ 4 by decide),
    number_announceRequest 12 96 rfl rfl h.port]

/-- A number of a response, by its offset. -/
theorem number_flatten {fields : List Bytes} (i offset : ℕ) {size n : ℕ}
    (hi : fields[i]? = some (toBeBytes size n))
    (hoffset : ((fields.map List.length).take i).sum = offset) (hn : n < 256 ^ size) :
    fromBeSlice size (field fields.flatten offset size) = n := by
  obtain ⟨hlt, heq⟩ := List.getElem?_eq_some_iff.mp hi
  have hat := field_flatten fields i hlt
  rw [heq, length_toBeBytes, hoffset] at hat
  rw [hat, fromBeSlice_toBeBytes size n hn]

theorem length_connectResponse (tran : UInt32) (id : ℕ) :
    (connectResponse (toBeBytes 4 tran.toNat) id).length = minConnectRespSize := by
  simp [connectResponse, minConnectRespSize]

/-- A response with the transaction id of the request passes the checks. -/
theorem checkRespData_flatten (action : Action) (tran : UInt32) (fields : List Bytes)
    (haction : action ≠ .error) :
    checkRespData (toBeBytes 4 action.toNat :: toBeBytes 4 tran.toNat :: fields).flatten tran =
      .ok () := by
  have hlt : action.toNat < 256 ^ 4 ∧ action.toNat ≠ 3 := by
    match action with
    | .connect => decide
    | .announce => decide
    | .scrape => decide
    | .error => exact absurd rfl haction
  generalize hdata : (toBeBytes 4 action.toNat :: toBeBytes 4 tran.toNat :: fields).flatten = data
  have htran : fromBeSlice 4 (field data 4 4) = tran.toNat := by
    rw [← hdata]
    exact number_flatten 1 4 rfl (by simp) tran.toNat_lt
  have hact : fromBeSlice 4 (field data 0 4) = action.toNat := by
    rw [← hdata]
    exact number_flatten 0 0 rfl rfl hlt.1
  unfold checkRespData
  show (if fromBeSlice 4 (field data 4 4) ≠ tran.toNat then _
    else if fromBeSlice 4 (field data 0 4) = 3 then _ else _) = _
  rw [htran, hact, if_neg (not_not.mpr rfl), if_neg hlt.2]

/-- The response to a connect passes the checks. -/
theorem parseConnect_connectResponse (tran : UInt32) {id : ℕ} (hid : id < 256 ^ 8) :
    parseConnect (connectResponse (toBeBytes 4 tran.toNat) id) tran = .ok id := by
  unfold parseConnect
  rw [length_connectResponse, if_neg (Nat.lt_irrefl _)]
  show (checkRespData _ _ >>= fun _ => _) = _
  have hcheck : checkRespData (connectResponse (toBeBytes 4 tran.toNat) id) tran = .ok () :=
    checkRespData_flatten .connect tran [toBeBytes 8 id] nofun
  rw [hcheck]
  apply congrArg Except.ok
  exact number_flatten 2 8 rfl (by simp) hid

/-- The peers of a response come back. -/
theorem parsePeersV4_flatMap {peers : List SocketAddr} (h : ∀ p ∈ peers, IsV4 p) :
    parsePeersV4 (peers.flatMap addrBytes) = .ok peers := by
  have hlen : ∀ p ∈ peers, (addrBytes p).length = 6 := fun p hp => length_addrBytes_v4 (h p hp)
  unfold parsePeersV4
  rw [length_flatMap_of_eq hlen, if_pos (Nat.mul_mod_right _ _), chunks_flatMap (by decide) hlen,
    List.map_map]
  refine congrArg Except.ok ((List.map_congr_left fun p hp => ?_).trans (List.map_id _))
  obtain ⟨ip, port, rfl, hip, hport⟩ := h p hp
  obtain ⟨hip, hport⟩ := fromBeSlice_parts hip hport
  exact congrArg₂ SocketAddr.v4 hip hport

theorem length_announceResponse {tran : Bytes} (htran : tran.length = 4) {a : Announce}
    (h : a.WellFormed) : (announceResponse tran a).length = 20 + 6 * a.peers.length := by
  have hpeers := length_flatMap_of_eq fun p hp => length_addrBytes_v4 (h.peers p hp)
  simp [announceResponse, htran, hpeers]
  omega

/-- The response to an announce passes the checks and is read as it was meant. -/
theorem parseAnnounce_announceResponse (tran : UInt32) {a : Announce} (h : a.WellFormed) :
    parseAnnounce (announceResponse (toBeBytes 4 tran.toNat) a) tran = .ok a := by
  have hlen := length_announceResponse (length_toBeBytes 4 tran.toNat) h
  have hcheck : checkRespData (announceResponse (toBeBytes 4 tran.toNat) a) tran = .ok () :=
    checkRespData_flatten .announce tran
      [toBeBytes 4 a.interval, toBeBytes 4 a.leechers, toBeBytes 4 a.seedrs,
        a.peers.flatMap addrBytes] nofun
  have hdrop : (announceResponse (toBeBytes 4 tran.toNat) a).drop 20 =
      a.peers.flatMap addrBytes := by
    have hsplit : announceResponse (toBeBytes 4 tran.toNat) a =
        [toBeBytes 4 Action.announce.toNat, toBeBytes 4 tran.toNat, toBeBytes 4 a.interval,
          toBeBytes 4 a.leechers, toBeBytes 4 a.seedrs].flatten ++ a.peers.flatMap addrBytes := by
      simp [announceResponse]
    rw [hsplit, List.drop_left' (by simp)]
  have hinterval : fromBeSlice 4 (field (announceResponse (toBeBytes 4 tran.toNat) a) 8 4) =
      a.interval := number_flatten 2 8 rfl (by simp) h.interval
  have hleechers : fromBeSlice 4 (field (announceResponse (toBeBytes 4 tran.toNat) a) 12 4) =
      a.leechers := number_flatten 3 12 rfl (by simp) h.leechers
  have hseedrs : fromBeSlice 4 (field (announceResponse (toBeBytes 4 tran.toNat) a) 16 4) =
      a.seedrs := number_flatten 4 16 rfl (by simp) h.seedrs
  unfold parseAnnounce
  rw [if_neg (by rw [hlen]; exact Nat.not_lt.mpr (Nat.le_add_right _ _)), hdrop]
  show (checkRespData _ _ >>= fun _ => parsePeersV4 _ >>= fun peers => _) = _
  rw [hcheck, parsePeersV4_flatMap h.peers]
  show Except.ok (Announce.mk (fromBeSlice 4 (field _ 8 4)) (fromBeSlice 4 (field _ 12 4))
    (fromBeSlice 4 (field _ 16 4)) a.peers) = _
  rw [hinterval, hleechers, hseedrs]

/-- The answer to a connect. -/
theorem Bep15Tracker.answer_connect (tracker : Bep15Tracker) (x : Call) :
    tracker.answer (genProtocolHead trackerProtocolId .connect x.connectTran) =
      some (connectResponse (toBeBytes 4 x.connectTran.toNat) tracker.connectionId.toNat) := by
  obtain ⟨hproto, haction, -⟩ := connectExchange_fields x none 0
  have hlen : (genProtocolHead trackerProtocolId .connect x.connectTran).length = 16 := by
    simp [genProtocolHead]
  have htran : field (genProtocolHead trackerProtocolId .connect x.connectTran) 12 4 =
      toBeBytes 4 x.connectTran.toNat := by
    unfold genProtocolHead field
    rw [List.drop_left' (by simp), List.take_of_length_le (length_toBeBytes 4 _).le]
  unfold answer
  rw [if_pos ⟨hlen, hproto, haction⟩, htran]

/-- The answer to an announce with the right id. -/
theorem Bep15Tracker.answer_announce (tracker : Bep15Tracker) {t : UdpTracker} {x : Call}
    (hid : t.connectionId = tracker.connectionId.toNat) (hinfo : x.info.InRange) :
    tracker.answer (announceRequest t x) =
      some (announceResponse (toBeBytes 4 x.announceTran.toNat)
        (tracker.announce (x.meant t))) := by
  have hlt : t.connectionId < 256 ^ 8 := hid ▸ tracker.connectionId.toNat_lt
  obtain ⟨hconnect, haction, -⟩ := announceExchange_fields t x none 0 hlt
  have hconnect : fromBeSlice 8 (field (announceRequest t x) 0 8) =
      tracker.connectionId.toNat := hconnect.trans hid
  have hlen := length_announceRequest t x
  have htran : field (announceRequest t x) 12 4 = toBeBytes 4 x.announceTran.toNat :=
    field_announceRequest t x 2 (Nat.lt_of_lt_of_le (by decide) (Nat.le_refl 13))
  unfold answer
  rw [if_neg (fun h => absurd (hlen.symm.trans h.1) (by decide)), if_pos ⟨hlen.ge, haction⟩,
    if_pos hconnect, htran, read_announceRequest t x hinfo]

/-- What holds of a session with such a tracker. -/
structure InTouch (tracker : Bep15Tracker) (infoHash peerId : Vector UInt8 20) (s : Session) :
    Prop where
  retryCount : s.tracker.retryCount = 0
  infoHash : s.tracker.infoHash = infoHash
  peerId : s.tracker.peerId = peerId
  connectionId : s.tracker.timestamp = 0 ∨
    s.tracker.connectionId = tracker.connectionId.toNat

section InTouch

variable {tracker : Bep15Tracker} {infoHash peerId : Vector UInt8 20} {s : Session} {x : Call}

/-- A datagram that is answered. -/
theorem InTouch.send (h : InTouch tracker infoHash peerId s) {data resp : Bytes} {expectSize : ℤ}
    {arrives : Option Bytes} (hrecv : sendRecv expectSize arrives = .ok resp) (clock : ℕ) :
    send s data expectSize arrives clock =
      (⟨s.tracker, ⟨data, some resp, clock⟩ :: s.log⟩, .ok resp) := by
  have hsame : { s.tracker with retryCount := 0 } = s.tracker := by
    rw [← h.retryCount]
  unfold TrackerClient.send
  rw [if_pos (by rw [h.retryCount]; exact Nat.zero_le _), hrecv]
  dsimp only [Except.toOption]
  rw [hsame]

/-- Before an announce there is a connection id that the tracker knows. -/
theorem InTouch.updateConnect (h : InTouch tracker infoHash peerId s) (hx : Served tracker s x) :
    ∃ s', updateConnect s x = (s', .ok ()) ∧ InTouch tracker infoHash peerId s' ∧
      s'.tracker.connectionId = tracker.connectionId.toNat := by
  unfold TrackerClient.updateConnect
  split
  · next hyoung =>
      refine ⟨s, rfl, h, h.connectionId.resolve_left fun hzero => ?_⟩
      have hclock := hx.clock
      omega
  · have hrecv : sendRecv minConnectRespSize x.connectReply =
        .ok (connectResponse (toBeBytes 4 x.connectTran.toNat) tracker.connectionId.toNat) := by
      rw [hx.connect, tracker.answer_connect]
      apply congrArg Except.ok
      exact List.take_of_length_le (length_connectResponse _ _).le
    rw [connecting_eq, h.send hrecv]
    dsimp only [Except.bind]
    rw [parseConnect_connectResponse _ tracker.connectionId.toNat_lt]
    exact ⟨_, rfl, ⟨h.retryCount, h.infoHash, h.peerId, Or.inr rfl⟩, rfl⟩

/-- **An announce that is served.** -/
theorem InTouch.announcing (h : InTouch tracker infoHash peerId s) (hx : Served tracker s x) :
    ∃ s', announcing s x = (s', .ok (tracker.announce (x.meant (.new infoHash peerId)))) ∧
      InTouch tracker infoHash peerId s' ∧ s'.tracker.nextRequestTime =
        x.clock + (tracker.announce (x.meant (.new infoHash peerId))).interval := by
  obtain ⟨s₁, hupdate, h₁, hid⟩ := h.updateConnect hx
  have hmeant : x.meant s₁.tracker = x.meant (.new infoHash peerId) := by
    unfold Call.meant
    rw [h₁.infoHash, h₁.peerId]
    rfl
  have hwell := tracker.wellFormed (x.meant (.new infoHash peerId))
  have hrecv : sendRecv (-1) x.announceReply =
      .ok (announceResponse (toBeBytes 4 x.announceTran.toNat)
        (tracker.announce (x.meant (.new infoHash peerId)))) := by
    rw [hx.announce, hupdate, tracker.answer_announce hid hx.info, hmeant]
    apply congrArg Except.ok
    apply List.take_of_length_le
    rw [length_announceResponse (length_toBeBytes 4 _) hwell]
    exact hwell.size
  unfold TrackerClient.announcing
  rw [hupdate]
  dsimp only
  rw [h₁.send hrecv]
  dsimp only
  rw [parseAnnounce_announceResponse _ hwell]
  exact ⟨_, rfl, ⟨h₁.retryCount, h₁.infoHash, h₁.peerId, Or.inr hid⟩, rfl⟩

end InTouch

/-- **With a tracker that keeps to BEP 15** and has answered all earlier calls, an announce is read
by the tracker as it is meant, what the tracker answers comes back as it was meant, and the next
time is the clock and the interval it has told. -/
theorem announcing_bep15 {tracker : Bep15Tracker} {infoHash peerId : Vector UInt8 20}
    {xs : List Call} {s : Session} {x : Call}
    (hrun : Run step (Served tracker) (.new infoHash peerId) xs s) (hx : Served tracker s x) :
    (announcing s x).2 = .ok (tracker.announce (x.meant (.new infoHash peerId))) ∧
      (request s x).2 = (tracker.announce (x.meant (.new infoHash peerId))).interval ∧
        (request s x).1.tracker.nextRequestTime =
          x.clock + (tracker.announce (x.meant (.new infoHash peerId))).interval := by
  have htouch : InTouch tracker infoHash peerId s := by
    refine hrun.invariant (I := InTouch tracker infoHash peerId) ⟨rfl, rfl, rfl, Or.inl rfl⟩ ?_
    intro s x s' h hx hstep
    obtain ⟨s'', hannouncing, h', -⟩ := h.announcing hx
    obtain rfl := Option.some.inj hstep
    unfold request
    rw [hannouncing]
    exact h'
  obtain ⟨s', hannouncing, -, htime⟩ := htouch.announcing hx
  unfold request
  rw [hannouncing]
  exact ⟨rfl, rfl, htime⟩

/-- A tracker that knows one peer, at the port it was told. -/
def onePeer : Bep15Tracker where
  connectionId := 0x1122334455667788
  announce q := ⟨1800, 1, 2, [.v4 0x7f000001 (q.port % 2 ^ 16)]⟩
  wellFormed q := by
    refine ⟨show 1800 < 256 ^ 4 by decide, show 1 < 256 ^ 4 by decide, show 2 < 256 ^ 4 by decide,
      ?_, show 20 + 6 * 1 ≤ 65507 by decide⟩
    intro p hp
    obtain rfl := List.mem_singleton.mp hp
    exact ⟨_, _, rfl, show 0x7f000001 < 256 ^ 4 by decide, Nat.mod_lt _ (by decide)⟩

/-- A call that is served by `onePeer`. -/
def servedCall (now : ℕ) : Call :=
  callAt now (onePeer.answer (genProtocolHead trackerProtocolId .connect 5))
    (some (announceResponse (toBeBytes 4 7) ⟨1800, 1, 2, [.v4 0x7f000001 6881]⟩))

theorem announcing_bep15_twice :
    ∃ s, FreeRun step (.new (.replicate 20 1) (.replicate 20 2)) [servedCall 100] s ∧
      (announcing s (servedCall 2000)).2 = .ok ⟨1800, 1, 2, [.v4 0x7f000001 6881]⟩ := by
  have hinfo : (AnnounceInfo.mk 0 0 4096 6881).InRange :=
    ⟨by decide, by decide, by decide, by decide⟩
  have hfirst : Served onePeer (.new (.replicate 20 1) (.replicate 20 2)) (servedCall 100) :=
    ⟨hinfo, by decide +kernel, by decide +kernel, by decide⟩
  have hsecond : Served onePeer
      (request (.new (.replicate 20 1) (.replicate 20 2)) (servedCall 100)).1 (servedCall 2000) :=
    ⟨hinfo, by decide +kernel, by decide +kernel, by decide⟩
  have hrun : Run step (Served onePeer) (.new (.replicate 20 1) (.replicate 20 2))
      [servedCall 100] _ := .single hfirst rfl
  refine ⟨_, hrun.mono fun _ _ _ => trivial, (announcing_bep15 hrun hsecond).1.trans ?_⟩
  decide +kernel

end TrackerClient
