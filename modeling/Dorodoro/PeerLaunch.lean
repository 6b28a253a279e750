/-
# The peer launcher (`bt/base_peer.rs`, `core/task/content.rs`, `default_servant/coordinator.rs`)

How a download finds its connections.  Hosts come from the trackers and the DHT; `PeerLaunch`
starts them one after the other or puts them into the wait queue; a connection that was made is
in `DefaultServant.peers` and, when the launcher has seen the result, in `Dispatch.peers`; the
exit of a connection and the coordinator wake peers of the wait queue.

* `State` has the five containers, the registry of the servant and the tasks that are between two
  accesses; `Task.code` is what a task has still to do;
* `pcStep` is the code of a task from one access to the next;
* `step` lets the environment choose: a host arrives, the launcher receives, a start succeeds or
  fails, a connection exits for whatever reason, the coordinator begins a pass, a task runs or is
  aborted.

The bandwidths the coordinator compares are the environment's choice.  The counter of its passes
and the signal that starts a DHT search leave no trace here.
-/
import Dorodoro.Bytes
import Dorodoro.Transition
import Mathlib.Data.Finset.Basic

namespace PeerLaunch

open Transition (resume)

/-! ## Peers -/

/-- The limits of the configuration. -/
structure Limits where
  /-- `torrent_lt_peer_conn_limit`. -/
  torrentLtPeerConnLimit : ℕ
  /-- `torrent_temp_peer_conn_limit`. -/
  torrentTempPeerConnLimit : ℕ
  /-- `async_peer_start_limit`. -/
  asyncPeerStartLimit : ℕ
  /-- The sum of the first two is a `usize`. -/
  fits : torrentLtPeerConnLimit + torrentTempPeerConnLimit < 2 ^ 64

/-- `torrent_peer_conn_limit`. -/
def Limits.torrentPeerConnLimit (L : Limits) : ℕ :=
  L.torrentLtPeerConnLimit + L.torrentTempPeerConnLimit

/-- A connection in `DefaultServant.peers`. -/
structure Peer where
  id : ℕ
  addr : SocketAddr
  deriving DecidableEq

/-- `PeerInfo`, without the dashboard and the error count. -/
structure PeerInfo where
  id : ℕ
  addr : SocketAddr
  ltRunning : Bool
  waited : Bool
  deriving DecidableEq

/-- `PeerInfo::new`. -/
def PeerInfo.new (id : ℕ) (addr : SocketAddr) : PeerInfo := ⟨id, addr, true, false⟩

/-- The connection of a peer. -/
def PeerInfo.peer (pi : PeerInfo) : Peer := ⟨pi.id, pi.addr⟩

/-- `get_peer_conn_limit`. -/
def PeerInfo.getPeerConnLimit (L : Limits) (pi : PeerInfo) : ℕ :=
  if pi.ltRunning then L.torrentLtPeerConnLimit else L.torrentPeerConnLimit

/-- `set_lt_running`. -/
def PeerInfo.setLtRunning (pi : PeerInfo) (lt : Bool) : PeerInfo := { pi with ltRunning := lt }

/-- `PeerExitReason`; an exception is a `DeadlyError` or not. -/
inductive PeerExitReason where
  | normal
  | clientExit
  | notHasJob
  | periodicPeerReplace
  | exception (deadly : Bool)
  | downloadFinished
  deriving DecidableEq

/-- What `async_run` has come to. -/
inductive Stage where
  | connecting
  /-- `PeerStartResult::Success`. -/
  | success
  /-- `PeerStartResult::Failed`. -/
  | failed
  deriving DecidableEq

/-- A peer that is being started, in the `join_set`, or `direct` when the launcher waits for
it. -/
structure Start where
  info : PeerInfo
  stage : Stage
  direct : Bool
  deriving DecidableEq

/-! ## Tasks -/

/-- What a task does next. -/
inductive Pc where
  /-- The send of `do_start_peer`. -/
  | send (pi : PeerInfo)
  /-- `PeerLaunch::run`, behind the check of `unstart_host`. -/
  | checkLimit (pi : PeerInfo)
  /-- `unstart_host.remove`. -/
  | release (addr : SocketAddr)
  /-- `wait_queue.push_back` of `on_peer_exit`. -/
  | park (pi : PeerInfo)
  /-- `start_temp_peer` or `start_wait_peer`. -/
  | wake (temp : Bool)
  /-- `on_peer_exit`. -/
  | exit (peer : Peer) (reason : PeerExitReason)
  -- `checkout_upgrade_lt_peer`
  | ltPeerNum
  | fastest (ltPeerNum : ℕ)
  | slowest (ftp : Option ℕ)
  | upgrade (id : ℕ) (old : Option ℕ)
  /-- `notify_peer_stop` with `PeriodicPeerReplace`. -/
  | stop (id : ℕ)
  deriving DecidableEq

/-- Who runs the code. -/
inductive Owner where
  | launcher
  | coordinator
  | handler
  deriving DecidableEq

/-- A task, with what it has still to do. -/
structure Task where
  owner : Owner
  code : List Pc
  deriving DecidableEq

/-- The shared state. -/
structure State where
  unstartHost : Finset SocketAddr
  waitQueue : List PeerInfo
  peers : List PeerInfo
  starting : List Start
  channel : List PeerInfo
  servant : List Peer
  tasks : List Task
  nextId : ℕ
  cancelled : Bool

/-- `DownloadContent::new`. -/
def State.init : State := ⟨∅, [], [], [], [], [], [], 1, false⟩

section Access

variable (L : Limits) (s : State)

/-- The `join_set` of the launcher. -/
def State.joinSet : List Start := s.starting.filter fun st => !st.direct

/-- `get_async_start_limit`. -/
def State.getAsyncStartLimit : ℕ :=
  max L.asyncPeerStartLimit (L.torrentPeerConnLimit - s.peers.length)

/-- `lt_peer_num`. -/
def State.ltPeerNum : ℕ := s.peers.countP PeerInfo.ltRunning

/-- `is_peer_limit`. -/
def State.isPeerLimit : Bool :=
  decide (L.torrentPeerConnLimit < s.peers.length) || s.waitQueue.isEmpty

/-- What `find_fastest_temp_peer` or `find_slowest_lt_peer` can return, for some bandwidths. -/
def State.finds (lt : Bool) : Option ℕ → Bool
  | none => s.peers.all fun pi => pi.ltRunning != lt
  | some id => s.peers.any fun pi => pi.id == id && pi.ltRunning == lt

/-- The launcher waits for the channel and the `join_set`. -/
def State.launcherIdle : Bool :=
  s.tasks.all (fun t => t.owner != .launcher) && s.starting.all fun st => !st.direct

/-- The coordinator waits for its next pass. -/
def State.coordinatorIdle : Bool := s.tasks.all fun t => t.owner != .coordinator

/-- `peers.insert` of `Dispatch`. -/
def State.insertPeer (pi : PeerInfo) : State :=
  { s with peers := pi :: s.peers.filter fun q => q.id != pi.id }

/-- `peers.insert` of the servant. -/
def State.addPeer (peer : Peer) : State :=
  { s with servant := peer :: s.servant.filter fun q => q.id != peer.id }

/-- Start a task. -/
def State.spawn (owner : Owner) (code : List Pc) : State :=
  { s with tasks := ⟨owner, code⟩ :: s.tasks }

end Access

/-! ## The code of the tasks -/

/-- What the environment decides when a task runs. -/
inductive Choice where
  | go
  /-- Whether a semaphore is free. -/
  | semaphore (free : Bool)
  /-- The peer an iteration finds, and whether the other one is faster. -/
  | pick (id : Option ℕ) (faster : Bool)
  deriving DecidableEq

/-- The branches of `on_peer_exit`, for a peer that was in `Dispatch.peers`. -/
def exitCode (pi : PeerInfo) : PeerExitReason → List Pc
  | .downloadFinished => [.release pi.addr]
  | .periodicPeerReplace => [.park pi, .wake true]
  -- the address stays in `unstart_host`: the blacklist
  | .exception true => [.wake false]
  | _ => [.release pi.addr, .wake false]

/-- `on_peer_exit` up to the branches. -/
def State.onPeerExit (s : State) (peer : Peer) (reason : PeerExitReason) : State × List Pc :=
  if s.cancelled then (s, [])
  else
    match s.peers.find? fun pi => pi.id == peer.id with
    | some pi => ({ s with peers := s.peers.filter fun q => q.id != peer.id }, exitCode pi reason)
    | none => (s, [])

/-- `peer_exit` of the servant: the connection is taken out once. -/
def State.peerExit (s : State) (id : ℕ) (reason : PeerExitReason) : State × List Pc :=
  match s.servant.find? fun peer => peer.id == id with
  | some peer => ({ s with servant := s.servant.filter fun q => q.id != id }, [.exit peer reason])
  | none => (s, [])

/-- The code from one access to the next: the access, and what comes instead. -/
def pcStep (L : Limits) (s : State) : Pc → Choice → Option (State × List Pc)
  | .send pi, .go =>
      -- `CHANNEL_BUFFER`
      if s.channel.length < 100 then some ({ s with channel := s.channel ++ [pi] }, []) else none
  | .checkLimit pi, .semaphore free =>
      if pi.getPeerConnLimit L ≤ s.peers.length + s.joinSet.length then
        some ({ s with waitQueue := s.waitQueue ++ [pi] }, [])
      else
        -- without a permit the launcher waits for the connection itself
        let async := free && decide (s.joinSet.length < s.getAsyncStartLimit L)
        some ({ s with starting := ⟨pi, .connecting, !async⟩ :: s.starting }, [])
  | .release addr, .go => some ({ s with unstartHost := s.unstartHost.erase addr }, [])
  | .park pi, .go => some ({ s with waitQueue := s.waitQueue ++ [pi] }, [])
  | .wake temp, .go =>
      match s.waitQueue with
      | pi :: queue =>
          -- `reset` sets `lt_running` first, which `set_lt_running` overwrites
          let lt := if temp then false else pi.ltRunning
          some ({ s with waitQueue := queue }, [.send ({ pi with waited := true }.setLtRunning lt)])
      | [] => some (s, [])
  | .exit peer reason, .go => some (s.onPeerExit peer reason)
  | .ltPeerNum, .go => some (s, [.fastest s.ltPeerNum])
  | .fastest ltPeerNum, .pick ftp _ =>
      if s.finds false ftp then
        if ltPeerNum < L.torrentLtPeerConnLimit then
          some (s, ftp.toList.map fun id => .upgrade id none)
        else some (s, [.slowest ftp])
      else none
  | .slowest ftp, .pick stp faster =>
      if s.finds true stp then
        match ftp, stp with
        | none, _ => some (s, [])
        | some id, none => some (s, [.upgrade id none])
        -- `replace_peer` upgrades the one and then stops the other
        | some id, some old => some (s, [if faster then .upgrade id (some old) else .stop id])
      else none
  | .upgrade id old, .go =>
      if s.peers.any fun pi => pi.id == id then
        some ({ s with peers := s.peers.map fun pi =>
            if pi.id == id then pi.setLtRunning true else pi }, old.toList.map .stop)
      else some (s, [])
  | .stop id, .go => some (s.peerExit id .periodicPeerReplace)
  | _, _ => none

/-! ## The system -/

/-- What the environment does. -/
inductive Act where
  /-- `receive_host`: a tracker or the DHT has an address. -/
  | host (addr : SocketAddr)
  /-- The launcher takes a peer from its channel. -/
  | recv
  /-- The `k`-th start makes a connection, which the servant accepts. -/
  | connected (k : ℕ)
  /-- The `k`-th start makes a connection, and `on_handshake_success` fails. -/
  | refused (k : ℕ)
  /-- The `k`-th start fails. -/
  | failed (k : ℕ)
  /-- The task of the `k`-th start panics. -/
  | panicked (k : ℕ)
  /-- The launcher handles the result of the `k`-th start. -/
  | join (k : ℕ)
  /-- `peer_exit` of the servant. -/
  | peerExit (id : ℕ) (reason : PeerExitReason)
  /-- A pass of `peer_alloc`. -/
  | peerAlloc
  /-- The `k`-th task runs to its next access. -/
  | run (k : ℕ) (c : Choice)
  /-- The `k`-th task is aborted where it waits. -/
  | abort (k : ℕ)
  /-- The process begins to stop. -/
  | cancel
  deriving DecidableEq

/-- The task waits for a channel. -/
def Task.awaits (t : Task) : Bool :=
  match t.code with
  | .send _ :: _ | .wake _ :: _ => true
  | _ => false

/-- The start whose connection is being made, at a position. -/
def State.connecting (s : State) (k : ℕ) : Option Start :=
  s.starting[k]?.filter fun st => st.stage == .connecting

/-- The transition function. -/
def step (L : Limits) (s : State) : Act → Option State
  | .host addr =>
      some { s.spawn .handler [.send (.new s.nextId addr)] with nextId := s.nextId + 1 }
  | .recv =>
      match s.channel with
      | pi :: channel =>
          if s.launcherIdle then
            -- a waited peer has its address in the set already
            if !pi.waited && decide (pi.addr ∈ s.unstartHost) then
              some { s with channel := channel }
            else
              some { s.spawn .launcher [.checkLimit pi] with
                channel := channel
                unstartHost := insert pi.addr s.unstartHost }
          else none
      | [] => none
  | .connected k =>
      (s.connecting k).map fun st =>
        { s.addPeer st.info.peer with
          starting := { st with stage := .success } :: s.starting.eraseIdx k }
  | .refused k =>
      (s.connecting k).map fun st =>
        -- `add_peer` returns nothing, and `async_run` reports success all the same
        let (s', code) := s.onPeerExit st.info.peer (.exception false)
        { s' with
          starting := { st with stage := .success } :: s.starting.eraseIdx k
          tasks := resume Task.code ⟨.handler, code⟩ s.tasks }
  | .failed k =>
      (s.connecting k).map fun st =>
        { s with starting := { st with stage := .failed } :: s.starting.eraseIdx k }
  | .panicked k =>
      (s.connecting k).bind fun st =>
        -- `Some(Err(e))` of `join_next`: no address is released
        if s.launcherIdle && !st.direct then
          some { s with starting := s.starting.eraseIdx k }
        else none
  | .join k =>
      s.starting[k]?.bind fun st =>
        if st.direct || s.launcherIdle then
          match st.stage with
          | .connecting => none
          | .success =>
              some { s.insertPeer st.info with starting := s.starting.eraseIdx k }
          | .failed =>
              some { s.spawn .launcher [.release st.info.addr, .wake false] with
                starting := s.starting.eraseIdx k }
        else none
  | .peerExit id reason =>
      let (s', code) := s.peerExit id reason
      some { s' with tasks := resume Task.code ⟨.handler, code⟩ s.tasks }
  | .peerAlloc =>
      if s.coordinatorIdle && !s.isPeerLimit L then
        some (s.spawn .coordinator [.ltPeerNum, .wake true])
      else none
  | .run k c =>
      match s.tasks[k]? with
      | some ⟨owner, pc :: code⟩ =>
          (pcStep L s pc c).map fun r =>
            { r.1 with tasks := resume Task.code ⟨owner, r.2 ++ code⟩ (s.tasks.eraseIdx k) }
      | _ => none
  | .abort k =>
      match s.tasks[k]? with
      | some t =>
          if t.owner == .handler && t.awaits then
            some { s with tasks := s.tasks.eraseIdx k }
          else none
      | none => none
  | .cancel => some { s with cancelled := true }

/-! ## What a step can do -/

/-- The code neither holds a peer nor an address: it looks, or it goes on. -/
def Pc.plain : Pc → Bool
  | wake _ | ltPeerNum | fastest _ | slowest _ | upgrade _ _ | stop _ => true
  | _ => false

/-- Everything a task can do at each place. -/
inductive Next (L : Limits) (s : State) : Pc → State → List Pc → Prop
  | send {pi} : Next L s (.send pi) { s with channel := s.channel ++ [pi] } []
  | queue {pi} : Next L s (.checkLimit pi) { s with waitQueue := s.waitQueue ++ [pi] } []
  | start {pi direct} : s.peers.length + s.joinSet.length < pi.getPeerConnLimit L →
      Next L s (.checkLimit pi) { s with starting := ⟨pi, .connecting, direct⟩ :: s.starting } []
  | release {addr} :
      Next L s (.release addr) { s with unstartHost := s.unstartHost.erase addr } []
  | park {pi} : Next L s (.park pi) { s with waitQueue := s.waitQueue ++ [pi] } []
  | wake {temp pi queue lt} : s.waitQueue = pi :: queue →
      Next L s (.wake temp) { s with waitQueue := queue } [.send ⟨pi.id, pi.addr, lt, true⟩]
  | exitGone {peer reason pi} : s.peers.find? (fun pi => pi.id == peer.id) = some pi →
      Next L s (.exit peer reason) { s with peers := s.peers.filter fun q => q.id != peer.id }
        (exitCode pi reason)
  /-- The peer is not in `Dispatch.peers`, or the process is stopping. -/
  | exitMissed {peer reason} : Next L s (.exit peer reason) s []
  | upgrade {id old} :
      Next L s (.upgrade id old) { s with peers := s.peers.map fun pi =>
        if pi.id == id then pi.setLtRunning true else pi } (old.toList.map .stop)
  | stop {id peer} : s.servant.find? (fun peer => peer.id == id) = some peer →
      Next L s (.stop id) { s with servant := s.servant.filter fun q => q.id != id }
        [.exit peer .periodicPeerReplace]
  | look {pc next} : pc.plain = true → (∀ q ∈ next, Pc.plain q = true) → Next L s pc s next

section Next

variable {L : Limits} {s s' : State} {code : List Pc}

/-- `on_peer_exit` takes the peer out of `Dispatch.peers`, or leaves everything as it is. -/
theorem next_exit {peer : Peer} {reason : PeerExitReason}
    (h : s.onPeerExit peer reason = (s', code)) : Next L s (.exit peer reason) s' code := by
  unfold State.onPeerExit at h
  split at h
  · cases h
    exact .exitMissed
  · split at h
    · next hfind =>
        cases h
        exact .exitGone hfind
    · cases h
      exact .exitMissed

/-- `notify_peer_stop` takes the connection out of the servant if it is still there. -/
theorem next_stop {id : ℕ} (h : s.peerExit id .periodicPeerReplace = (s', code)) :
    Next L s (.stop id) s' code := by
  unfold State.peerExit at h
  split at h
  · next hfind =>
      cases h
      exact .stop hfind
  · cases h
    exact .look rfl (by simp)

/-- Behind the check of the limit a peer is started below it, and queued at it. -/
theorem next_checkLimit {pi : PeerInfo} {free : Bool}
    (h : pcStep L s (.checkLimit pi) (.semaphore free) = some (s', code)) :
    Next L s (.checkLimit pi) s' code := by
  simp only [pcStep] at h
  split at h
  · cases h
    exact .queue
  · next hlt =>
      cases h
      exact .start (Nat.lt_of_not_le hlt)

/-- The search for the fastest temporary peer changes nothing. -/
theorem next_fastest {n : ℕ} {ftp : Option ℕ} {faster : Bool}
    (h : pcStep L s (.fastest n) (.pick ftp faster) = some (s', code)) :
    Next L s (.fastest n) s' code := by
  simp only [pcStep] at h
  split at h
  · split at h
    · cases h
      refine .look rfl ?_
      intro q hq
      obtain ⟨id, -, rfl⟩ := List.mem_map.mp hq
      rfl
    · cases h
      exact .look rfl (by simp [Pc.plain])
  · cases h

/-- The search for the slowest lt peer changes nothing: it only decides what comes next. -/
theorem next_slowest {ftp stp : Option ℕ} {faster : Bool}
    (h : pcStep L s (.slowest ftp) (.pick stp faster) = some (s', code)) :
    Next L s (.slowest ftp) s' code := by
  simp only [pcStep] at h
  split at h
  · split at h
    · cases h
      exact .look rfl (by simp)
    · cases h
      exact .look rfl (by simp [Pc.plain])
    · cases h
      refine .look rfl ?_
      cases faster <;> simp [Pc.plain]
  · cases h

/-- **What a task does is in the list.** -/
theorem next_of_pcStep {pc : Pc} {c : Choice} (h : pcStep L s pc c = some (s', code)) :
    Next L s pc s' code := by
  cases pc with
  | checkLimit pi =>
      cases c with
      | semaphore free => exact next_checkLimit h
      | _ => cases h
  | fastest n =>
      cases c with
      | pick ftp faster => exact next_fastest h
      | _ => cases h
  | slowest ftp =>
      cases c with
      | pick stp faster => exact next_slowest h
      | _ => cases h
  | send pi =>
      cases c with
      | go =>
          obtain ⟨-, heq⟩ := Transition.of_ite_eq_some h
          cases heq
          exact .send
      | _ => cases h
  | release addr =>
      cases c with
      | go =>
          cases h
          exact .release
      | _ => cases h
  | park pi =>
      cases c with
      | go =>
          cases h
          exact .park
      | _ => cases h
  | wake temp =>
      cases c with
      | go =>
          simp only [pcStep] at h
          split at h
          · next pi queue hqueue =>
              cases h
              show Next L s (.wake temp) { s with waitQueue := queue }
                [.send ⟨pi.id, pi.addr, if temp then false else pi.ltRunning, true⟩]
              exact .wake hqueue
          · cases h
            exact .look rfl (by simp)
      | _ => cases h
  | exit peer reason =>
      cases c with
      | go => exact next_exit (Option.some.inj h)
      | _ => cases h
  | ltPeerNum =>
      cases c with
      | go =>
          cases h
          exact .look rfl (by simp [Pc.plain])
      | _ => cases h
  | upgrade id old =>
      cases c with
      | go =>
          simp only [pcStep] at h
          split at h
          · cases h
            exact .upgrade
          · cases h
            exact .look rfl (by simp)
      | _ => cases h
  | stop id =>
      cases c with
      | go => exact next_stop (Option.some.inj h)
      | _ => cases h

end Next

/-- Everything an action can do. -/
inductive Step (L : Limits) (s : State) : Act → State → Prop
  | host {addr} : Step L s (.host addr)
      { s with
        tasks := ⟨.handler, [.send (.new s.nextId addr)]⟩ :: s.tasks
        nextId := s.nextId + 1 }
  | blocked {pi channel} : s.channel = pi :: channel → pi.waited = false →
      Step L s .recv { s with channel := channel }
  | recv {pi channel} : s.channel = pi :: channel → s.launcherIdle = true →
      (pi.waited = false → pi.addr ∉ s.unstartHost) →
      Step L s .recv { s with
        tasks := ⟨.launcher, [.checkLimit pi]⟩ :: s.tasks
        channel := channel
        unstartHost := insert pi.addr s.unstartHost }
  | connected {k st} : s.starting[k]? = some st → st.stage = .connecting →
      Step L s (.connected k) { s with
        servant := st.info.peer :: s.servant.filter fun q => q.id != st.info.id
        starting := { st with stage := .success } :: s.starting.eraseIdx k }
  | refused {k st s₁ code} : s.starting[k]? = some st → st.stage = .connecting →
      Next L s (.exit st.info.peer (.exception false)) s₁ code →
      Step L s (.refused k) { s₁ with
        starting := { st with stage := .success } :: s.starting.eraseIdx k
        tasks := resume Task.code ⟨.handler, code⟩ s.tasks }
  | failed {k st} : s.starting[k]? = some st → st.stage = .connecting →
      Step L s (.failed k)
        { s with starting := { st with stage := .failed } :: s.starting.eraseIdx k }
  | panicked {k st} : s.starting[k]? = some st → st.stage = .connecting →
      Step L s (.panicked k) { s with starting := s.starting.eraseIdx k }
  | success {k st} : s.starting[k]? = some st → st.stage = .success →
      Step L s (.join k) { s with
        peers := st.info :: s.peers.filter fun q => q.id != st.info.id
        starting := s.starting.eraseIdx k }
  | fails {k st} : s.starting[k]? = some st → st.stage = .failed →
      (st.direct || s.launcherIdle) = true →
      Step L s (.join k) { s with
        tasks := ⟨.launcher, [.release st.info.addr, .wake false]⟩ :: s.tasks
        starting := s.starting.eraseIdx k }
  | peerExit {id reason peer} : s.servant.find? (fun peer => peer.id == id) = some peer →
      Step L s (.peerExit id reason) { s with
        servant := s.servant.filter fun q => q.id != id
        tasks := ⟨.handler, [.exit peer reason]⟩ :: s.tasks }
  | notFound {id reason} : s.servant.find? (fun peer => peer.id == id) = none →
      Step L s (.peerExit id reason) s
  | peerAlloc : Step L s .peerAlloc
      { s with tasks := ⟨.coordinator, [.ltPeerNum, .wake true]⟩ :: s.tasks }
  | run {k c owner pc code s₁ next} : s.tasks[k]? = some ⟨owner, pc :: code⟩ →
      pcStep L s pc c = some (s₁, next) →
      Step L s (.run k c)
        { s₁ with tasks := resume Task.code ⟨owner, next ++ code⟩ (s.tasks.eraseIdx k) }
  | abort {k} : Step L s (.abort k) { s with tasks := s.tasks.eraseIdx k }
  | cancel : Step L s .cancel { s with cancelled := true }

section Step

variable {L : Limits} {s s' : State} {a : Act}

/-- A start whose connection is being made stands at its position. -/
theorem connecting_eq_some {k : ℕ} {st : Start} (h : s.connecting k = some st) :
    s.starting[k]? = some st ∧ st.stage = .connecting := by
  rw [State.connecting, Option.filter_eq_some_iff] at h
  exact ⟨h.1, by simpa using h.2⟩

/-- The launcher drops a new peer with a known address and checks every other one. -/
theorem step_recv (h : step L s .recv = some s') : Step L s .recv s' := by
  simp only [step] at h
  split at h
  · next pi channel hch =>
      split at h
      · next hidle =>
          split at h
          · next hin =>
              cases h
              rw [Bool.and_eq_true, Bool.not_eq_true'] at hin
              exact .blocked hch hin.1
          · next hin =>
              cases h
              refine .recv hch hidle ?_
              intro hw
              simpa [hw] using hin
      · cases h
  · cases h

/-- The launcher inserts a connected peer and releases the address of a failed one. -/
theorem step_join {k : ℕ} (h : step L s (.join k) = some s') : Step L s (.join k) s' := by
  obtain ⟨st, hst, h⟩ := Option.bind_eq_some_iff.mp h
  dsimp only at h
  split at h
  · next hidle =>
      split at h
      · cases h
      · next hstage =>
          cases h
          exact .success hst hstage
      · next hstage =>
          cases h
          exact .fails hst hstage hidle
  · cases h

/-- A connection exits if the servant still has it. -/
theorem step_peerExit {id : ℕ} {reason : PeerExitReason}
    (h : step L s (.peerExit id reason) = some s') : Step L s (.peerExit id reason) s' := by
  simp only [step, Option.some.injEq] at h
  subst h
  unfold State.peerExit
  split
  · next hfind => exact .peerExit hfind
  · next hfind => exact .notFound hfind

/-- **What an action does is in the list.** -/
theorem step_cases (h : step L s a = some s') : Step L s a s' := by
  cases a with
  | host addr =>
      cases h
      exact .host
  | recv => exact step_recv h
  | connected k =>
      obtain ⟨st, hst, rfl⟩ := Option.map_eq_some_iff.mp h
      obtain ⟨hst, hstage⟩ := connecting_eq_some hst
      exact .connected hst hstage
  | refused k =>
      obtain ⟨st, hst, rfl⟩ := Option.map_eq_some_iff.mp h
      obtain ⟨hst, hstage⟩ := connecting_eq_some hst
      exact .refused hst hstage (next_exit rfl)
  | failed k =>
      obtain ⟨st, hst, rfl⟩ := Option.map_eq_some_iff.mp h
      obtain ⟨hst, hstage⟩ := connecting_eq_some hst
      exact .failed hst hstage
  | panicked k =>
      obtain ⟨st, hst, h⟩ := Option.bind_eq_some_iff.mp h
      obtain ⟨hst, hstage⟩ := connecting_eq_some hst
      obtain ⟨-, rfl⟩ := Transition.of_ite_eq_some h
      exact .panicked hst hstage
  | join k => exact step_join h
  | peerExit id reason => exact step_peerExit h
  | peerAlloc =>
      obtain ⟨-, rfl⟩ := Transition.of_ite_eq_some h
      exact .peerAlloc
  | run k c =>
      simp only [step] at h
      split at h
      · next owner pc code ht =>
          obtain ⟨⟨s₁, next⟩, hpc, rfl⟩ := Option.map_eq_some_iff.mp h
          exact .run ht hpc
      · cases h
  | abort k =>
      simp only [step] at h
      split at h
      · obtain ⟨-, rfl⟩ := Transition.of_ite_eq_some h
        exact .abort
      · cases h
  | cancel =>
      cases h
      exact .cancel

end Step

end PeerLaunch
