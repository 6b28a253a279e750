/-
# The locks of `Dispatch.peers` (`core/task/content.rs`, `bt/default_servant.rs`)

`Dispatch.peers` is a `DashMap`: an id belongs to a shard, and every access takes the lock of its
shard.  `get_mut` keeps it until the guard goes out of scope; `insert`, `remove` and the upgrade of
a peer ask for it for one access; an iterator has the read locks of the entries it holds on to.
`on_verify_piece_failed` counts the bad pieces of a peer under such a guard and, at the limit, ends
the connection without giving the guard back.

* `State` has the map, the registry of the servant and the tasks, each with the guards it holds;
* `grants` says when the lock an access needs is free, and `pcStep` is the code of a task from one
  access to the next;
* `SelfLock` is a task that asks for a lock it holds itself, `Calm` the invariant of the runs that
  stay below the limit, `Stuck` what becomes of a task that does not.

The flags and the address of a peer, and what follows a removal outside of the map, leave no trace
here.
-/
import Dorodoro.PeerLaunch
import Dorodoro.Counting

namespace PeerLocks

open Transition (resume mem_resume)

open PeerLaunch (PeerExitReason)

/-! ## The map and its guards -/

/-- The configuration: the limit of bad pieces, and how the map is cut into shards. -/
structure Config where
  /-- `error_piece_limit`. -/
  errorPieceLimit : ℕ
  shards : ℕ
  shardOf : ℕ → ℕ

/-- A lock of a shard that is held. -/
inductive Guard where
  | read (shard : ℕ)
  | write (shard : ℕ)
  deriving DecidableEq

/-- The shard of a guard. -/
def Guard.shard : Guard → ℕ
  | read shard | write shard => shard

/-- `PeerInfo`, with its count of bad pieces. -/
structure PeerInfo where
  id : ℕ
  errorPieceCnt : ℕ
  deriving DecidableEq

/-- What a task does next. -/
inductive Pc where
  /-- `get_mut` of `on_verify_piece_failed`. -/
  | getMut (id : ℕ)
  /-- `peer_exit` of the servant. -/
  | takeServant (id : ℕ) (reason : PeerExitReason)
  /-- `on_peer_exit`. -/
  | onPeerExit (id : ℕ) (reason : PeerExitReason)
  /-- `remove` of `on_peer_exit`. -/
  | remove (id : ℕ) (reason : PeerExitReason)
  /-- `upgrage_lt_peer`, and the peer that is stopped for it. -/
  | upgrade (id : ℕ) (old : Option ℕ)
  /-- `insert` of the launcher. -/
  | insert (pi : PeerInfo)
  /-- An iterator goes through a shard. -/
  | read (shard : ℕ)
  /-- The guards go out of scope. -/
  | drop
  deriving DecidableEq

/-- A task, with what it has still to do and the guards it holds. -/
structure Task where
  code : List Pc
  held : List Guard
  deriving DecidableEq

/-- The shared state. -/
structure State where
  peers : List PeerInfo
  waitQueue : List PeerInfo
  /-- The keys of `DefaultServant.peers`. -/
  servant : List ℕ
  tasks : List Task
  nextId : ℕ
  cancelled : Bool

/-- `DownloadContent::new`. -/
def State.init : State := ⟨[], [], [], [], 1, false⟩

/-- The shard whose write lock the access needs. -/
def Pc.asks (C : Config) : Pc → Option ℕ
  | getMut id | remove id _ | upgrade id _ => some (C.shardOf id)
  | insert pi => some (C.shardOf pi.id)
  | _ => none

/-- The lock the access needs is free; it does not matter which task holds it. -/
def State.grants (C : Config) (s : State) (pc : Pc) : Bool :=
  match pc, pc.asks C with
  | .read shard, _ => s.tasks.all fun t => t.held.all fun g => g != .write shard
  | _, some shard => s.tasks.all fun t => t.held.all fun g => g.shard != shard
  | _, none => true

/-- One bad piece more. -/
def PeerInfo.addError (pi : PeerInfo) : PeerInfo :=
  { pi with errorPieceCnt := pi.errorPieceCnt + 1 }

/-! ## The code of the tasks -/

/-- What comes of an access: the state, what the task does instead, and the guards it holds. -/
structure Effect where
  state : State
  next : List Pc
  held : List Guard

/-- `on_verify_piece_failed`. -/
def State.verifyFailed (C : Config) (s : State) (id : ℕ) (held : List Guard) : Effect :=
  match s.peers.find? fun pi => pi.id == id with
  | some pi =>
      let s' := { s with peers := s.peers.map fun q => if q.id == id then q.addError else q }
      if C.errorPieceLimit ≤ pi.addError.errorPieceCnt then
        -- the guard lives to the end of the block
        ⟨s', [.takeServant id (.exception true), .drop], .write (C.shardOf id) :: held⟩
      else ⟨s', [], held⟩
  | none => ⟨s, [], held⟩

/-- `remove` of `on_peer_exit`, and the one branch that keeps the peer. -/
def State.removePeer (s : State) (id : ℕ) (reason : PeerExitReason) : State :=
  let parked := if reason = .periodicPeerReplace then s.peers.filter fun q => q.id == id else []
  { s with
    peers := s.peers.filter fun q => q.id != id
    waitQueue := s.waitQueue ++ parked }

/-- The code from one access to the next.  An iterator may keep the guards it has (`keep`). -/
def pcStep (C : Config) (s : State) (held : List Guard) (keep : Bool) : Pc → Effect
  | .getMut id => s.verifyFailed C id held
  | .takeServant id reason =>
      if id ∈ s.servant then
        ⟨{ s with servant := s.servant.filter fun q => q != id }, [.onPeerExit id reason], held⟩
      else ⟨s, [], held⟩
  | .onPeerExit id reason => ⟨s, if s.cancelled then [] else [.remove id reason], held⟩
  | .remove id reason => ⟨s.removePeer id reason, [], held⟩
  | .upgrade id old =>
      let stops := old.toList.map fun old => Pc.takeServant old .periodicPeerReplace
      ⟨s, if s.peers.any fun pi => pi.id == id then stops else [], held⟩
  | .insert pi => ⟨{ s with peers := pi :: s.peers.filter fun q => q.id != pi.id }, [], held⟩
  | .read shard => ⟨s, [], .read shard :: if keep then held else []⟩
  | .drop => ⟨s, [], []⟩

/-! ## The system -/

/-- What the environment does. -/
inductive Act where
  /-- A piece of the peer fails its check. -/
  | verifyFailed (id : ℕ)
  /-- `peer_exit`: an error, an `Exit`, no job left, or `notify_peer_stop`. -/
  | peerExit (id : ℕ) (reason : PeerExitReason)
  /-- `add_peer` of the servant. -/
  | addPeer (id : ℕ)
  /-- `on_handshake_success` fails. -/
  | refused (id : ℕ)
  /-- The launcher has started a new peer. -/
  | start
  /-- The launcher has started the first peer of the wait queue. -/
  | restart
  /-- `upgrage_lt_peer`, or `replace_peer` when there is an old one. -/
  | upgrade (id : ℕ) (old : Option ℕ)
  /-- `len`, or one of the functions that iterate. -/
  | iterate
  /-- The `k`-th task makes its next access. -/
  | run (k : ℕ) (keep : Bool)
  /-- The process begins to stop. -/
  | cancel
  deriving DecidableEq

/-- Start a task. -/
def State.spawn (s : State) (code : List Pc) : State := { s with tasks := ⟨code, []⟩ :: s.tasks }

/-- The transition function. -/
def step (C : Config) (s : State) : Act → Option State
  | .verifyFailed id => some (s.spawn [.getMut id])
  | .peerExit id reason => some (s.spawn [.takeServant id reason])
  | .addPeer id => some { s with servant := id :: s.servant.filter fun q => q != id }
  | .refused id => some (s.spawn [.onPeerExit id (.exception false)])
  | .start => some { s.spawn [.insert ⟨s.nextId, 0⟩] with nextId := s.nextId + 1 }
  | .restart =>
      match s.waitQueue with
      | pi :: queue => some { s.spawn [.insert pi] with waitQueue := queue }
      | [] => none
  | .upgrade id old => some (s.spawn [.upgrade id old])
  | .iterate => some (s.spawn ((List.range C.shards).map .read ++ [.drop]))
  | .run k keep =>
      match s.tasks[k]? with
      | some ⟨pc :: code, held⟩ =>
          if s.grants C pc then
            let e := pcStep C s held keep pc
            some { e.state with tasks := resume Task.code ⟨e.next ++ code, e.held⟩ (s.tasks.eraseIdx k) }
          else none
      | _ => none
  | .cancel => some { s with cancelled := true }

/-- The task asks for the write lock of a shard of which it holds a guard. -/
def Task.selfLocked (C : Config) (t : Task) : Bool :=
  match t.code with
  | pc :: _ => (pc.asks C).any fun shard => t.held.any fun g => g.shard == shard
  | [] => false

/-- Some task waits for itself. -/
def State.SelfLock (C : Config) (s : State) : Prop := ∃ t ∈ s.tasks, t.selfLocked C = true

variable {C : Config} {s s' : State} {a : Act} {pc : Pc} {code : List Pc} {held : List Guard}

/-! ## Below the limit -/

/-- The errors of the peer, if any were counted, are below the limit. -/
def PeerInfo.Few (C : Config) (pi : PeerInfo) : Prop :=
  pi.errorPieceCnt = 0 ∨ pi.errorPieceCnt < C.errorPieceLimit

/-- The condition on an action: no bad piece brings its peer up to the limit. -/
def BelowLimit (C : Config) (s : State) : Act → Prop
  | .run k _ =>
      match s.tasks[k]? with
      | some ⟨.getMut id :: _, _⟩ =>
          ∀ pi ∈ s.peers, pi.id = id → pi.addError.errorPieceCnt < C.errorPieceLimit
      | _ => True
  | _ => True

instance (C : Config) (s : State) (a : Act) : Decidable (BelowLimit C s a) := by
  unfold BelowLimit
  split
  · split <;> infer_instance
  · infer_instance

/-- The access is one of an iterator. -/
def Pc.looks : Pc → Bool
  | read _ | drop => true
  | _ => false

/-- A task that changes something holds nothing; one that holds something only looks on. -/
structure Task.Calm (C : Config) (t : Task) : Prop where
  holds : t.held = [] ∧ (∀ pc ∈ t.code, pc.looks = false) ∨ ∀ pc ∈ t.code, pc.looks = true
  few : ∀ pi, .insert pi ∈ t.code → pi.Few C

/-- The invariant of the runs below the limit. -/
structure Calm (C : Config) (s : State) : Prop where
  tasks : ∀ t ∈ s.tasks, t.Calm C
  peers : ∀ pi ∈ s.peers, pi.Few C
  waitQueue : ∀ pi ∈ s.waitQueue, pi.Few C

theorem Calm.init (C : Config) : Calm C .init := by
  constructor <;> intro _ h <;> cases h

theorem asks_of_looks (h : pc.looks = true) : pc.asks C = none := by
  cases pc with
  | read _ | drop => rfl
  | _ => cases h

theorem Task.Calm.selfLocked {t : Task} (h : t.Calm C) : t.selfLocked C = false := by
  unfold Task.selfLocked
  split
  · next pc _ hcode =>
      rcases h.holds with ⟨hheld, -⟩ | hlooks
      · rw [hheld]
        cases pc.asks C <;> rfl
      · rw [asks_of_looks (hlooks pc (by rw [hcode]; exact List.mem_cons_self))]
        rfl
  · rfl

/-- Below the limit a change gives its guard back, and what it leaves to do is a change again. -/
theorem Calm.effect (h : Calm C s) (held : List Guard) (keep : Bool) (hpc : pc.looks = false)
    (hlow : ∀ id, pc = .getMut id → ∀ pi ∈ s.peers, pi.id = id →
      pi.addError.errorPieceCnt < C.errorPieceLimit)
    (hinsert : ∀ pi, pc = .insert pi → pi.Few C) :
    (pcStep C s held keep pc).held = held ∧
      (∀ q ∈ (pcStep C s held keep pc).next, q.looks = false ∧ ∀ pi, q ≠ .insert pi) ∧
      (∀ pi ∈ (pcStep C s held keep pc).state.peers, pi.Few C) ∧
      ∀ pi ∈ (pcStep C s held keep pc).state.waitQueue, pi.Few C := by
  cases pc with
  | read _ | drop => cases hpc
  | getMut id =>
      have hcount : ∀ pi ∈ s.peers.map fun q => if q.id == id then q.addError else q,
          pi.Few C := by
        intro pi hpi
        obtain ⟨q, hq, rfl⟩ := List.mem_map.mp hpi
        split
        · next hid => exact Or.inr (hlow id rfl q hq (beq_iff_eq.mp hid))
        · exact h.peers q hq
      simp only [pcStep, State.verifyFailed]
      split
      · next pi hfind =>
          have hid : pi.id = id := by simpa using List.find?_some hfind
          have hlt := hlow id rfl pi (List.mem_of_find?_eq_some hfind) hid
          rw [if_neg (Nat.not_le.mpr hlt)]
          exact ⟨rfl, by simp, hcount, h.waitQueue⟩
      · exact ⟨rfl, by simp, h.peers, h.waitQueue⟩
  | takeServant id reason =>
      simp only [pcStep]
      split
      · exact ⟨rfl, by simp [Pc.looks], h.peers, h.waitQueue⟩
      · exact ⟨rfl, by simp, h.peers, h.waitQueue⟩
  | onPeerExit id reason =>
      refine ⟨rfl, ?_, h.peers, h.waitQueue⟩
      simp only [pcStep]
      cases s.cancelled <;> simp [Pc.looks]
  | remove id reason =>
      refine ⟨rfl, by simp [pcStep], ?_, ?_⟩
      · exact fun pi hpi => h.peers pi (List.mem_of_mem_filter hpi)
      · intro pi hpi
        rcases List.mem_append.mp hpi with hpi | hpi
        · exact h.waitQueue pi hpi
        · split at hpi
          · exact h.peers pi (List.mem_of_mem_filter hpi)
          · cases hpi
  | upgrade id old =>
      refine ⟨rfl, ?_, h.peers, h.waitQueue⟩
      simp only [pcStep]
      split
      · intro q hq
        obtain ⟨old, -, rfl⟩ := List.mem_map.mp hq
        simp [Pc.looks]
      · simp
  | insert pi =>
      refine ⟨rfl, by simp [pcStep], ?_, h.waitQueue⟩
      intro q hq
      rcases List.mem_cons.mp hq with rfl | hq
      · exact hinsert q rfl
      · exact h.peers q (List.mem_of_mem_filter hq)

/-- A new task. -/
theorem Calm.spawn (h : Calm C s) (ht : Task.Calm C ⟨code, []⟩) : Calm C (s.spawn code) :=
  { h with tasks := List.forall_mem_cons.mpr ⟨ht, h.tasks⟩ }

theorem calm_single (hpc : pc.looks = false) (hinsert : ∀ pi, pc = .insert pi → pi.Few C) :
    Task.Calm C ⟨[pc], []⟩ := by
  constructor
  · exact Or.inl ⟨rfl, List.forall_mem_singleton.mpr hpc⟩
  · intro pi hpi
    exact hinsert pi (List.mem_singleton.mp hpi).symm

/-- **An access keeps the invariant.** -/
theorem Calm.run (h : Calm C s) {k : ℕ} {keep : Bool} (hlow : BelowLimit C s (.run k keep))
    (ht : s.tasks[k]? = some ⟨pc :: code, held⟩) :
    Calm C { (pcStep C s held keep pc).state with
      tasks := resume Task.code ⟨(pcStep C s held keep pc).next ++ code, (pcStep C s held keep pc).held⟩
        (s.tasks.eraseIdx k) } := by
  have hcalm := h.tasks _ (List.mem_of_getElem? ht)
  have herase : ∀ t ∈ s.tasks.eraseIdx k, t.Calm C :=
    fun t ht => h.tasks t (List.mem_of_mem_eraseIdx ht)
  rcases hcalm.holds with ⟨hheld, hlooks⟩ | hlooks
  · rw [List.forall_mem_cons] at hlooks
    have hlow' : ∀ id, pc = .getMut id → ∀ pi ∈ s.peers, pi.id = id →
        pi.addError.errorPieceCnt < C.errorPieceLimit := by
      rintro id rfl
      rw [BelowLimit, ht] at hlow
      exact hlow
    obtain ⟨hheld', hnext, hpeers, hqueue⟩ := h.effect held keep hlooks.1 hlow'
      fun pi hpi => hcalm.few pi (by rw [hpi]; exact List.mem_cons_self)
    refine ⟨?_, hpeers, hqueue⟩
    intro t htask
    rcases mem_resume htask with rfl | htask
    · constructor
      · refine Or.inl ⟨hheld'.trans hheld, List.forall_mem_append.mpr ⟨?_, hlooks.2⟩⟩
        exact fun q hq => (hnext q hq).1
      · intro pi hpi
        rcases List.mem_append.mp hpi with hpi | hpi
        · exact absurd rfl ((hnext _ hpi).2 pi)
        · exact hcalm.few pi (List.mem_cons_of_mem pc hpi)
    · exact herase t htask
  · rw [List.forall_mem_cons] at hlooks
    -- an iterator changes nothing
    have hsame : (pcStep C s held keep pc).state = s ∧ (pcStep C s held keep pc).next = [] := by
      cases pc with
      | read _ | drop => exact ⟨rfl, rfl⟩
      | _ => cases hlooks.1
    rw [hsame.1, hsame.2]
    refine { h with tasks := ?_ }
    intro t htask
    rcases mem_resume htask with rfl | htask
    · exact ⟨Or.inr hlooks.2, fun pi hpi => hcalm.few pi (List.mem_cons_of_mem pc hpi)⟩
    · exact herase t htask

theorem Calm.step (h : Calm C s) (hlow : BelowLimit C s a) (hstep : step C s a = some s') :
    Calm C s' := by
  cases a with
  | verifyFailed _ | peerExit _ _ | refused _ | upgrade _ _ =>
      cases hstep
      exact h.spawn (calm_single rfl (by simp))
  | addPeer _ | cancel =>
      cases hstep
      exact { h with }
  | start =>
      cases hstep
      have hnew : PeerInfo.Few C ⟨s.nextId, 0⟩ := Or.inl rfl
      exact { h.spawn (calm_single rfl fun pi hpi => by cases hpi; exact hnew) with }
  | restart =>
      simp only [PeerLocks.step] at hstep
      split at hstep
      · next pi queue hqueue =>
          cases hstep
          have hw := h.waitQueue
          rw [hqueue, List.forall_mem_cons] at hw
          have hone : Task.Calm C ⟨[.insert pi], []⟩ :=
            calm_single rfl fun q hq => by cases hq; exact hw.1
          exact { h.spawn hone with waitQueue := hw.2 }
      · cases hstep
  | iterate =>
      cases hstep
      refine h.spawn ⟨Or.inr ?_, ?_⟩
      · refine List.forall_mem_append.mpr ⟨?_, List.forall_mem_singleton.mpr rfl⟩
        intro q hq
        obtain ⟨shard, -, rfl⟩ := List.mem_map.mp hq
        rfl
      · intro pi hpi
        simp at hpi
  | run k keep =>
      simp only [PeerLocks.step] at hstep
      split at hstep
      · next pc code held ht =>
          obtain ⟨-, rfl⟩ := Transition.of_ite_eq_some hstep
          exact h.run hlow ht
      · cases hstep

/-! ## At the limit -/

/-- A task waits for the shard of a peer to take it out of the map, and holds that shard. -/
def Stuck (C : Config) (s : State) (id : ℕ) : Prop :=
  (∃ t ∈ s.tasks, (∃ reason code, t.code = .remove id reason :: code) ∧
    .write (C.shardOf id) ∈ t.held) ∧ ∃ pi ∈ s.peers, pi.id = id

theorem Stuck.selfLock {id : ℕ} (h : Stuck C s id) : s.SelfLock C := by
  obtain ⟨⟨t, ht, ⟨reason, code, hcode⟩, hheld⟩, -⟩ := h
  refine ⟨t, ht, ?_⟩
  rw [Task.selfLocked, hcode]
  show (t.held.any fun g => g.shard == C.shardOf id) = true
  exact List.any_eq_true.mpr ⟨_, hheld, beq_self_eq_true (C.shardOf id)⟩

/-- Nobody is granted the lock of a shard that is held for writing. -/
theorem grants_ne {t : Task} {shard : ℕ} (ht : t ∈ s.tasks) (hheld : .write shard ∈ t.held)
    (hgrants : s.grants C pc = true) : pc.asks C ≠ some shard := by
  intro hasks
  unfold State.grants at hgrants
  split at hgrants
  · cases hasks
  · next shard' hasks' =>
      rw [hasks] at hasks'
      cases hasks'
      have hne := List.all_eq_true.mp (List.all_eq_true.mp hgrants t ht) _ hheld
      simp [Guard.shard] at hne
  · next hnone =>
      rw [hasks] at hnone
      cases hnone

/-- An access to another shard leaves the peer where it is. -/
theorem mem_peers_effect {id : ℕ} {keep : Bool} (hasks : pc.asks C ≠ some (C.shardOf id))
    (hpi : ∃ pi ∈ s.peers, pi.id = id) :
    ∃ pi ∈ (pcStep C s held keep pc).state.peers, pi.id = id := by
  obtain ⟨pi, hmem, hid⟩ := hpi
  have hne : ∀ id', C.shardOf id' ≠ C.shardOf id → pi.id ≠ id' := by
    rintro id' hshard heq
    rw [hid] at heq
    exact hshard (by rw [heq])
  cases pc with
  | getMut id' =>
      simp only [pcStep, State.verifyFailed]
      have hmap : ∃ q ∈ s.peers.map fun q => if q.id == id' then q.addError else q, q.id = id := by
        refine ⟨_, List.mem_map.mpr ⟨pi, hmem, rfl⟩, ?_⟩
        split <;> exact hid
      split
      · split <;> exact hmap
      · exact ⟨pi, hmem, hid⟩
  | takeServant id' reason =>
      simp only [pcStep]
      split <;> exact ⟨pi, hmem, hid⟩
  | remove id' reason =>
      have hother := hne id' fun heq => hasks (congrArg some heq)
      exact ⟨pi, List.mem_filter.mpr ⟨hmem, by simpa using hother⟩, hid⟩
  | insert q =>
      have hother := hne q.id fun heq => hasks (congrArg some heq)
      exact ⟨pi, List.mem_cons_of_mem q (List.mem_filter.mpr ⟨hmem, by simpa using hother⟩), hid⟩
  | _ => exact ⟨pi, hmem, hid⟩

/-- **Stuck for good.**  No action of anybody lets the task go on or takes the peer out. -/
theorem Stuck.step {id : ℕ} (h : Stuck C s id) (hstep : step C s a = some s') :
    Stuck C s' id := by
  obtain ⟨⟨t, ht, ⟨reason, rest, hcode⟩, hheld⟩, hpeer⟩ := h
  have hspawn : ∀ code, Stuck C (s.spawn code) id := fun code =>
    ⟨⟨t, List.mem_cons_of_mem _ ht, ⟨reason, rest, hcode⟩, hheld⟩, hpeer⟩
  cases a with
  | restart =>
      simp only [PeerLocks.step] at hstep
      split at hstep
      · cases hstep
        exact hspawn _
      · cases hstep
  | run k keep =>
      simp only [PeerLocks.step] at hstep
      split at hstep
      · next pc code held hk =>
          obtain ⟨hgrants, rfl⟩ := Transition.of_ite_eq_some hstep
          have hasks := grants_ne ht hheld hgrants
          refine ⟨⟨t, ?_, ⟨reason, rest, hcode⟩, hheld⟩, mem_peers_effect hasks hpeer⟩
          -- the task that runs is another one
          rcases List.mem_cons.mp ((Counting.cons_eraseIdx_perm hk).mem_iff.mpr ht) with heq | hin
          · rw [heq] at hcode
            cases hcode
            exact absurd rfl hasks
          · show t ∈ resume Task.code _ (s.tasks.eraseIdx k)
            unfold resume
            split
            · exact hin
            · exact List.mem_cons_of_mem _ hin
      · cases hstep
  | addPeer _ | cancel =>
      cases hstep
      exact ⟨⟨t, ht, ⟨reason, rest, hcode⟩, hheld⟩, hpeer⟩
  | _ =>
      cases hstep
      exact hspawn _

/-- **What the limit leads to.**  A bad piece brings a connected peer up to the limit, and the
process is not stopping: three accesses later its task is stuck, and stays so. -/
theorem stuck_of_limit {k id : ℕ} {pi : PeerInfo}
    (hk : s.tasks[k]? = some ⟨.getMut id :: code, held⟩) (hgrants : s.grants C (.getMut id) = true)
    (hfind : s.peers.find? (fun pi => pi.id == id) = some pi)
    (hlimit : C.errorPieceLimit ≤ pi.addError.errorPieceCnt) (hservant : id ∈ s.servant)
    (hgo : s.cancelled = false) :
    ∃ s₁, Transition.exec (step C) s [.run k true, .run 0 true, .run 0 true] = some s₁ ∧
      ∀ as s', Transition.FreeRun (step C) s₁ as s' → Stuck C s' id := by
  have hid : pi.id = id := by simpa using List.find?_some hfind
  let s₁ : State := { s with
    peers := s.peers.map fun q => if q.id == id then q.addError else q
    tasks := ⟨.takeServant id (.exception true) :: .drop :: code, .write (C.shardOf id) :: held⟩ ::
      s.tasks.eraseIdx k }
  let s₂ : State := { s₁ with
    servant := s.servant.filter fun q => q != id
    tasks := ⟨.onPeerExit id (.exception true) :: .drop :: code, .write (C.shardOf id) :: held⟩ ::
      s.tasks.eraseIdx k }
  let s₃ : State := { s₂ with
    tasks := ⟨.remove id (.exception true) :: .drop :: code, .write (C.shardOf id) :: held⟩ ::
      s.tasks.eraseIdx k }
  have h₁ : step C s (.run k true) = some s₁ := by
    simp [step, hk, hgrants, pcStep, State.verifyFailed, hfind, hlimit, resume, s₁]
  have h₂ : step C s₁ (.run 0 true) = some s₂ := by
    simp [step, State.grants, Pc.asks, pcStep, hservant, resume, s₁, s₂]
  have h₃ : step C s₂ (.run 0 true) = some s₃ := by
    simp [step, State.grants, Pc.asks, pcStep, hgo, resume, s₁, s₂, s₃]
  have hstuck : Stuck C s₃ id := by
    refine ⟨⟨_, List.mem_cons_self, ⟨_, _, rfl⟩, List.mem_cons_self⟩, pi.addError, ?_, hid⟩
    refine List.mem_map.mpr ⟨pi, List.mem_of_find?_eq_some hfind, ?_⟩
    rw [if_pos (beq_iff_eq.mpr hid)]
  refine ⟨s₃, ?_, ?_⟩
  · rw [Transition.exec_cons, h₁, Option.bind_some, Transition.exec_cons, h₂, Option.bind_some,
      Transition.exec_cons, h₃, Option.bind_some, Transition.exec_nil]
  · intro as s' hrun
    exact hrun.invariant (I := fun s => Stuck C s id) hstuck fun _ _ _ h _ hstep => h.step hstep

/-! ## Runs -/

/-- **No task waits for itself.**  In every run in which no bad piece brings its peer up to the
limit, no task asks for the lock of a shard it holds, and no peer has reached the limit. -/
theorem no_self_lock {as : List Act}
    (hrun : Transition.Run (step C) (BelowLimit C) .init as s) :
    ¬ s.SelfLock C ∧ ∀ pi ∈ s.peers, pi.Few C := by
  have hcalm : Calm C s := hrun.invariant (Calm.init C) fun _ _ _ h hlow hstep => h.step hlow hstep
  refine ⟨?_, hcalm.peers⟩
  rintro ⟨t, ht, hlock⟩
  rw [(hcalm.tasks t ht).selfLocked] at hlock
  cases hlock

/-- The default limit, and one shard. -/
def oneShard : Config := ⟨3, 1, fun _ => 0⟩

/-- A peer is connected and sends two bad pieces, while the coordinator looks on. -/
def twoErrorsRun : List Act :=
  [.addPeer 1, .start, .run 0 false, .iterate, .verifyFailed 1, .run 0 false, .run 0 false,
    .verifyFailed 1, .run 1 false, .run 0 false]

/-- Both errors are counted. -/
theorem no_self_lock_twoErrors :
    ∃ s : State,
      Transition.Run (step oneShard) (BelowLimit oneShard) .init twoErrorsRun s ∧
      s.peers = [⟨1, 2⟩] ∧ ¬ s.SelfLock oneShard ∧
      ∀ pi ∈ s.peers, pi.Few oneShard := by
  have hexec : (Transition.execIf (step oneShard) (BelowLimit oneShard) .init twoErrorsRun).map
      State.peers = some [⟨1, 2⟩] := by decide +kernel
  obtain ⟨s, hrun, hpeers⟩ := Transition.Run.exists_of_execIf hexec
  exact ⟨s, hrun, hpeers, no_self_lock hrun⟩

/-- The third bad piece. -/
def threeErrorsRun : List Act :=
  [.addPeer 1, .start, .run 0 false, .verifyFailed 1, .run 0 false, .verifyFailed 1, .run 0 false,
    .verifyFailed 1, .run 0 false, .run 0 false, .run 0 false]

/-- The task that ends the connection waits for the guard it counts the pieces under. -/
theorem self_lock_threeErrors :
    ∃ s : State, Transition.FreeRun (step oneShard) .init threeErrorsRun s ∧ s.SelfLock oneShard ∧
      s.peers = [⟨1, 3⟩] := by
  have hexec : (Transition.exec (step oneShard) .init threeErrorsRun).map
      (fun s => (s.tasks, s.peers)) =
        some ([⟨[.remove 1 (.exception true), .drop], [.write 0]⟩], [⟨1, 3⟩]) := by decide +kernel
  obtain ⟨s, hrun, hview⟩ := Transition.Run.exists_of_exec hexec
  simp only [Prod.mk.injEq] at hview
  refine ⟨s, hrun, ?_, hview.2⟩
  unfold State.SelfLock
  rw [hview.1]
  exact ⟨_, List.mem_singleton_self _, rfl⟩

end PeerLocks
