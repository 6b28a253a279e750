/-
# Handling the messages of a peer

`persist_listen` (`bt/base_peer.rs`) takes the commands of a peer from its channel one by
one and hands each to a handler of `DefaultServant` (`bt/default_servant.rs`): awaited in
place, or, if the peer's pool has room and a global permit is left, spawned as a task of
its own.  A handler looks its peer up in `peers`; if it is there, it makes one access to the
fields it shares with the others (the status of the peer, or the bitmap `op_bitfield`), calls
back into the download task, and returns; an error ends the listener.  The listener runs
before `add_peer` puts the peer into `peers`, and `peer_exit` may take it out at any time.

* `lookup` is the first part of a handler, and `handle` the part behind it up to and including
  its access, as an `Effect` on the shared fields and the `Phase` it goes on in;
* `step` interleaves the listener and the handlers;
* `lastStatus` and `appliedBitfield` are what the commands should amount to.

Spawned handlers may overtake each other, and a message to a peer that is not in `peers` is
lost.  `inOrder_of_inTurn` states when the outcome is nevertheless that of the order received.
The second part looks at one handler after the other: `remembered_iff` says which announced
pieces `op_bitfield` remembers.
-/
import Dorodoro.Bitmap
import Dorodoro.PeerWire
import Dorodoro.Reordering
import Dorodoro.Transition

open PeerWire Transition

namespace PeerMessages

/-! ## The shared fields of a peer -/

/-- `Status`. -/
inductive Status where
  | choke
  | unChoke
  deriving DecidableEq

/-- The fields the handlers share. -/
structure Shared where
  status : Status
  opBitfield : Bytes
  deriving DecidableEq

/-- `Peer::new`. -/
def Shared.new : Shared := ⟨.choke, []⟩

/-- An access to the shared fields. -/
inductive Effect where
  | none
  | setStatus (status : Status)
  | setBit (bit : ℕ)
  | setOpBitfield (bitfield : Bytes)
  deriving DecidableEq

/-- Make an access.  A bit behind the end of the bitmap is not set. -/
def Effect.apply (p : Shared) : Effect → Shared
  | .none => p
  | .setStatus status => { p with status := status }
  | .setBit bit => { p with opBitfield := Bitmap.set p.opBitfield bit }
  | .setOpBitfield bitfield => { p with opBitfield := bitfield }

/-- Where a handler stands. -/
inductive Phase where
  /-- It has not looked its peer up yet. -/
  | spawned
  /-- It holds its peer, and has not made its access yet. -/
  | found
  /-- `set_op_bitfield` has replaced the bitmap, and not yet set `recv_bitfield`. -/
  | bitfieldSet
  /-- It runs code that does not touch the shared fields. -/
  | callback
  /-- It has returned `Ok` or an error. -/
  | returned (ok : Bool)
  /-- The listener has seen the result. -/
  | joined
  deriving DecidableEq

/-- The access is still to be made. -/
def Phase.pending : Phase → Bool
  | .spawned => true
  | .found => true
  | _ => false

/-- Where the peer stands in `DefaultServant.peers`. -/
inductive Registry where
  /-- `add_peer` has not put it in yet. -/
  | joining
  | registered
  /-- `peer_exit` has taken it out. -/
  | left
  deriving DecidableEq

/-- `take_servant_context`. -/
def Registry.exit : Registry → Registry
  | .registered => .left
  | r => r

/-! ## The handlers -/

/-- `handle_have` up to its callback. -/
def handleHave (payload : Bytes) : Effect × Phase :=
  if payload.length ≠ 4 then (.none, .returned false)
  else (.setBit (fromBeSlice 4 payload), .callback)

/-- `handle_bitfield` up to its callback, with the `bitfield_len` of the torrent if there is
one. -/
def handleBitfield (bitfieldLen : Option ℕ) (payload : Bytes) : Effect × Phase :=
  match bitfieldLen with
  | none => (.none, .returned true)
  | some bitLen =>
      if payload.length ≠ bitLen then (.none, .returned false)
      else (.setOpBitfield payload, .bitfieldSet)

/-- The first part of `Command::handle`: a message looks its peer up (`DefaultServant::handle`),
and is dropped if it is not there; `peer_exit` has taken the peer out. -/
def lookup (registry : Registry) : Transfer → Phase
  | .heartbeat => .returned true
  | .exit _ => .callback
  | .peerTransfer _ _ _ => if registry = .registered then .found else .returned true

/-- Whether the handler calls `peer_exit`. -/
def exits : Transfer → Bool
  | .exit _ => true
  | _ => false

/-- `Command::handle` with a peer that was found, up to the access to the shared fields. -/
def handle (bitfieldLen : Option ℕ) : Transfer → Effect × Phase
  | .heartbeat => (.none, .returned true)
  | .exit _ => (.none, .callback)
  | .peerTransfer msgType payload _ =>
      match msgType with
      | .choke => (.setStatus .choke, .returned true)
      | .unChoke => (.setStatus .unChoke, .callback)
      | .have => handleHave payload
      | .bitfield => handleBitfield bitfieldLen payload
      | .interested => (.none, .callback)
      | .notInterested => (.none, .callback)
      | .request => (.none, .callback)
      | .piece => (.none, .callback)
      | .cancel => (.none, .returned true)
      | .extensionProtocol => (.none, .callback)
      | _ => (.none, .returned true)

theorem handle_have (bitfieldLen : Option ℕ) (payload : Bytes) (readSize : ℕ) :
    handle bitfieldLen (.peerTransfer .have payload readSize) = handleHave payload := rfl

theorem handle_bitfield (bitfieldLen : Option ℕ) (payload : Bytes) (readSize : ℕ) :
    handle bitfieldLen (.peerTransfer .bitfield payload readSize) =
      handleBitfield bitfieldLen payload := rfl

/-! ## The listener -/

/-- A command that was received, and its handler. -/
structure Task where
  cmd : Transfer
  inline : Bool
  phase : Phase
  deriving DecidableEq

/-- The state of the listener: the commands received so far, in order. -/
structure State where
  peer : Shared
  recvBitfield : Bool
  registry : Registry
  tasks : List Task
  stopped : Bool
  deriving DecidableEq

/-- The listener before the first command. -/
def State.new : State := ⟨.new, false, .joining, [], false⟩

/-- The limit of the pool, and the length of the torrent's bitmap. -/
structure Config where
  asyncTaskLimit : ℕ
  bitfieldLen : Option ℕ

/-- What happens next. -/
inductive Act where
  /-- A command is received; `permit` says whether a global permit is left. -/
  | receive (cmd : Transfer) (permit : Bool)
  /-- The `k`-th handler moves on; its code outside the shared fields ends with `ok`. -/
  | run (k : ℕ) (ok : Bool)
  /-- The listener sees the result of the `k`-th handler. -/
  | join (k : ℕ)
  /-- `add_peer` puts the peer in. -/
  | addPeer
  /-- Somebody else calls `peer_exit`. -/
  | peerExit
  /-- The channel or the servant is gone. -/
  | close
  deriving DecidableEq

/-- A task that is in the pool. -/
def Task.pooled (t : Task) : Bool := !t.inline && t.phase != .joined

/-- A task the listener is waiting for. -/
def Task.awaited (t : Task) : Bool := t.inline && t.phase != .joined

/-- `take_async_semaphore`. -/
def State.takeAsyncSemaphore (C : Config) (s : State) (permit : Bool) : Bool :=
  decide (s.tasks.countP Task.pooled < C.asyncTaskLimit) && permit

/-- Replace the `k`-th task. -/
def State.setTask (s : State) (k : ℕ) (t : Task) : State := { s with tasks := s.tasks.set k t }

/-- One move of the `k`-th handler. -/
def State.runTask (C : Config) (s : State) (k : ℕ) (ok : Bool) (t : Task) : Option State :=
  match t.phase with
  | .spawned =>
      some { s.setTask k { t with phase := lookup s.registry t.cmd } with
        registry := if exits t.cmd then s.registry.exit else s.registry }
  | .found =>
      some { s.setTask k { t with phase := (handle C.bitfieldLen t.cmd).2 } with
        peer := (handle C.bitfieldLen t.cmd).1.apply s.peer }
  | .bitfieldSet => some { s.setTask k { t with phase := .callback } with recvBitfield := true }
  | .callback => some (s.setTask k { t with phase := .returned ok })
  | .returned _ => none
  | .joined => none

/-- The listener sees the result of the `k`-th handler; an error ends the loop, and
`happen_exeception` takes the peer out. -/
def State.joinTask (s : State) (k : ℕ) (t : Task) : Option State :=
  match t.phase with
  | .returned ok =>
      some { s.setTask k { t with phase := .joined } with
        registry := if ok then s.registry else s.registry.exit
        stopped := !ok }
  | _ => none

/-- One step of `persist_listen` and the handlers. -/
def step (C : Config) (s : State) : Act → Option State
  | .receive cmd permit =>
      if s.stopped || s.tasks.any Task.awaited then none
      else some { s with tasks := s.tasks ++
        [⟨cmd, !s.takeAsyncSemaphore C permit, .spawned⟩] }
  | .run k ok => s.tasks[k]?.bind (s.runTask C k ok)
  | .join k =>
      s.tasks[k]?.bind fun t =>
        if s.stopped || (!t.inline && s.tasks.any Task.awaited) then none else s.joinTask k t
  | .addPeer => if s.registry = .joining then some { s with registry := .registered } else none
  | .peerExit => some { s with registry := s.registry.exit }
  | .close => some { s with stopped := true }

/-! ## In the order received -/

/-- The status a command sets. -/
def statusOf : Transfer → Option Status
  | .peerTransfer .choke _ _ => some .choke
  | .peerTransfer .unChoke _ _ => some .unChoke
  | _ => none

/-- The status set by the last `Choke` or `UnChoke`. -/
def lastStatus (cmds : List Transfer) : Status := (cmds.filterMap statusOf).getLast?.getD .choke

/-- A `Have` adds a bit, a `Bitfield` of the right length replaces the bitmap. -/
def applyBitfield (bitfieldLen : Option ℕ) (bitfield : Bytes) : Transfer → Bytes
  | .peerTransfer .have payload _ =>
      if payload.length = 4 then Bitmap.set bitfield (fromBeSlice 4 payload) else bitfield
  | .peerTransfer .bitfield payload _ =>
      if bitfieldLen = some payload.length then payload else bitfield
  | _ => bitfield

theorem applyBitfield_have (bitfieldLen : Option ℕ) (bitfield payload : Bytes) (readSize : ℕ) :
    applyBitfield bitfieldLen bitfield (.peerTransfer .have payload readSize) =
      if payload.length = 4 then Bitmap.set bitfield (fromBeSlice 4 payload) else bitfield := rfl

theorem applyBitfield_bitfield (bitfieldLen : Option ℕ) (bitfield payload : Bytes)
    (readSize : ℕ) :
    applyBitfield bitfieldLen bitfield (.peerTransfer .bitfield payload readSize) =
      if bitfieldLen = some payload.length then payload else bitfield := rfl

/-- The `Bitfield` and `Have` messages applied one after the other. -/
def appliedBitfield (bitfieldLen : Option ℕ) (cmds : List Transfer) : Bytes :=
  cmds.foldl (applyBitfield bitfieldLen) []

/-- Two accesses whose order matters. -/
def Effect.conflicts : Effect → Effect → Bool
  | .setStatus s, .setStatus s' => s != s'
  | .setOpBitfield b, .setOpBitfield b' => b != b'
  | .setOpBitfield _, .setBit _ => true
  | .setBit _, .setOpBitfield _ => true
  | _, _ => false

/-- **In turn.**  A handler with an access to make looks its peer up while it is registered, and
makes the access only when no handler of a command received earlier still has a conflicting one
to make. -/
def InTurn (C : Config) (s : State) : Act → Prop
  | .run k _ => ∀ t ∈ s.tasks[k]?,
      (t.phase = .spawned → (handle C.bitfieldLen t.cmd).1 ≠ .none → s.registry = .registered) ∧
      (t.phase = .found → ∀ t' ∈ s.tasks.take k, t'.phase.pending = true →
        (handle C.bitfieldLen t'.cmd).1.conflicts (handle C.bitfieldLen t.cmd).1 = false)
  | _ => True

instance (C : Config) (s : State) : (a : Act) → Decidable (InTurn C s a)
  | .run k _ => inferInstanceAs (Decidable (∀ t ∈ s.tasks[k]?,
      (t.phase = .spawned → (handle C.bitfieldLen t.cmd).1 ≠ .none → s.registry = .registered) ∧
      (t.phase = .found → ∀ t' ∈ s.tasks.take k, t'.phase.pending = true →
        (handle C.bitfieldLen t'.cmd).1.conflicts (handle C.bitfieldLen t.cmd).1 = false)))
  | .receive _ _ | .join _ | .addPeer | .peerExit | .close => isTrue trivial

/-- Every command that was received has been handled. -/
def State.Settled (s : State) : Prop := ∀ t ∈ s.tasks, t.phase = .joined

/-- The commands received so far. -/
def State.received (s : State) : List Transfer := s.tasks.map Task.cmd

/-- Setting two bits, in either order. -/
theorem set_set_comm (bm : Bytes) (i j : ℕ) :
    Bitmap.set (Bitmap.set bm i) j = Bitmap.set (Bitmap.set bm j) i := by
  unfold Bitmap.set
  by_cases h : (Bitmap.bitmapOffset i).1 = (Bitmap.bitmapOffset j).1
  · rw [h, List.modify_modify_eq, List.modify_modify_eq]
    congr 1
    funext b
    simp only [Function.comp_apply, UInt8.or_assoc]
    rw [UInt8.or_comm (Bitmap.bitmapOffset i).2]
  · exact List.modify_modify_ne _ _ _ h

/-- Accesses that do not conflict may be made in either order. -/
theorem commute_of_not_conflicts {a b : Effect} (h : a.conflicts b = false) :
    Reordering.Commute Effect.apply a b := by
  intro p
  cases a <;> cases b <;> simp_all [Effect.conflicts, Effect.apply, set_set_comm]

theorem Effect.conflicts_none (a : Effect) : a.conflicts .none = false := by
  cases a <;> rfl

/-- The accesses of the received commands, and whether they were made. -/
def State.accesses (C : Config) (s : State) : List (Effect × Bool) :=
  s.tasks.map fun t => ((handle C.bitfieldLen t.cmd).1, !t.phase.pending)

/-- The shared fields are what the accesses made so far amount to in the order received,
and no access overtook an earlier one it conflicts with. -/
structure InOrder (C : Config) (s : State) : Prop where
  peer : s.peer = Reordering.effects Effect.apply Shared.new (s.accesses C)
  ordered : Reordering.Ordered (fun a b => a.conflicts b = true) (s.accesses C)

section InOrder

variable {C : Config} {s s' : State}

/-- A move on either side of the access. -/
theorem InOrder.setPhase (h : InOrder C s) {k : ℕ} {t : Task} (hk : s.tasks[k]? = some t)
    {phase : Phase} (hphase : phase.pending = t.phase.pending)
    (htasks : s'.tasks = s.tasks.set k { t with phase := phase }) (hpeer : s'.peer = s.peer) :
    InOrder C s' := by
  have hget : (s.accesses C)[k]? = some ((handle C.bitfieldLen t.cmd).1, !t.phase.pending) := by
    rw [State.accesses, List.getElem?_map, hk]
    rfl
  obtain ⟨hlt, hk'⟩ := List.getElem?_eq_some_iff.mp hget
  have hsame : s'.accesses C = s.accesses C := by
    calc s'.accesses C
        = (s.accesses C).set k ((handle C.bitfieldLen t.cmd).1, !t.phase.pending) := by
          simp only [State.accesses, htasks, List.map_set, hphase]
      _ = s.accesses C := by rw [← hk', List.set_getElem_self]
  exact ⟨by rw [hsame, hpeer]; exact h.peer, by rw [hsame]; exact h.ordered⟩

/-- No handler is in front of its access when it has made it. -/
theorem handle_phase (bitfieldLen : Option ℕ) (cmd : Transfer) :
    (handle bitfieldLen cmd).2.pending = false := by
  cases cmd with
  | heartbeat => rfl
  | exit reason => rfl
  | peerTransfer msgType payload readSize =>
      cases msgType with
      | «have» =>
          rw [handle_have, handleHave]
          split <;> rfl
      | bitfield =>
          rw [handle_bitfield]
          unfold handleBitfield
          split
          · rfl
          · split <;> rfl
      | _ => rfl

/-- What is not looked up, or not found, has nothing to do. -/
theorem lookup_cases {registry : Registry} {cmd : Transfer} (bitfieldLen : Option ℕ)
    (hreg : (handle bitfieldLen cmd).1 ≠ .none → registry = .registered) :
    lookup registry cmd = .found ∨
      (lookup registry cmd).pending = false ∧ (handle bitfieldLen cmd).1 = .none := by
  cases cmd with
  | heartbeat => exact Or.inr ⟨rfl, rfl⟩
  | exit reason => exact Or.inr ⟨rfl, rfl⟩
  | peerTransfer msgType payload readSize =>
      by_cases hr : registry = .registered
      · exact Or.inl (if_pos hr)
      · right
        rw [lookup, if_neg hr]
        exact ⟨rfl, not_not.mp fun hne => hr (hreg hne)⟩

/-- A handler makes its access in its turn. -/
theorem InOrder.access (h : InOrder C s) {k : ℕ} {t : Task} (hk : s.tasks[k]? = some t)
    (hpending : t.phase.pending = true)
    (hturn : ∀ t' ∈ s.tasks.take k, t'.phase.pending = true →
      (handle C.bitfieldLen t'.cmd).1.conflicts (handle C.bitfieldLen t.cmd).1 = false)
    {phase : Phase} (hphase : phase.pending = false)
    (htasks : s'.tasks = s.tasks.set k { t with phase := phase })
    (hpeer : s'.peer = (handle C.bitfieldLen t.cmd).1.apply s.peer) : InOrder C s' := by
  have hset : s'.accesses C = (s.accesses C).set k ((handle C.bitfieldLen t.cmd).1, true) := by
    simp only [State.accesses, htasks, List.map_set, hphase, Bool.not_false]
  have hget : (s.accesses C)[k]? = some ((handle C.bitfieldLen t.cmd).1, false) := by
    simp [State.accesses, hk, hpending]
  constructor
  · rw [hset, h.ordered.effects_set (fun a c hac => commute_of_not_conflicts (by simpa using hac))
      hget, ← h.peer, hpeer]
  · rw [hset]
    apply h.ordered.set hget
    intro i c hi hc
    simp only [State.accesses, List.getElem?_map, Option.map_eq_some_iff, Prod.mk.injEq,
      Bool.not_eq_false'] at hc
    obtain ⟨t', ht', rfl, hph⟩ := hc
    have hmem : t' ∈ s.tasks.take k :=
      List.mem_of_getElem? (by rw [List.getElem?_take_of_lt hi]; exact ht')
    rw [hturn t' hmem hph]
    exact Bool.false_ne_true

/-- **One step.** -/
theorem InOrder.step (h : InOrder C s) {a : Act} (hturn : InTurn C s a)
    (hstep : PeerMessages.step C s a = some s') : InOrder C s' := by
  cases a with
  | receive cmd permit =>
      simp only [PeerMessages.step, Option.ite_none_left_eq_some, Option.some.injEq] at hstep
      obtain ⟨-, rfl⟩ := hstep
      have happ : State.accesses C { s with tasks := s.tasks ++
          [⟨cmd, !s.takeAsyncSemaphore C permit, .spawned⟩] } =
          s.accesses C ++ [((handle C.bitfieldLen cmd).1, false)] := by
        simp [State.accesses, Phase.pending]
      constructor
      · rw [happ, Reordering.effects_append_singleton]
        exact h.peer
      · rw [happ]
        exact h.ordered.append_singleton _
  | run k ok =>
      simp only [PeerMessages.step, Option.bind_eq_some_iff] at hstep
      obtain ⟨t, hk, hrun⟩ := hstep
      unfold State.runTask at hrun
      split at hrun
      · next hphase =>
          cases hrun
          rcases lookup_cases C.bitfieldLen ((hturn t hk).1 hphase) with hfound | ⟨hdone, hnone⟩
          · exact h.setPhase hk (by rw [hfound, hphase]; rfl) rfl rfl
          · -- it has no access to make
            refine h.access hk (by rw [hphase]; rfl) (fun t' _ _ => ?_) hdone rfl ?_
            · rw [hnone]
              exact Effect.conflicts_none _
            · rw [hnone]
              rfl
      · next hphase =>
          cases hrun
          exact h.access hk (by rw [hphase]; rfl) ((hturn t hk).2 hphase) (handle_phase _ _) rfl rfl
      · next hphase =>
          cases hrun
          exact h.setPhase hk (by rw [hphase]; rfl) rfl rfl
      · next hphase =>
          cases hrun
          exact h.setPhase hk (by rw [hphase]; rfl) rfl rfl
      · cases hrun
      · cases hrun
  | join k =>
      simp only [PeerMessages.step, Option.bind_eq_some_iff, Option.ite_none_left_eq_some] at hstep
      obtain ⟨t, hk, -, hjoin⟩ := hstep
      unfold State.joinTask at hjoin
      split at hjoin
      · next hphase =>
          cases hjoin
          exact h.setPhase hk (by rw [hphase]; rfl) rfl rfl
      · cases hjoin
  | addPeer =>
      obtain ⟨-, rfl⟩ := of_ite_eq_some hstep
      exact ⟨h.peer, h.ordered⟩
  | peerExit =>
      cases hstep
      exact ⟨h.peer, h.ordered⟩
  | close =>
      cases hstep
      exact ⟨h.peer, h.ordered⟩

/-- **Every run.** -/
theorem InOrder.of_run {as : List Act}
    (hrun : Run (PeerMessages.step C) (InTurn C) .new as s) : InOrder C s := by
  refine hrun.invariant ⟨rfl, fun i j a c _ hi => ?_⟩ fun s a s' h hturn hstep => h.step hturn hstep
  cases hi

end InOrder

/-! ## What the accesses amount to -/

/-- What the handler of a command does to the status. -/
theorem apply_status (bitfieldLen : Option ℕ) (cmd : Transfer) (p : Shared) :
    ((handle bitfieldLen cmd).1.apply p).status = (statusOf cmd).getD p.status := by
  cases cmd with
  | heartbeat => rfl
  | exit reason => rfl
  | peerTransfer msgType payload readSize =>
      cases msgType with
      | «have» =>
          rw [handle_have, handleHave]
          split <;> rfl
      | bitfield =>
          rw [handle_bitfield]
          unfold handleBitfield
          split
          · rfl
          · split <;> rfl
      | _ => rfl

/-- What the handler of a command does to the bitmap. -/
theorem apply_opBitfield (bitfieldLen : Option ℕ) (cmd : Transfer) (p : Shared) :
    ((handle bitfieldLen cmd).1.apply p).opBitfield =
      applyBitfield bitfieldLen p.opBitfield cmd := by
  cases cmd with
  | heartbeat => rfl
  | exit reason => rfl
  | peerTransfer msgType payload readSize =>
      cases msgType with
      | «have» =>
          rw [handle_have, handleHave, applyBitfield_have]
          by_cases h : payload.length = 4
          · rw [if_neg (not_not.mpr h), if_pos h]
            rfl
          · rw [if_pos h, if_neg h]
            rfl
      | bitfield =>
          rw [handle_bitfield, applyBitfield_bitfield]
          cases bitfieldLen with
          | none => rfl
          | some bitLen =>
              by_cases h : payload.length = bitLen
              · simp [handleBitfield, h, Effect.apply]
              · simp [handleBitfield, h, Ne.symm h, Effect.apply]
      | _ => rfl

/-- The status after commands handled in order. -/
theorem foldl_status (bitfieldLen : Option ℕ) (cmds : List Transfer) (p : Shared) :
    ((cmds.map fun cmd => (handle bitfieldLen cmd).1).foldl Effect.apply p).status =
      (cmds.filterMap statusOf).getLast?.getD p.status := by
  induction cmds generalizing p with
  | nil => rfl
  | cons cmd cmds ih =>
      rw [List.map_cons, List.foldl_cons, ih, apply_status, List.filterMap_cons]
      cases statusOf cmd with
      | none => rfl
      | some status => rw [List.getLast?_cons, Option.getD_some, Option.getD_some]

/-- The bitmap after commands handled in order. -/
theorem foldl_opBitfield (bitfieldLen : Option ℕ) (cmds : List Transfer) (p : Shared) :
    ((cmds.map fun cmd => (handle bitfieldLen cmd).1).foldl Effect.apply p).opBitfield =
      cmds.foldl (applyBitfield bitfieldLen) p.opBitfield := by
  induction cmds generalizing p with
  | nil => rfl
  | cons cmd cmds ih => rw [List.map_cons, List.foldl_cons, ih, apply_opBitfield, List.foldl_cons]

/-- **In-order effect.**  Take any run of the listener and its handlers, with the peer put in and
taken out at any time, in which no message is lost and every access is made in turn: whatever
the limits and permits, once every command that was received is handled, the status is that of
the last `Choke` or `UnChoke`, and the bitmap is the result of the `Bitfield` and `Have` messages
in the order received. -/
theorem inOrder_of_inTurn (C : Config) {as : List Act} {s : State}
    (hrun : Run (step C) (InTurn C) .new as s) (hsettled : s.Settled) :
    s.peer.status = lastStatus s.received ∧
      s.peer.opBitfield = appliedBitfield C.bitfieldLen s.received := by
  have hin := InOrder.of_run hrun
  have hall : ∀ op ∈ s.accesses C, op.2 = true := by
    intro op hop
    obtain ⟨t, ht, rfl⟩ := List.mem_map.mp hop
    rw [hsettled t ht]
    rfl
  have hpeer : s.peer =
      (s.received.map fun cmd => (handle C.bitfieldLen cmd).1).foldl Effect.apply Shared.new := by
    rw [hin.peer, Reordering.effects_of_all hall]
    simp only [State.accesses, State.received, List.map_map]
    rfl
  rw [hpeer]
  exact ⟨foldl_status _ _ _, foldl_opBitfield _ _ _⟩

/-- `Choke` and `UnChoke` without their lengths. -/
def chokeCmd : Transfer := .peerTransfer .choke [] 5

@[inherit_doc chokeCmd] def unChokeCmd : Transfer := .peerTransfer .unChoke [] 5

/-- A peer with room for two handlers, of a torrent with up to eight pieces. -/
def twoHandlers : Config := ⟨2, some 1⟩

/-- An `UnChoke` and a `Choke` handled by two tasks, in turn. -/
def inTurnRun : List Act :=
  [.receive unChokeCmd true, .addPeer, .receive chokeCmd true, .run 0 true, .run 1 true,
    .run 0 true, .run 1 true, .run 0 true, .join 1, .join 0]

theorem inOrder_twoHandlers :
    ∃ s, Run (step twoHandlers) (InTurn twoHandlers) .new inTurnRun s ∧
      s.peer.status = lastStatus [unChokeCmd, chokeCmd] := by
  have hexec : (execIf (step twoHandlers) (InTurn twoHandlers) .new inTurnRun).map
      (fun s => s.tasks) =
        some [⟨unChokeCmd, false, .joined⟩, ⟨chokeCmd, false, .joined⟩] := by
    decide +kernel
  obtain ⟨s, hrun, htasks⟩ := Run.exists_of_execIf hexec
  have hsettled : s.Settled := by
    intro t ht
    rw [htasks] at ht
    simp only [List.mem_cons, List.not_mem_nil, or_false] at ht
    rcases ht with rfl | rfl <;> rfl
  have hreceived : s.received = [unChokeCmd, chokeCmd] := by
    rw [State.received, htasks]
    rfl
  refine ⟨s, hrun, ?_⟩
  rw [(inOrder_of_inTurn twoHandlers hrun hsettled).1, hreceived]

/-- The `Choke` overtakes the `UnChoke`: both are handled, and the peer is left unchoked. -/
theorem overtaken :
    ∃ s, FreeRun (step twoHandlers) .new
        [.addPeer, .receive unChokeCmd true, .receive chokeCmd true, .run 0 true, .run 1 true,
          .run 1 true, .run 0 true, .run 0 true, .join 1, .join 0] s ∧
      s.Settled ∧ s.stopped = false ∧ s.received = [unChokeCmd, chokeCmd] ∧
      s.peer.status ≠ lastStatus s.received := by
  have hexec : exec (step twoHandlers) .new
      [.addPeer, .receive unChokeCmd true, .receive chokeCmd true, .run 0 true, .run 1 true,
        .run 1 true, .run 0 true, .run 0 true, .join 1, .join 0] =
          some ⟨⟨.unChoke, []⟩, false, .registered,
            [⟨unChokeCmd, false, .joined⟩, ⟨chokeCmd, false, .joined⟩], false⟩ := by
    decide +kernel
  refine ⟨_, .of_exec hexec, ?_, rfl, rfl, by decide⟩
  intro t ht
  simp only [List.mem_cons, List.not_mem_nil, or_false] at ht
  rcases ht with rfl | rfl <;> rfl

/-- An `UnChoke` that is handled before `add_peer` is done is lost. -/
example : (exec (step twoHandlers) .new
    [.receive unChokeCmd true, .run 0 true, .addPeer, .join 0]).map (fun s => s.peer.status) =
      some .choke := by decide +kernel

/-! ## Announced pieces -/

/-- A registered peer whose commands are handled one after the other: the shared fields, and
`recv_bitfield`. -/
structure Handled where
  peer : Shared
  recvBitfield : Bool

/-- Handle one command to its end. -/
def Handled.handle (bitfieldLen : Option ℕ) (h : Handled) (cmd : Transfer) : Handled where
  peer := (PeerMessages.handle bitfieldLen cmd).1.apply h.peer
  recvBitfield := h.recvBitfield || (PeerMessages.handle bitfieldLen cmd).2 == .bitfieldSet

/-- Handle commands in order, from a new peer on. -/
def handleInOrder (bitfieldLen : Option ℕ) (cmds : List Transfer) : Handled :=
  cmds.foldl (Handled.handle bitfieldLen) ⟨.new, false⟩

/-- `Peer::is_can_be_download`. -/
def Handled.isCanBeDownload (h : Handled) : Bool :=
  h.peer.status == .unChoke && h.recvBitfield

/-- `Torrent::bitfield_len`. -/
def bitfieldLen (pieceNum : ℕ) : ℕ := (pieceNum + 7) >>> 3

/-- A command as a peer of a torrent with `pieceNum` pieces sends it: a `Have` of four
bytes with the index of a piece, a `Bitfield` of the right length, or anything else. -/
def WellFormed (pieceNum : ℕ) : Transfer → Prop
  | .peerTransfer .have payload _ => payload.length = 4 ∧ fromBeSlice 4 payload < pieceNum
  | .peerTransfer .bitfield payload _ => payload.length = bitfieldLen pieceNum
  | _ => True

/-- The command announces the piece `i`. -/
def Announces (pieceNum : ℕ) (i : ℕ) : Transfer → Prop
  | .peerTransfer .have payload _ => fromBeSlice 4 payload = i
  | .peerTransfer .bitfield payload _ => i < pieceNum ∧ Bitmap.get payload i = true
  | _ => False

/-- Whether a command is a `Bitfield`. -/
def isBitfield : Transfer → Bool
  | .peerTransfer .bitfield _ _ => true
  | _ => false

/-- **Announced pieces are remembered.**  After the commands, `op_bitfield` has the bit of
every announced piece, and an unchoked peer that announced a piece can be downloaded
from. -/
def Remembered (pieceNum : ℕ) (cmds : List Transfer) : Prop :=
  (∀ i, (∃ cmd ∈ cmds, Announces pieceNum i cmd) →
    Bitmap.get (handleInOrder (some (bitfieldLen pieceNum)) cmds).peer.opBitfield i = true) ∧
  ((handleInOrder (some (bitfieldLen pieceNum)) cmds).peer.status = .unChoke →
    (∃ i, ∃ cmd ∈ cmds, Announces pieceNum i cmd) →
      (handleInOrder (some (bitfieldLen pieceNum)) cmds).isCanBeDownload = true)

/-- The piece `i` is announced by the last `Bitfield` or after it. -/
def AnnouncedLast (pieceNum : ℕ) (cmds : List Transfer) (i : ℕ) : Prop :=
  ∃ before bitfield after, cmds = before ++ bitfield :: after ∧ isBitfield bitfield = true ∧
    (∀ cmd ∈ after, isBitfield cmd = false) ∧
    ∃ cmd ∈ bitfield :: after, Announces pieceNum i cmd

section Announced

variable {pieceNum : ℕ} {cmds : List Transfer} {cmd : Transfer} {i : ℕ}

theorem handleInOrder_append (len : Option ℕ) (cmds : List Transfer) (cmd : Transfer) :
    handleInOrder len (cmds ++ [cmd]) = (handleInOrder len cmds).handle len cmd := by
  rw [handleInOrder, List.foldl_append]
  rfl

/-- If there is a `Bitfield`, there is a last one. -/
theorem exists_last_bitfield (h : ∃ c ∈ cmds, isBitfield c = true) :
    ∃ before bitfield after, cmds = before ++ bitfield :: after ∧ isBitfield bitfield = true ∧
      ∀ c ∈ after, isBitfield c = false := by
  induction cmds using List.reverseRecOn with
  | nil =>
      obtain ⟨c, hc, -⟩ := h
      cases hc
  | append_singleton cmds cmd ih =>
      cases hcmd : isBitfield cmd with
      | true => exact ⟨cmds, cmd, [], rfl, hcmd, fun c hc => by cases hc⟩
      | false =>
          have hcmds : ∃ c ∈ cmds, isBitfield c = true := by
            obtain ⟨c, hc, hbit⟩ := h
            rcases List.mem_append.mp hc with hc | hc
            · exact ⟨c, hc, hbit⟩
            · rw [List.mem_singleton.mp hc, hcmd] at hbit
              cases hbit
          obtain ⟨before, bitfield, after, rfl, hbit, hafter⟩ := ih hcmds
          refine ⟨before, bitfield, after ++ [cmd], by simp, hbit, fun c hc => ?_⟩
          rcases List.mem_append.mp hc with hc | hc
          · exact hafter c hc
          · rw [List.mem_singleton.mp hc]
            exact hcmd

/-- A `Bitfield` replaces what was announced before. -/
theorem announcedLast_append_of_bitfield (hcmd : isBitfield cmd = true) :
    AnnouncedLast pieceNum (cmds ++ [cmd]) i ↔ Announces pieceNum i cmd := by
  constructor
  · rintro ⟨before, bitfield, after, heq, hbit, hafter, c, hc, hann⟩
    rcases List.eq_nil_or_concat after with rfl | ⟨after', x, rfl⟩
    · obtain ⟨-, hlast⟩ := List.append_inj' heq rfl
      rw [← hlast] at hc
      rwa [List.mem_singleton.mp hc] at hann
    · rw [List.concat_eq_append, ← List.cons_append, ← List.append_assoc] at heq
      obtain ⟨-, hlast⟩ := List.append_inj' heq rfl
      have hx := hafter x (by simp)
      rw [← List.singleton_inj.mp hlast, hcmd] at hx
      cases hx
  · intro hann
    exact ⟨cmds, cmd, [], rfl, hcmd, by simp, cmd, List.mem_cons_self, hann⟩

/-- Any other command adds to what was announced last, if there is a `Bitfield` at all. -/
theorem announcedLast_append_of_not_bitfield (hcmd : isBitfield cmd = false) :
    AnnouncedLast pieceNum (cmds ++ [cmd]) i ↔
      AnnouncedLast pieceNum cmds i ∨
        ((∃ c ∈ cmds, isBitfield c = true) ∧ Announces pieceNum i cmd) := by
  constructor
  · rintro ⟨before, bitfield, after, heq, hbit, hafter, c, hc, hann⟩
    rcases List.eq_nil_or_concat after with rfl | ⟨after', x, rfl⟩
    · obtain ⟨-, hlast⟩ := List.append_inj' heq rfl
      rw [← List.singleton_inj.mp hlast, hcmd] at hbit
      cases hbit
    · rw [List.concat_eq_append, ← List.cons_append, ← List.append_assoc] at heq
      obtain ⟨rfl, hlast⟩ := List.append_inj' heq rfl
      obtain rfl := List.singleton_inj.mp hlast
      rw [List.concat_eq_append, ← List.cons_append] at hc
      rcases List.mem_append.mp hc with hc | hc
      · exact Or.inl ⟨before, bitfield, after', rfl, hbit,
          fun c' hc' => hafter c' (by simp [hc']), c, hc, hann⟩
      · rw [List.mem_singleton.mp hc] at hann
        exact Or.inr ⟨⟨bitfield, by simp, hbit⟩, hann⟩
  · have hextend : ∀ after : List Transfer, (∀ c ∈ after, isBitfield c = false) →
        ∀ c ∈ after ++ [cmd], isBitfield c = false := by
      intro after hafter c hc
      rcases List.mem_append.mp hc with hc | hc
      · exact hafter c hc
      · rw [List.mem_singleton.mp hc]
        exact hcmd
    rintro (⟨before, bitfield, after, rfl, hbit, hafter, c, hc, hann⟩ | ⟨hsome, hann⟩)
    · exact ⟨before, bitfield, after ++ [cmd], by simp, hbit, hextend after hafter, c,
        List.mem_append_left [cmd] hc, hann⟩
    · obtain ⟨before, bitfield, after, rfl, hbit, hafter⟩ := exists_last_bitfield hsome
      exact ⟨before, bitfield, after ++ [cmd], by simp, hbit, hextend after hafter, cmd,
        by simp, hann⟩

/-- The bits of all pieces lie in the bitmap. -/
theorem le_bitfieldLen (pieceNum : ℕ) : pieceNum ≤ 8 * bitfieldLen pieceNum := by
  rw [bitfieldLen, Nat.shiftRight_eq_div_pow]
  omega

/-- Of the well-formed commands, the `Bitfield`s set `recv_bitfield`. -/
theorem handle_bitfieldSet (hcmd : WellFormed pieceNum cmd) :
    ((handle (some (bitfieldLen pieceNum)) cmd).2 == .bitfieldSet) = isBitfield cmd := by
  cases cmd with
  | heartbeat => rfl
  | exit reason => rfl
  | peerTransfer msgType payload readSize =>
      cases msgType with
      | «have» =>
          rw [handle_have, handleHave]
          split <;> rfl
      | bitfield =>
          have hlen : payload.length = bitfieldLen pieceNum := hcmd
          simp [handle_bitfield, handleBitfield, hlen, isBitfield]
      | _ => rfl

/-- What a well-formed command does to the bit of a piece, if the bitmap has the length of
the torrent's or is still empty. -/
theorem get_applyBitfield (hcmd : WellFormed pieceNum cmd) {bm : Bytes} (hi : i < pieceNum)
    (hbm : bm.length = bitfieldLen pieceNum ∨ bm = []) :
    Bitmap.get (applyBitfield (some (bitfieldLen pieceNum)) bm cmd) i = true ↔
      if isBitfield cmd then Announces pieceNum i cmd
      else Bitmap.get bm i = true ∨ (bm ≠ [] ∧ Announces pieceNum i cmd) := by
  cases cmd with
  | heartbeat => simp [applyBitfield, isBitfield, Announces]
  | exit reason => simp [applyBitfield, isBitfield, Announces]
  | peerTransfer msgType payload readSize =>
      by_cases hhave : msgType = .have
      · subst hhave
        obtain ⟨hlen, hlt⟩ := hcmd
        simp only [applyBitfield_have, if_pos hlen, isBitfield, Bool.false_eq_true, if_false,
          Announces]
        rcases hbm with hbm | rfl
        · have hle := le_bitfieldLen pieceNum
          have hne : bm ≠ [] := by
            rintro rfl
            rw [List.length_nil] at hbm
            omega
          rw [Bitmap.get_set, Bool.or_eq_true, Bool.and_eq_true, decide_eq_true_eq,
            decide_eq_true_eq]
          constructor
          · rintro (h | ⟨h, -⟩)
            · exact Or.inl h
            · exact Or.inr ⟨hne, h⟩
          · rintro (h | ⟨-, h⟩)
            · exact Or.inl h
            · exact Or.inr ⟨h, by omega⟩
        · simp [Bitmap.set]
      by_cases hbitfield : msgType = .bitfield
      · subst hbitfield
        have hlen : payload.length = bitfieldLen pieceNum := hcmd
        simp [applyBitfield_bitfield, hlen, isBitfield, Announces, hi]
      · have hsame : applyBitfield (some (bitfieldLen pieceNum)) bm
            (.peerTransfer msgType payload readSize) = bm := by
          cases msgType <;> first | rfl | contradiction
        have hbit : isBitfield (.peerTransfer msgType payload readSize) = false := by
          cases msgType <;> first | rfl | contradiction
        have hann : ¬ Announces pieceNum i (.peerTransfer msgType payload readSize) := by
          cases msgType <;> first | exact id | contradiction
        simp [hsame, hbit, hann]

/-- The state of a peer after well-formed commands handled in order. -/
structure Remembers (pieceNum : ℕ) (cmds : List Transfer) (h : Handled) : Prop where
  recv : h.recvBitfield = true ↔ ∃ c ∈ cmds, isBitfield c = true
  bitmap : if h.recvBitfield then h.peer.opBitfield.length = bitfieldLen pieceNum
    else h.peer.opBitfield = []
  get : ∀ i < pieceNum,
    (Bitmap.get h.peer.opBitfield i = true ↔ AnnouncedLast pieceNum cmds i)

/-- The length of the bitmap after one more command. -/
theorem length_applyBitfield (hcmd : WellFormed pieceNum cmd) (bm : Bytes) :
    (applyBitfield (some (bitfieldLen pieceNum)) bm cmd).length =
      if isBitfield cmd then bitfieldLen pieceNum else bm.length := by
  cases cmd with
  | heartbeat => rfl
  | exit reason => rfl
  | peerTransfer msgType payload readSize =>
      cases msgType with
      | «have» =>
          have hlen : payload.length = 4 := hcmd.1
          simp [applyBitfield_have, hlen, isBitfield]
      | bitfield =>
          have hlen : payload.length = bitfieldLen pieceNum := hcmd
          simp [applyBitfield_bitfield, hlen, isBitfield]
      | _ => rfl

/-- **One command.** -/
theorem Remembers.handle {h : Handled} (hr : Remembers pieceNum cmds h)
    (hcmd : WellFormed pieceNum cmd) :
    Remembers pieceNum (cmds ++ [cmd]) (h.handle (some (bitfieldLen pieceNum)) cmd) := by
  have hrecv : (h.handle (some (bitfieldLen pieceNum)) cmd).recvBitfield =
      (h.recvBitfield || isBitfield cmd) := by
    rw [Handled.handle, handle_bitfieldSet hcmd]
  have hbm : (h.handle (some (bitfieldLen pieceNum)) cmd).peer.opBitfield =
      applyBitfield (some (bitfieldLen pieceNum)) h.peer.opBitfield cmd := apply_opBitfield _ _ _
  have hbitmap := hr.bitmap
  refine ⟨?_, ?_, fun i hi => ?_⟩
  · rw [hrecv, Bool.or_eq_true, hr.recv]
    constructor
    · rintro (⟨c, hc, hbit⟩ | hbit)
      · exact ⟨c, List.mem_append_left _ hc, hbit⟩
      · exact ⟨cmd, by simp, hbit⟩
    · rintro ⟨c, hc, hbit⟩
      rcases List.mem_append.mp hc with hc | hc
      · exact Or.inl ⟨c, hc, hbit⟩
      · rw [List.mem_singleton.mp hc] at hbit
        exact Or.inr hbit
  · rw [hrecv, hbm, ← List.length_eq_zero_iff, length_applyBitfield hcmd]
    cases hbit : isBitfield cmd with
    | true => simp
    | false =>
        rw [Bool.or_false, ← List.length_eq_zero_iff] at *
        simpa using hbitmap
  · -- the bitmap is there exactly when a `Bitfield` was received
    have hshape : h.peer.opBitfield.length = bitfieldLen pieceNum ∨ h.peer.opBitfield = [] := by
      split at hbitmap
      · exact Or.inl hbitmap
      · exact Or.inr hbitmap
    have hsome : h.peer.opBitfield ≠ [] ↔ ∃ c ∈ cmds, isBitfield c = true := by
      rw [← hr.recv]
      have hle := le_bitfieldLen pieceNum
      split at hbitmap
      · next hyes =>
          simp only [hyes, iff_true]
          intro hnil
          rw [hnil, List.length_nil] at hbitmap
          omega
      · next hno => simp [hbitmap, hno]
    rw [hbm, get_applyBitfield hcmd hi hshape]
    cases hbit : isBitfield cmd with
    | true => rw [if_pos rfl, announcedLast_append_of_bitfield hbit]
    | false =>
        rw [if_neg Bool.false_ne_true, announcedLast_append_of_not_bitfield hbit, hr.get i hi,
          hsome]

/-- **Every sequence of commands.** -/
theorem remembers_handleInOrder (h : ∀ cmd ∈ cmds, WellFormed pieceNum cmd) :
    Remembers pieceNum cmds (handleInOrder (some (bitfieldLen pieceNum)) cmds) := by
  induction cmds using List.reverseRecOn with
  | nil =>
      refine ⟨by simp [handleInOrder], rfl, fun i _ => ?_⟩
      constructor
      · intro hget
        cases hget
      · rintro ⟨before, bitfield, after, heq, -⟩
        simp at heq
  | append_singleton cmds cmd ih =>
      rw [handleInOrder_append]
      exact (ih fun c hc => h c (List.mem_append_left _ hc)).handle (h cmd (by simp))

/-- What is announced is a piece of the torrent. -/
theorem Announces.lt (hann : Announces pieceNum i cmd) (hcmd : WellFormed pieceNum cmd) :
    i < pieceNum := by
  unfold Announces at hann
  split at hann
  · rw [← hann]
    exact hcmd.2
  · exact hann.1
  · exact absurd hann id

end Announced

/-- **Which announcements are remembered.**  For every sequence of well-formed commands
of one peer, handled in order: every announced piece is remembered, and an unchoked
peer that announced a piece can be downloaded from, if and only if every piece that was
announced is announced by the last `Bitfield` or after it. -/
theorem remembered_iff {pieceNum : ℕ} {cmds : List Transfer}
    (hcmds : ∀ cmd ∈ cmds, WellFormed pieceNum cmd) :
    Remembered pieceNum cmds ↔
      ∀ i, (∃ cmd ∈ cmds, Announces pieceNum i cmd) → AnnouncedLast pieceNum cmds i := by
  have hr := remembers_handleInOrder hcmds
  constructor
  · rintro ⟨hbits, -⟩ i ⟨cmd, hcmd, hann⟩
    exact (hr.get i (hann.lt (hcmds cmd hcmd))).mp (hbits i ⟨cmd, hcmd, hann⟩)
  · intro hlast
    refine ⟨fun i hi => ?_, fun hstatus hsome => ?_⟩
    · obtain ⟨cmd, hcmd, hann⟩ := hi
      exact (hr.get i (hann.lt (hcmds cmd hcmd))).mpr (hlast i ⟨cmd, hcmd, hann⟩)
    · obtain ⟨i, hi⟩ := hsome
      obtain ⟨before, bitfield, after, rfl, hbit, -⟩ := hlast i hi
      have hrecv := hr.recv.mpr ⟨bitfield, by simp, hbit⟩
      rw [Handled.isCanBeDownload, hstatus, hrecv]
      rfl

/-- A `Bitfield` with piece 0, then a `Have` for piece 1. -/
theorem remembered_bitfieldFirst :
    Remembered 2 [.peerTransfer .bitfield [128] 6, .peerTransfer .have [0, 0, 0, 1] 9] := by
  refine (remembered_iff ?_).mpr ?_
  · intro cmd hcmd
    simp only [List.mem_cons, List.not_mem_nil, or_false] at hcmd
    rcases hcmd with rfl | rfl
    · rfl
    · exact ⟨rfl, by decide⟩
  · intro i hi
    exact ⟨[], _, _, rfl, rfl, by simp [isBitfield], hi⟩

/-- A `Have` before any `Bitfield` is forgotten, and after an `UnChoke` the peer still
cannot be downloaded from. -/
theorem forgotten_have :
    ¬ Remembered 2 [.peerTransfer .have [0, 0, 0, 1] 9, .peerTransfer .unChoke [] 5] ∧
      (handleInOrder (some 1) [.peerTransfer .have [0, 0, 0, 1] 9,
        .peerTransfer .unChoke [] 5]).isCanBeDownload = false := by
  refine ⟨fun h => ?_, by decide⟩
  have hget := h.1 1 ⟨_, List.mem_cons_self, show fromBeSlice 4 [0, 0, 0, 1] = 1 by decide⟩
  exact absurd hget (by decide)

end PeerMessages
