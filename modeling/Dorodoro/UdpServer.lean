/-
# Requests and responses over UDP (`core/udp_server.rs`)

Requests share one socket; a response belongs to the request with its transaction id.  The
requests, the polls and drops of their `Response` futures and the receiver run concurrently
over two maps.

* A request is named by its number `r`; it goes through the phases of `Phase`, and every access
  to `inflight` and `result_store` is a step of its own;
* there is one receiver: `run` handles one datagram after the other;
* the history notes whose registration a datagram removed (`owner`), and the times of sends,
  arrivals, stores and wake-ups.  The code does not read it;
* `Next` says what each step can do, and `Next.cases_request` whom it concerns, as long as the
  live requests have different ids (`Unique`).
-/
import Dorodoro.Bytes
import Dorodoro.Transition
import Mathlib.Logic.Function.Basic

open Function Transition

namespace UdpServer

/-! ## The server -/

/-- The id that the `r`-th call of `CycleId::next_tran_id` returns. -/
def tranId (r : ℕ) : UInt16 := UInt16.ofNat r

/-- The bytes of a datagram and its sender. -/
structure Datagram where
  data : Bytes
  addr : SocketAddr
  deriving DecidableEq

/-- What `DHTBase::from_bencode` and `DHTBase::t` make of a datagram: an error, the transaction
id, or the panic at a `t` that is no byte string. -/
inductive Parsed where
  | error
  | id (t : UInt16)
  | unreachable
  deriving DecidableEq

/-- An entry of `inflight`. -/
structure Registration where
  waker : Option ℕ
  owner : ℕ
  deriving DecidableEq

/-- An entry of `result_store`. -/
structure Stored where
  datagram : Datagram
  owner : ℕ
  arrived : ℕ
  stored : ℕ
  deriving DecidableEq

/-- What a request and its `Response` have done. -/
inductive Phase where
  /-- `tran_id()` was called. -/
  | drawn
  /-- `contains_key` was false. -/
  | checked
  /-- The request is in `inflight` and `send_to` is called. -/
  | registered
  /-- `send_to` failed. -/
  | sendFailed
  /-- There is a `Response`, with the waker of its last poll. -/
  | response (waker : Option ℕ)
  /-- A poll found no result and has not yet registered its waker. -/
  | polling (waker : ℕ)
  /-- A poll returned `Ready`. -/
  | ready
  /-- `drop` has removed the registration and not yet the result. -/
  | dropping
  | closed
  deriving DecidableEq

/-- Between its registration and its end. -/
def Phase.live : Phase → Bool
  | drawn | checked | closed => false
  | _ => true

/-- Between the two accesses of `poll`. -/
def Phase.isPolling : Phase → Bool
  | polling _ => true
  | _ => false

/-- What `parse_recv_data` has done. -/
inductive Receiver where
  | idle
  /-- It has removed a registration. -/
  | removed (t : UInt16) (d : Datagram) (reg : Registration) (arrived : ℕ)
  /-- It has stored the datagram. -/
  | stored (t : UInt16) (waker : Option ℕ)
  /-- It has panicked. -/
  | stopped
  deriving DecidableEq

/-- `UdpServer`, the requests and the receiver, and the history. -/
structure Server where
  /-- The number of calls of `next_tran_id`. -/
  count : ℕ
  phase : ℕ → Phase
  inflight : UInt16 → Option Registration
  resultStore : UInt16 → Option Stored
  receiver : Receiver
  clock : ℕ
  sentAt : ℕ → Option ℕ
  wokenAt : ℕ → Option ℕ
  resolved : ℕ → List Stored

/-- `UdpServer::new`. -/
def Server.new : Server :=
  ⟨0, fun _ => .drawn, fun _ => none, fun _ => none, .idle, 0, fun _ => none, fun _ => none,
    fun _ => []⟩

/-- The steps.  A `Response` is awaited: it is not polled again after `Ready`. -/
inductive Action where
  | tranId
  /-- `request`: `inflight.contains_key`. -/
  | containsKey (r : ℕ)
  /-- `request`: `inflight.insert`. -/
  | insert (r : ℕ)
  | sendTo (r : ℕ) (ok : Bool)
  /-- `request`: `inflight.remove` after a failed send. -/
  | unregister (r : ℕ)
  /-- The future of `request` is dropped in `send_to`. -/
  | cancel (r : ℕ)
  /-- `poll`: `result_store.remove`. -/
  | poll (r : ℕ) (waker : ℕ)
  /-- `poll`: `inflight.insert`. -/
  | pollInsert (r : ℕ)
  /-- `drop`: `inflight.remove`. -/
  | drop (r : ℕ)
  /-- `drop`: `result_store.remove`. -/
  | dropResult (r : ℕ)
  /-- `parse_recv_data`: parse, and `inflight.remove`. -/
  | recv (d : Datagram) (parsed : Parsed)
  /-- `parse_recv_data`: `result_store.insert`. -/
  | store
  /-- `parse_recv_data`: `wake`. -/
  | wake
  deriving DecidableEq

/-- Move a request to a phase. -/
def Server.setPhase (s : Server) (r : ℕ) (p : Phase) : Server :=
  { s with phase := update s.phase r p }

/-- `Response::poll`, first access. -/
def Server.poll (s : Server) (r w : ℕ) : Server :=
  match s.resultStore (tranId r) with
  | some e =>
      { s.setPhase r .ready with
        resultStore := update s.resultStore (tranId r) none
        resolved := update s.resolved r (s.resolved r ++ [e]) }
  | none => s.setPhase r (.polling w)

/-- `Drop::drop`, first access. -/
def Server.drop (s : Server) (r : ℕ) : Server :=
  { s.setPhase r .dropping with inflight := update s.inflight (tranId r) none }

/-- `UdpServer::parse_recv_data`, up to the first access. -/
def Server.recv (s : Server) (d : Datagram) : Parsed → Server
  | .error => s
  | .unreachable => { s with receiver := .stopped }
  | .id t =>
      match s.inflight t with
      | some reg =>
          { s with inflight := update s.inflight t none, receiver := .removed t d reg s.clock }
      | none => s

/-- One step of one of the parties. -/
def Server.act (s : Server) : Action → Option Server
  | .tranId => some { s with count := s.count + 1 }
  | .containsKey r =>
      match s.phase r with
      | .drawn =>
          if r < s.count then
            -- an id that is in flight is refused with an error
            some (s.setPhase r (if (s.inflight (tranId r)).isSome then .closed else .checked))
          else none
      | _ => none
  | .insert r =>
      match s.phase r with
      | .checked =>
          some { s.setPhase r .registered with
            inflight := update s.inflight (tranId r) (some ⟨none, r⟩) }
      | _ => none
  | .sendTo r ok =>
      match s.phase r with
      | .registered =>
          if ok then
            some { s.setPhase r (.response none) with
              sentAt := update s.sentAt r (some s.clock) }
          else some (s.setPhase r .sendFailed)
      | _ => none
  | .unregister r =>
      match s.phase r with
      | .sendFailed =>
          some { s.setPhase r .closed with inflight := update s.inflight (tranId r) none }
      | _ => none
  | .cancel r =>
      match s.phase r with
      -- nothing takes the registration out again
      | .registered => some (s.setPhase r .closed)
      | _ => none
  | .poll r w =>
      match s.phase r with
      | .response _ => some (s.poll r w)
      | _ => none
  | .pollInsert r =>
      match s.phase r with
      -- also when the entry has been removed in the meantime
      | .polling w =>
          some { s.setPhase r (.response (some w)) with
            inflight := update s.inflight (tranId r) (some ⟨some w, r⟩) }
      | _ => none
  | .drop r =>
      match s.phase r with
      | .response _ => some (s.drop r)
      | .ready => some (s.drop r)
      | _ => none
  | .dropResult r =>
      match s.phase r with
      | .dropping =>
          some { s.setPhase r .closed with resultStore := update s.resultStore (tranId r) none }
      | _ => none
  | .recv d parsed =>
      match s.receiver with
      | .idle => some (s.recv d parsed)
      | _ => none
  | .store =>
      match s.receiver with
      | .removed t d reg arrived =>
          some { s with
            resultStore := update s.resultStore t (some ⟨d, reg.owner, arrived, s.clock⟩)
            receiver := .stored t reg.waker }
      | _ => none
  | .wake =>
      match s.receiver with
      | .stored _ (some w) =>
          some { s with receiver := .idle, wokenAt := update s.wokenAt w (some s.clock) }
      | .stored _ none => some { s with receiver := .idle }
      | _ => none

/-- One step takes one unit of time. -/
def step (s : Server) (a : Action) : Option Server :=
  (s.act a).map fun s' => { s' with clock := s.clock + 1 }

/-- `d1:rde1:t2:`, the id 0, `1:y1:re`. -/
def reply : Datagram :=
  ⟨[100, 49, 58, 114, 100, 101, 49, 58, 116, 50, 58, 0, 0, 49, 58, 121, 49, 58, 114, 101],
    .v4 0 6881⟩

/-! ## What a step can do -/

/-- `Next s a s'`: what the step `a` does in `s`, up to the clock. -/
inductive Next (s : Server) : Action → Server → Prop
  | drawn : Next s .tranId { s with count := s.count + 1 }
  | containsKey {r : ℕ} {p : Phase} : s.phase r = .drawn → r < s.count →
      p = .closed ∨ p = .checked → Next s (.containsKey r) (s.setPhase r p)
  | insert {r : ℕ} : s.phase r = .checked → Next s (.insert r)
      { s.setPhase r .registered with
        inflight := update s.inflight (tranId r) (some ⟨none, r⟩) }
  | sent {r : ℕ} : s.phase r = .registered → Next s (.sendTo r true)
      { s.setPhase r (.response none) with sentAt := update s.sentAt r (some s.clock) }
  | notSent {r : ℕ} : s.phase r = .registered →
      Next s (.sendTo r false) (s.setPhase r .sendFailed)
  | unregister {r : ℕ} : s.phase r = .sendFailed → Next s (.unregister r)
      { s.setPhase r .closed with inflight := update s.inflight (tranId r) none }
  | cancel {r : ℕ} : s.phase r = .registered → Next s (.cancel r) (s.setPhase r .closed)
  | ready {r w : ℕ} {v : Option ℕ} {e : Stored} : s.phase r = .response v →
      s.resultStore (tranId r) = some e → Next s (.poll r w)
      { s.setPhase r .ready with
        resultStore := update s.resultStore (tranId r) none
        resolved := update s.resolved r (s.resolved r ++ [e]) }
  | empty {r w : ℕ} {v : Option ℕ} : s.phase r = .response v →
      s.resultStore (tranId r) = none →
      Next s (.poll r w) (s.setPhase r (.polling w))
  | pollInsert {r w : ℕ} : s.phase r = .polling w → Next s (.pollInsert r)
      { s.setPhase r (.response (some w)) with
        inflight := update s.inflight (tranId r) (some ⟨some w, r⟩) }
  | drop {r : ℕ} : (∃ v, s.phase r = .response v) ∨ s.phase r = .ready →
      Next s (.drop r) (s.drop r)
  | dropResult {r : ℕ} : s.phase r = .dropping → Next s (.dropResult r)
      { s.setPhase r .closed with resultStore := update s.resultStore (tranId r) none }
  | ignored {d : Datagram} {parsed : Parsed} : Next s (.recv d parsed) s
  | stopped {d : Datagram} : s.receiver = .idle →
      Next s (.recv d .unreachable) { s with receiver := .stopped }
  | removed {d : Datagram} {t : UInt16} {reg : Registration} : s.receiver = .idle →
      s.inflight t = some reg → Next s (.recv d (.id t))
      { s with inflight := update s.inflight t none, receiver := .removed t d reg s.clock }
  | stored {t : UInt16} {d : Datagram} {reg : Registration} {arrived : ℕ} :
      s.receiver = .removed t d reg arrived → Next s .store
      { s with
        resultStore := update s.resultStore t (some ⟨d, reg.owner, arrived, s.clock⟩)
        receiver := .stored t reg.waker }
  | woken {t : UInt16} {w : ℕ} : s.receiver = .stored t (some w) → Next s .wake
      { s with receiver := .idle, wokenAt := update s.wokenAt w (some s.clock) }
  | noWaker {t : UInt16} : s.receiver = .stored t none → Next s .wake
      { s with receiver := .idle }

theorem Server.next_poll {s : Server} {r w : ℕ} {v : Option ℕ} (h : s.phase r = .response v) :
    Next s (.poll r w) (s.poll r w) := by
  unfold Server.poll
  split
  · next e he => exact .ready h he
  · next he => exact .empty h he

theorem Server.next_recv {s : Server} (d : Datagram) (parsed : Parsed)
    (h : s.receiver = .idle) : Next s (.recv d parsed) (s.recv d parsed) := by
  cases parsed with
  | error => exact .ignored
  | unreachable => exact .stopped h
  | id t =>
      show Next s _ (match s.inflight t with
        | some reg =>
            { s with inflight := update s.inflight t none, receiver := .removed t d reg s.clock }
        | none => s)
      split
      · next reg hreg => exact .removed h hreg
      · exact .ignored

theorem Server.next_of_act {s s' : Server} {a : Action} (h : s.act a = some s') : Next s a s' := by
  cases a with
  | tranId =>
      obtain rfl := Option.some.inj h
      exact .drawn
  | containsKey r =>
      simp only [act] at h
      split at h
      · next hp =>
          split at h
          · next hr =>
              obtain rfl := Option.some.inj h
              refine .containsKey hp hr ?_
              split
              · exact Or.inl rfl
              · exact Or.inr rfl
          · cases h
      · cases h
  | insert r =>
      simp only [act] at h
      split at h
      · next hp =>
          obtain rfl := Option.some.inj h
          exact .insert hp
      · cases h
  | sendTo r ok =>
      simp only [act] at h
      split at h
      · next hp =>
          cases ok with
          | true =>
              obtain rfl := Option.some.inj h
              exact .sent hp
          | false =>
              obtain rfl := Option.some.inj h
              exact .notSent hp
      · cases h
  | unregister r =>
      simp only [act] at h
      split at h
      · next hp =>
          obtain rfl := Option.some.inj h
          exact .unregister hp
      · cases h
  | cancel r =>
      simp only [act] at h
      split at h
      · next hp =>
          obtain rfl := Option.some.inj h
          exact .cancel hp
      · cases h
  | poll r w =>
      simp only [act] at h
      split at h
      · next hp =>
          obtain rfl := Option.some.inj h
          exact s.next_poll hp
      · cases h
  | pollInsert r =>
      simp only [act] at h
      split at h
      · next hp =>
          obtain rfl := Option.some.inj h
          exact .pollInsert hp
      · cases h
  | drop r =>
      simp only [act] at h
      split at h
      · next v hp =>
          obtain rfl := Option.some.inj h
          exact .drop (Or.inl ⟨v, hp⟩)
      · next hp =>
          obtain rfl := Option.some.inj h
          exact .drop (Or.inr hp)
      · cases h
  | dropResult r =>
      simp only [act] at h
      split at h
      · next hp =>
          obtain rfl := Option.some.inj h
          exact .dropResult hp
      · cases h
  | recv d parsed =>
      simp only [act] at h
      split at h
      · next hr =>
          obtain rfl := Option.some.inj h
          exact s.next_recv d parsed hr
      · cases h
  | store =>
      simp only [act] at h
      split at h
      · next hr =>
          obtain rfl := Option.some.inj h
          exact .stored hr
      · cases h
  | wake =>
      simp only [act] at h
      split at h
      · next hr =>
          obtain rfl := Option.some.inj h
          exact .woken hr
      · next hr =>
          obtain rfl := Option.some.inj h
          exact .noWaker hr
      · cases h

/-- A step is one of these, and time passes. -/
theorem step_eq_some {s s' : Server} {a : Action} (h : step s a = some s') :
    ∃ s₁, Next s a s₁ ∧ s' = { s₁ with clock := s.clock + 1 } := by
  obtain ⟨s₁, hact, rfl⟩ := Option.map_eq_some_iff.mp h
  exact ⟨s₁, s.next_of_act hact, rfl⟩

/-! ## Whom a step concerns -/

/-- The request that takes the step. -/
def Action.request : Action → Option ℕ
  | containsKey r | insert r | sendTo r _ | unregister r | cancel r | poll r _ | pollInsert r
  | drop r | dropResult r => some r
  | _ => none

/-- The id of the datagram that `parse_recv_data` handles. -/
def Receiver.id : Receiver → Option UInt16
  | removed t _ _ _ => some t
  | stored t _ => some t
  | _ => none

/-- `parse_recv_data` has removed a registration of `t` and not yet stored the datagram. -/
def Receiver.holds (t : UInt16) : Receiver → Bool
  | removed t' _ _ _ => t' == t
  | _ => false

/-- The id that a step is about. -/
def Server.concerned (s : Server) : Action → Option UInt16
  | .insert r | .sendTo r _ | .unregister r | .cancel r | .poll r _ | .pollInsert r | .drop r
  | .dropResult r => some (tranId r)
  | .recv _ (.id t) => some t
  | .store | .wake => s.receiver.id
  | _ => none

theorem Receiver.holds_of_id {x : Receiver} {t : UInt16} (h : x.id ≠ some t) :
    x.holds t = false := by
  cases x with
  | removed t' d reg τ => exact beq_eq_false_iff_ne.mpr fun ht => h (congrArg some ht)
  | idle | stored t' w | stopped => rfl

/-- `SameAt t s s'`: the maps at `t` have not changed, nor has what the receiver does with `t`. -/
structure SameAt (t : UInt16) (s s' : Server) : Prop where
  inflight : s'.inflight t = s.inflight t
  resultStore : s'.resultStore t = s.resultStore t
  receiver : s'.receiver = s.receiver ∨ (s.receiver.id ≠ some t ∧ s'.receiver.id ≠ some t)

theorem SameAt.holds {s s' : Server} {t : UInt16} (h : SameAt t s s')
    (hh : s.receiver.holds t = false) : s'.receiver.holds t = false := by
  rcases h.receiver with hr | ⟨-, hr⟩
  · rw [hr]
    exact hh
  · exact Receiver.holds_of_id hr

/-- A step leaves the other ids alone. -/
theorem Next.sameAt {s s' : Server} {a : Action} (h : Next s a s') {t : UInt16}
    (ht : s.concerned a ≠ some t) : SameAt t s s' := by
  have hne : ∀ {t'}, some t' ≠ some t → t ≠ t' := fun hc htt => hc (congrArg some htt.symm)
  cases h with
  | drawn | containsKey _ _ _ | sent _ | notSent _ | cancel _ | empty _ _ | ignored =>
      exact ⟨rfl, rfl, Or.inl rfl⟩
  | insert _ | unregister _ | pollInsert _ | drop _ =>
      exact ⟨update_of_ne (hne ht) _ _, rfl, Or.inl rfl⟩
  | ready _ _ | dropResult _ => exact ⟨rfl, update_of_ne (hne ht) _ _, Or.inl rfl⟩
  | stopped hr =>
      refine ⟨rfl, rfl, Or.inr ⟨?_, (Option.some_ne_none _).symm⟩⟩
      rw [hr]
      exact (Option.some_ne_none _).symm
  | removed hr _ =>
      refine ⟨update_of_ne (hne ht) _ _, rfl, Or.inr ⟨?_, ht⟩⟩
      rw [hr]
      exact (Option.some_ne_none _).symm
  | stored hr =>
      rw [Server.concerned, hr] at ht
      refine ⟨rfl, update_of_ne (hne ht) _ _, Or.inr ⟨?_, ht⟩⟩
      rw [hr]
      exact ht
  | woken hr | noWaker hr =>
      rw [Server.concerned, hr] at ht
      refine ⟨rfl, rfl, Or.inr ⟨?_, (Option.some_ne_none _).symm⟩⟩
      rw [hr]
      exact ht

/-! ## One request for each id -/

/-- The request is registered and neither it nor its `Response` has ended. -/
def Server.Live (s : Server) (r : ℕ) : Prop := (s.phase r).live = true

instance (s : Server) (r : ℕ) : Decidable (s.Live r) := inferInstanceAs (Decidable (_ = true))

/-- No other request or `Response` with the id of `r` is alive. -/
def Server.Alone (s : Server) (r : ℕ) : Prop :=
  ∀ r' < s.count, s.Live r' → tranId r' = tranId r → r' = r

instance (s : Server) (r : ℕ) : Decidable (s.Alone r) :=
  inferInstanceAs (Decidable (∀ r' < s.count, s.Live r' → tranId r' = tranId r → r' = r))

/-- The live requests have different ids. -/
structure Unique (s : Server) : Prop where
  lt_count : ∀ r, s.phase r ≠ .drawn → r < s.count
  eq_of_tranId : ∀ r r', s.Live r → s.Live r' → tranId r = tranId r' → r = r'

section Steps

variable {s s' : Server} {a : Action}

/-- A step moves at most one request, and only `insert` makes one live. -/
theorem Next.phase_cases (h : Next s a s') :
    (s'.phase = s.phase ∧ s.count ≤ s'.count) ∨
    ∃ r p, s'.phase = update s.phase r p ∧ s'.count = s.count ∧
      (s.phase r ≠ .drawn ∨ r < s.count) ∧ (p.live = true → s.Live r ∨ a = .insert r) := by
  cases h with
  | drawn => exact Or.inl ⟨rfl, Nat.le_succ _⟩
  | @containsKey r p hp hr hq =>
      refine Or.inr ⟨r, p, rfl, rfl, Or.inr hr, fun hl => ?_⟩
      rcases hq with rfl | rfl <;> cases hl
  | @insert r hp => exact Or.inr ⟨r, _, rfl, rfl, Or.inl (by rw [hp]; decide), fun _ => Or.inr rfl⟩
  | @sent r hp | @notSent r hp | @unregister r hp | @cancel r hp | @ready r w v e hp he
  | @empty r w v hp he | @pollInsert r w hp | @dropResult r hp =>
      refine Or.inr ⟨r, _, rfl, rfl, Or.inl ?_, fun _ => Or.inl ?_⟩
      · rw [hp]
        exact Phase.noConfusion
      · show (s.phase r).live = true
        rw [hp]
        rfl
  | @drop r hp =>
      have hlive : s.Live r := by
        rcases hp with ⟨v, hp⟩ | hp
        · exact congrArg Phase.live hp
        · exact congrArg Phase.live hp
      refine Or.inr ⟨r, .dropping, rfl, rfl, Or.inl fun hd => ?_, fun _ => Or.inl hlive⟩
      rw [Server.Live, hd] at hlive
      cases hlive
  | ignored | stopped _ | removed _ _ | stored _ | woken _ | noWaker _ =>
      exact Or.inl ⟨rfl, le_rfl⟩

/-- The ids stay different if every registered id is new. -/
theorem Unique.next (h : Unique s) (hn : Next s a s') (hins : ∀ r, a = .insert r → s.Alone r) :
    Unique s' := by
  obtain ⟨hp, hc⟩ | ⟨r₀, p, hp, hc, hr₀, hlive⟩ := hn.phase_cases
  · refine ⟨fun r hr => ?_, fun r r' hr hr' => ?_⟩
    · rw [hp] at hr
      exact lt_of_lt_of_le (h.lt_count r hr) hc
    · rw [Server.Live, hp] at hr hr'
      exact h.eq_of_tranId r r' hr hr'
  · have hlt : r₀ < s.count := hr₀.elim (h.lt_count r₀) id
    -- what is live after the step was live before it, or is inserted
    have hback : ∀ r, s'.Live r → s.Live r ∨ (r = r₀ ∧ a = .insert r₀) := by
      intro r hr
      by_cases hrr : r = r₀
      · subst hrr
        rw [Server.Live, hp, update_self] at hr
        exact (hlive hr).imp_right fun ha => ⟨rfl, ha⟩
      · rw [Server.Live, hp, update_of_ne hrr] at hr
        exact Or.inl hr
    refine ⟨fun r hr => ?_, fun r r' hr hr' hid => ?_⟩
    · rw [hc]
      by_cases hrr : r = r₀
      · exact hrr ▸ hlt
      · rw [hp, update_of_ne hrr] at hr
        exact h.lt_count r hr
    · have hlt' : ∀ r, s.Live r → r < s.count := by
        intro r hr
        refine h.lt_count r fun hd => ?_
        rw [Server.Live, hd] at hr
        cases hr
      rcases hback r hr with hr | ⟨rfl, ha⟩ <;> rcases hback r' hr' with hr' | ⟨rfl, ha'⟩
      · exact h.eq_of_tranId r r' hr hr' hid
      · exact hins r' ha' r (hlt' r hr) hr hid
      · exact (hins r ha r' (hlt' r' hr') hr' hid.symm).symm
      · rfl

/-- `Kept r s s'`: the step has changed nothing that concerns the request `r`. -/
structure Kept (r : ℕ) (s s' : Server) : Prop where
  phase : s'.phase r = s.phase r
  sentAt : s'.sentAt r = s.sentAt r
  resolved : s'.resolved r = s.resolved r
  same : s.Live r → SameAt (tranId r) s s'

theorem Next.request_same (h : Next s a s') {r : ℕ} (hr : a.request ≠ some r) :
    s'.phase r = s.phase r ∧ s'.sentAt r = s.sentAt r ∧ s'.resolved r = s.resolved r := by
  have hne : ∀ {r'}, some r' ≠ some r → r ≠ r' := fun hc hrr => hc (congrArg some hrr.symm)
  cases h with
  | containsKey _ _ _ | insert _ | notSent _ | unregister _ | cancel _ | empty _ _ | pollInsert _
  | drop _ | dropResult _ => exact ⟨update_of_ne (hne hr) _ _, rfl, rfl⟩
  | sent _ => exact ⟨update_of_ne (hne hr) _ _, update_of_ne (hne hr) _ _, rfl⟩
  | ready _ _ => exact ⟨update_of_ne (hne hr) _ _, rfl, update_of_ne (hne hr) _ _⟩
  | drawn | ignored | stopped _ | removed _ _ | stored _ | woken _ | noWaker _ =>
      exact ⟨rfl, rfl, rfl⟩

/-- A request that takes a step about its id is live before or after the step. -/
theorem Next.live_of_request (h : Next s a s') {r : ℕ} (hr : a.request = some r) :
    s.concerned a = none ∨ (s.concerned a = some (tranId r) ∧ (s.Live r ∨ s'.Live r)) := by
  cases h with
  | containsKey _ _ _ => exact Or.inl rfl
  | insert hp =>
      cases hr
      refine Or.inr ⟨rfl, Or.inr ?_⟩
      simp [Server.Live, Server.setPhase, Phase.live]
  | sent hp | notSent hp | unregister hp | cancel hp | ready hp _ | empty hp _ | pollInsert hp
  | dropResult hp =>
      cases hr
      exact Or.inr ⟨rfl, Or.inl (congrArg Phase.live hp)⟩
  | drop hp =>
      cases hr
      refine Or.inr ⟨rfl, Or.inl ?_⟩
      rcases hp with ⟨v, hp⟩ | hp
      · exact congrArg Phase.live hp
      · exact congrArg Phase.live hp
  | drawn | ignored | stopped _ | removed _ _ | stored _ | woken _ | noWaker _ => cases hr

/-- **Whom a step concerns**: the request that takes it, or those with the id of the datagram;
nothing changes for the others. -/
theorem Next.cases_request (h : Next s a s') (hu : Unique s) (hu' : Unique s') (r : ℕ) :
    a.request = some r ∨ (a.request = none ∧ s.concerned a = some (tranId r)) ∨ Kept r s s' := by
  by_cases hr : a.request = some r
  · exact Or.inl hr
  obtain ⟨hphase, hsent, hres⟩ := h.request_same hr
  cases hreq : a.request with
  | none =>
      by_cases hc : s.concerned a = some (tranId r)
      · exact Or.inr (Or.inl ⟨rfl, hc⟩)
      · exact Or.inr (Or.inr ⟨hphase, hsent, hres, fun _ => h.sameAt hc⟩)
  | some r₀ =>
      refine Or.inr (Or.inr ⟨hphase, hsent, hres, fun hlive => h.sameAt fun hc => hr ?_⟩)
      have hlive' : s'.Live r := by rwa [Server.Live, hphase]
      obtain hnone | ⟨hc', hl⟩ := h.live_of_request hreq
      · rw [hnone] at hc
        cases hc
      · rw [hc', Option.some.injEq] at hc
        rw [hreq, Option.some.injEq]
        rcases hl with hl | hl
        · exact hu.eq_of_tranId r₀ r hl hlive hc
        · exact hu'.eq_of_tranId r₀ r hl hlive' hc

end Steps

end UdpServer
