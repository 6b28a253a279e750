/-
# Which datagram a `Response` resolves with (`core/udp_server.rs`)

Ids come from a counter of 16 bits and both maps know a request by its id only.

* `Matched`: a `Response` resolves at most once and with a datagram that came in after its request
  was sent, to its own registration; and a drop takes nothing from another live `Response`;
* `Fresh` is the condition on a step: an id is registered only when nothing of it is left, and no
  datagram comes in between the registration of a request and its send;
* `matched_of_run` proves the property for all runs of such steps, `stale_result` is a run without
  it: a `Response` resolves with the result of another one, 65536 ids earlier.
-/
import Dorodoro.UdpServer

open Function Transition

namespace UdpServer

/-- The request was sent before the time `τ`. -/
def Server.SentBefore (s : Server) (r τ : ℕ) : Prop := ∃ τ₀, s.sentAt r = some τ₀ ∧ τ₀ < τ

/-- **Requests and responses match.** -/
structure Matched (s : Server) : Prop where
  once : ∀ r, (s.resolved r).length ≤ 1
  own : ∀ r, ∀ e ∈ s.resolved r, e.owner = r ∧ s.SentBefore r e.arrived
  drop : ∀ r s', step s (.drop r) = some s' ∨ step s (.dropResult r) = some s' →
    ∀ r', r' ≠ r → s.Live r' →
      (∀ reg, s.inflight (tranId r') = some reg → reg.owner = r' →
        s'.inflight (tranId r') = some reg) ∧
      (∀ e, s.resultStore (tranId r') = some e → e.owner = r' →
        s'.resultStore (tranId r') = some e)

/-- An id is registered only when no other request or `Response` with it is alive and no result
of it is stored or about to be stored, and no datagram with the id of a request comes in between
its registration and its send. -/
def Fresh (s : Server) : Action → Prop
  | .insert r => s.Alone r ∧ s.resultStore (tranId r) = none ∧
      s.receiver.holds (tranId r) = false
  | .recv _ (.id t) => ∀ r < s.count, tranId r = t → s.phase r ≠ .registered
  | _ => True

instance (s : Server) : ∀ a, Decidable (Fresh s a)
  | .insert r => inferInstanceAs (Decidable (s.Alone r ∧ s.resultStore (tranId r) = none ∧
      s.receiver.holds (tranId r) = false))
  | .recv _ (.id t) => inferInstanceAs
      (Decidable (∀ r < s.count, tranId r = t → s.phase r ≠ .registered))
  | .recv _ .error | .recv _ .unreachable | .tranId | .containsKey _ | .sendTo _ _
  | .unregister _ | .cancel _ | .poll _ _ | .pollInsert _ | .drop _ | .dropResult _ | .store
  | .wake => isTrue trivial

/-! ## The invariant -/

/-- The request was sent and its `Response` is alive. -/
def Phase.isResponse : Phase → Bool
  | response _ | polling _ | ready | dropping => true
  | _ => false

/-- The `Response` may have resolved. -/
def Phase.isOver : Phase → Bool
  | ready | dropping | closed => true
  | _ => false

/-- What is in the maps under the id of a request is its own. -/
structure Own (s : Server) (r : ℕ) : Prop where
  inflight : s.Live r → ∀ reg, s.inflight (tranId r) = some reg → reg.owner = r
  unsent : s.phase r = .registered →
    s.resultStore (tranId r) = none ∧ s.receiver.holds (tranId r) = false
  sent : (s.phase r).isResponse = true → s.SentBefore r s.clock
  stored : (s.phase r).isResponse = true → ∀ e, s.resultStore (tranId r) = some e →
    e.owner = r ∧ s.SentBefore r e.arrived
  removed : (s.phase r).isResponse = true → ∀ d reg τ,
    s.receiver = .removed (tranId r) d reg τ → reg.owner = r ∧ s.SentBefore r τ
  resolved : ∀ e ∈ s.resolved r, e.owner = r ∧ s.SentBefore r e.arrived
  once : (s.resolved r).length ≤ 1
  pending : (s.phase r).isOver = false → s.resolved r = []

/-- The invariant. -/
structure Owned (s : Server) : Prop where
  unique : Unique s
  own : ∀ r, Own s r

section Matching

variable {s s' : Server} {a : Action}

theorem Phase.live_of_isResponse {p : Phase} (h : p.isResponse = true) : p.live = true := by
  cases p with
  | drawn | checked | registered | sendFailed | closed => cases h
  | response _ | polling _ | ready | dropping => rfl

/-- A step that resolves nothing and makes no `Response`: what is in the maps under the id of the
request was there before. -/
theorem Own.of_phase {r : ℕ} {p : Phase} (h : Own s r) (hp : s'.phase r = p)
    (hin : p.live = true → ∀ reg, s'.inflight (tranId r) = some reg → reg.owner = r)
    (hunsent : p = .registered →
      s'.resultStore (tranId r) = none ∧ s'.receiver.holds (tranId r) = false)
    (hresp : p.isResponse = true → (s.phase r).isResponse = true)
    (hstore : p.isResponse = true → ∀ e, s'.resultStore (tranId r) = some e →
      s.resultStore (tranId r) = some e)
    (hrecv : p.isResponse = true → ∀ d reg τ, s'.receiver = .removed (tranId r) d reg τ →
      s.receiver = .removed (tranId r) d reg τ)
    (hsent : s'.sentAt r = s.sentAt r) (hres : s'.resolved r = s.resolved r)
    (hover : p.isOver = false → (s.phase r).isOver = false) (hclock : s.clock ≤ s'.clock) :
    Own s' r := by
  have hbefore : ∀ {τ}, s.SentBefore r τ → s'.SentBefore r τ := by
    rintro τ ⟨τ₀, h₀, hlt⟩
    exact ⟨τ₀, hsent.trans h₀, hlt⟩
  subst hp
  refine ⟨hin, hunsent, fun hp => ?_, fun hp e he => ?_, fun hp d reg τ hr => ?_, fun e he => ?_,
    ?_, fun hp => ?_⟩
  · obtain ⟨τ₀, h₀, hlt⟩ := hbefore (h.sent (hresp hp))
    exact ⟨τ₀, h₀, lt_of_lt_of_le hlt hclock⟩
  · exact (h.stored (hresp hp) e (hstore hp e he)).imp_right hbefore
  · exact (h.removed (hresp hp) d reg τ (hrecv hp d reg τ hr)).imp_right hbefore
  · rw [hres] at he
    exact (h.resolved e he).imp_right hbefore
  · rw [hres]
    exact h.once
  · rw [hres]
    exact h.pending (hover hp)

/-- Time passes, and nothing changes for the request. -/
theorem Own.of_kept {r : ℕ} (h : Own s r) (hk : Kept r s s') (hclock : s.clock ≤ s'.clock) :
    Own s' r := by
  refine h.of_phase hk.phase (fun hl reg hreg => ?_) (fun hp => ?_) id (fun hp e he => ?_)
    (fun hp d reg τ hr => ?_) hk.sentAt hk.resolved id hclock
  · exact h.inflight hl reg ((hk.same hl).inflight ▸ hreg)
  · have hs := hk.same (congrArg Phase.live hp)
    exact ⟨hs.resultStore.trans (h.unsent hp).1, hs.holds (h.unsent hp).2⟩
  · exact (hk.same (Phase.live_of_isResponse hp)).resultStore ▸ he
  · rcases (hk.same (Phase.live_of_isResponse hp)).receiver with heq | ⟨-, hne⟩
    · exact heq ▸ hr
    · exact absurd (congrArg Receiver.id hr) hne

/-- A step of the request. -/
theorem Owned.next_request (h : Owned s) (hg : Fresh s a) (hn : Next s a s') {r : ℕ}
    (hr : a.request = some r) : Own { s' with clock := s.clock + 1 } r := by
  have hown := h.own r
  have hclock : s.clock ≤ s.clock + 1 := Nat.le_succ _
  cases hn with
  | @containsKey r₀ p hp _ hq =>
      cases hr
      rcases hq with rfl | rfl
      · exact hown.of_phase (update_self _ _ _) Bool.noConfusion Phase.noConfusion Bool.noConfusion
          (fun _ _ he => he) (fun _ _ _ _ he => he) rfl rfl Bool.noConfusion hclock
      · exact hown.of_phase (update_self _ _ _) Bool.noConfusion Phase.noConfusion Bool.noConfusion
          (fun _ _ he => he) (fun _ _ _ _ he => he) rfl rfl (fun _ => congrArg Phase.isOver hp)
          hclock
  | insert hp =>
      cases hr
      refine hown.of_phase (update_self _ _ _) (fun _ reg hreg => ?_) (fun _ => hg.2)
        Bool.noConfusion (fun _ _ he => he) (fun _ _ _ _ he => he) rfl rfl
        (fun _ => congrArg Phase.isOver hp) hclock
      simp only [update_self, Option.some.injEq] at hreg
      rw [← hreg]
  | sent hp =>
      cases hr
      -- nothing can have come in for a request that was not sent yet
      obtain ⟨hnone, hholds⟩ := hown.unsent hp
      have hres : s.resolved r = [] := hown.pending (congrArg Phase.isOver hp)
      refine ⟨fun _ reg hreg => hown.inflight (congrArg Phase.live hp) reg hreg, fun hq => ?_,
        fun _ => ⟨s.clock, update_self _ _ _, Nat.lt_succ_self _⟩, fun _ e he => ?_,
        fun _ d reg τ hr => ?_, fun e he => ?_, hown.once, fun _ => hres⟩
      · simp only [Server.setPhase, update_self] at hq
        cases hq
      · exact absurd (hnone.symm.trans he) (Option.some_ne_none e).symm
      · rw [show s.receiver = _ from hr, Receiver.holds, beq_self_eq_true] at hholds
        cases hholds
      · have he' : e ∈ s.resolved r := he
        rw [hres] at he'
        cases he'
  | notSent hp =>
      cases hr
      exact hown.of_phase (update_self _ _ _)
        (fun _ reg hreg => hown.inflight (congrArg Phase.live hp) reg hreg)
        Phase.noConfusion Bool.noConfusion (fun _ _ he => he) (fun _ _ _ _ he => he) rfl rfl
        (fun _ => congrArg Phase.isOver hp) hclock
  | unregister _ | cancel _ =>
      cases hr
      exact hown.of_phase (update_self _ _ _) Bool.noConfusion Phase.noConfusion Bool.noConfusion
        (fun _ _ he => he) (fun _ _ _ _ he => he) rfl rfl Bool.noConfusion hclock
  | dropResult _ =>
      cases hr
      exact hown.of_phase (update_self _ _ _) Bool.noConfusion Phase.noConfusion Bool.noConfusion
        Bool.noConfusion (fun _ _ _ _ he => he) rfl rfl Bool.noConfusion hclock
  | @ready _ w v e hp he =>
      cases hr
      -- the only step that resolves: what is stored is its own
      have hresp : (s.phase r).isResponse = true := congrArg Phase.isResponse hp
      have hres : s.resolved r ++ [e] = [e] := by
        rw [hown.pending (congrArg Phase.isOver hp), List.nil_append]
      obtain ⟨τ₀, h₀, hlt⟩ := hown.sent hresp
      refine ⟨fun _ => hown.inflight (congrArg Phase.live hp), fun hq => ?_,
        fun _ => ⟨τ₀, h₀, Nat.lt_succ_of_lt hlt⟩, fun _ e' he' => ?_, fun _ => hown.removed hresp,
        fun e' he' => ?_, ?_, fun hq => ?_⟩
      · simp only [Server.setPhase, update_self] at hq
        cases hq
      · simp only [update_self] at he'
        cases he'
      · simp only [update_self, hres, List.mem_singleton] at he'
        rw [he']
        exact hown.stored hresp e he
      · simp only [update_self, hres, List.length_singleton, le_refl]
      · simp only [Server.setPhase, update_self] at hq
        cases hq
  | empty hp _ =>
      cases hr
      exact hown.of_phase (update_self _ _ _)
        (fun _ reg hreg => hown.inflight (congrArg Phase.live hp) reg hreg)
        Phase.noConfusion (fun _ => congrArg Phase.isResponse hp) (fun _ _ he => he)
        (fun _ _ _ _ he => he) rfl rfl (fun _ => congrArg Phase.isOver hp) hclock
  | pollInsert hp =>
      cases hr
      refine hown.of_phase (update_self _ _ _) (fun _ reg hreg => ?_)
        Phase.noConfusion (fun _ => congrArg Phase.isResponse hp) (fun _ _ he => he)
        (fun _ _ _ _ he => he) rfl rfl (fun _ => congrArg Phase.isOver hp) hclock
      simp only [update_self, Option.some.injEq] at hreg
      rw [← hreg]
  | drop hp =>
      cases hr
      refine hown.of_phase (update_self _ _ _) (fun _ reg hreg => ?_) Phase.noConfusion
        (fun _ => ?_) (fun _ _ he => he) (fun _ _ _ _ he => he) rfl rfl Bool.noConfusion hclock
      · simp only [Server.drop, update_self] at hreg
        cases hreg
      · rcases hp with ⟨v, hp⟩ | hp
        · exact congrArg Phase.isResponse hp
        · exact congrArg Phase.isResponse hp
  | drawn | ignored | stopped _ | removed _ _ | stored _ | woken _ | noWaker _ => cases hr

/-- A step of the receiver about the id of the request. -/
theorem Owned.next_receiver (h : Owned s) (hg : Fresh s a) (hn : Next s a s') {r : ℕ}
    (hreq : a.request = none) (hc : s.concerned a = some (tranId r)) :
    Own { s' with clock := s.clock + 1 } r := by
  have hown := h.own r
  have hclock : s.clock ≤ s.clock + 1 := Nat.le_succ _
  cases hn with
  | drawn => cases hc
  | containsKey _ _ _ | insert _ | sent _ | notSent _ | unregister _ | cancel _ | ready _ _
  | empty _ _ | pollInsert _ | drop _ | dropResult _ => cases hreq
  | ignored => exact hown.of_kept ⟨rfl, rfl, rfl, fun _ => ⟨rfl, rfl, Or.inl rfl⟩⟩ hclock
  | stopped _ => cases hc
  | @removed d t reg hr hreg =>
      cases hc
      refine ⟨fun _ reg' hreg' => ?_, fun hp => ?_, fun hp => ?_, hown.stored,
        fun hp d' reg' τ hr' => ?_, hown.resolved, hown.once, hown.pending⟩
      · simp only [update_self] at hreg'
        cases hreg'
      · -- no datagram comes in between the registration and the send
        exact absurd hp (hg r (h.unique.lt_count r (by rw [hp]; exact Phase.noConfusion)) rfl)
      · obtain ⟨τ₀, h₀, hlt⟩ := hown.sent hp
        exact ⟨τ₀, h₀, Nat.lt_succ_of_lt hlt⟩
      · cases hr'
        exact ⟨hown.inflight (Phase.live_of_isResponse hp) reg hreg, hown.sent hp⟩
  | @stored t d reg τ hr =>
      rw [Server.concerned, hr] at hc
      cases hc
      refine ⟨hown.inflight, fun hp => ?_, fun hp => ?_, fun hp e he => ?_,
        fun _ _ _ _ hr' => Receiver.noConfusion hr', hown.resolved, hown.once, hown.pending⟩
      · have hholds := (hown.unsent hp).2
        rw [hr, Receiver.holds, beq_self_eq_true] at hholds
        cases hholds
      · obtain ⟨τ₀, h₀, hlt⟩ := hown.sent hp
        exact ⟨τ₀, h₀, Nat.lt_succ_of_lt hlt⟩
      · simp only [update_self, Option.some.injEq] at he
        rw [← he]
        exact hown.removed hp d reg τ hr
  | woken _ | noWaker _ =>
      exact hown.of_phase rfl hown.inflight (fun hp => ⟨(hown.unsent hp).1, rfl⟩) id
        (fun _ _ he => he) (fun _ _ _ _ hr' => Receiver.noConfusion hr') rfl rfl id hclock

/-- **One step keeps the maps in order**, if every registered id is fresh. -/
theorem Owned.step (h : Owned s) (hg : Fresh s a) (hs : step s a = some s') : Owned s' := by
  obtain ⟨s₁, hn, rfl⟩ := step_eq_some hs
  have hu : Unique s₁ := h.unique.next hn fun r hr => by subst hr; exact hg.1
  refine ⟨⟨hu.lt_count, hu.eq_of_tranId⟩, fun r => ?_⟩
  obtain hr | ⟨hreq, hc⟩ | hkept := hn.cases_request h.unique hu r
  · exact h.next_request hg hn hr
  · exact h.next_receiver hg hn hreq hc
  · have hkept' : Kept r s { s₁ with clock := s.clock + 1 } :=
      ⟨hkept.phase, hkept.sentAt, hkept.resolved, fun hl =>
        ⟨(hkept.same hl).inflight, (hkept.same hl).resultStore, (hkept.same hl).receiver⟩⟩
    exact (h.own r).of_kept hkept' (Nat.le_succ _)

/-- A drop leaves the entries of the other live requests alone. -/
theorem Unique.drop_keeps (h : Unique s) {r r' : ℕ} (ha : a = .drop r ∨ a = .dropResult r)
    (hs : step s a = some s') (hne : r' ≠ r) (hl : s.Live r') :
    s'.inflight (tranId r') = s.inflight (tranId r') ∧
      s'.resultStore (tranId r') = s.resultStore (tranId r') := by
  obtain ⟨s₁, hn, rfl⟩ := step_eq_some hs
  have hconc : s.concerned a = some (tranId r) := by
    rcases ha with rfl | rfl <;> rfl
  have hreq : a.request = some r := by
    rcases ha with rfl | rfl <;> rfl
  have hu : Unique s₁ := h.next hn fun r₀ hr₀ => by
    rcases ha with rfl | rfl <;> cases hr₀
  obtain hr | ⟨hnone, -⟩ | hkept := hn.cases_request h hu r'
  · rw [hreq, Option.some.injEq] at hr
    exact absurd hr.symm hne
  · rw [hreq] at hnone
    cases hnone
  · exact ⟨(hkept.same hl).inflight, (hkept.same hl).resultStore⟩

theorem Owned.matched (h : Owned s) : Matched s where
  once := fun r => (h.own r).once
  own := fun r => (h.own r).resolved
  drop := by
    intro r s' hs r' hne hl
    have hkeep : s'.inflight (tranId r') = s.inflight (tranId r') ∧
        s'.resultStore (tranId r') = s.resultStore (tranId r') := by
      rcases hs with hs | hs
      · exact h.unique.drop_keeps (Or.inl rfl) hs hne hl
      · exact h.unique.drop_keeps (Or.inr rfl) hs hne hl
    exact ⟨fun reg hreg _ => hkeep.1.trans hreg, fun e he _ => hkeep.2.trans he⟩

end Matching

/-! ## Runs -/

theorem owned_new : Owned Server.new where
  unique := ⟨fun _ hr => absurd rfl hr, fun _ _ hr => Bool.noConfusion hr⟩
  own := fun _ => ⟨Bool.noConfusion, Phase.noConfusion, Bool.noConfusion, Bool.noConfusion,
    Bool.noConfusion, fun _ he => absurd he List.not_mem_nil, Nat.zero_le _, fun _ => rfl⟩

/-- **Requests and responses match** in every run in which every registered id is fresh. -/
theorem matched_of_run {as : List Action} {s : Server} (h : Run step Fresh .new as s) : Matched s :=
  (h.invariant owned_new fun _ _ _ hi hg hs => hi.step hg hs).matched

/-- A request, its response, and the poll that resolves with it. -/
theorem matched_reply : ∃ s,
    Run step Fresh .new [.tranId, .containsKey 0, .insert 0, .sendTo 0 true,
      .recv reply (.id 0), .store, .wake, .poll 0 7] s ∧
    s.resolved 0 = [⟨reply, 0, 4, 5⟩] ∧ Matched s := by
  have hexec : (execIf step Fresh .new [.tranId, .containsKey 0, .insert 0, .sendTo 0 true,
      .recv reply (.id 0), .store, .wake, .poll 0 7]).map (fun s => s.resolved 0) =
        some [⟨reply, 0, 4, 5⟩] := by decide
  obtain ⟨s, hrun, hview⟩ := Run.exists_of_execIf hexec
  exact ⟨s, hrun, hview, matched_of_run hrun⟩

/-- Calls of `tran_id` change the counter only. -/
theorem exec_tranId (s : Server) (n : ℕ) :
    exec step s (List.replicate n .tranId) =
      some { s with count := s.count + n, clock := s.clock + n } := by
  induction n generalizing s with
  | zero => rfl
  | succ n ih =>
      rw [List.replicate_succ, exec_cons]
      show exec step { s with count := s.count + 1, clock := s.clock + 1 } _ = _
      rw [ih]
      simp only [Nat.add_assoc, Nat.add_comm 1 n]

/-- Request 0, and its response, which is stored. -/
def staleHead : List Action :=
  [.tranId, .containsKey 0, .insert 0, .sendTo 0 true, .recv reply (.id 0), .store, .wake]

/-- A later request with the id 0, and its first poll. -/
def staleTail : List Action :=
  [.containsKey 65536, .insert 65536, .sendTo 65536 true, .poll 65536 7]

/-- **A stale result.**  The response to request 0 is stored and not yet polled; 65536 ids later
another request has the id 0, and its first poll resolves with that response. -/
theorem stale_result : ¬ ∀ as s, FreeRun step .new as s → Matched s := by
  intro hall
  have hexec : (exec step .new (staleHead ++ (List.replicate 65536 .tranId ++ staleTail))).map
      (fun s => s.resolved 65536) = some [⟨reply, 0, 4, 5⟩] := by
    simp only [exec_append, exec_tranId]
    decide +kernel
  obtain ⟨s, hrun, hview⟩ := Run.exists_of_exec hexec
  have hmem : ⟨reply, 0, 4, 5⟩ ∈ s.resolved 65536 := by
    rw [hview]
    exact List.mem_singleton_self _
  have hown := (hall _ s hrun).own 65536 ⟨reply, 0, 4, 5⟩ hmem
  exact absurd hown.1 (by decide)

end UdpServer
