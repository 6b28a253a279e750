/-
# Wake-ups of a `Response` (`core/udp_server.rs`)

A poll looks for its result and then registers its waker; the receiver removes the registration,
stores the datagram and then wakes the waker it has removed.

* `NoLostWake`: a result for a pending `Response` has woken it;
* `Apart` is the condition on a step: the two accesses of a poll and the first two of
  `parse_recv_data` of one id are not interleaved;
* `noLostWake_of_run` proves the property for all runs of such steps, `lost_wake` is a run without
  it.
-/
import Dorodoro.UdpServer

open Function Transition

namespace UdpServer

/-- **No lost wake-up.**  When there is a result for a pending `Response`, its last waker was
woken after the result was stored, or `parse_recv_data` is at the call that wakes it. -/
def NoLostWake (s : Server) : Prop :=
  ∀ r w e, s.phase r = .response (some w) → s.resultStore (tranId r) = some e →
    s.receiver = .stored (tranId r) (some w) ∨ ∃ τ, s.wokenAt w = some τ ∧ e.stored < τ

/-- No `poll` and `parse_recv_data` of one id are interleaved, and an id is not registered while
a request or `Response` with this id is alive. -/
def Apart (s : Server) : Action → Prop
  | .insert r => s.Alone r
  | .poll r _ => s.receiver.holds (tranId r) = false
  | .recv _ (.id t) => ∀ r < s.count, tranId r = t → (s.phase r).isPolling = false
  | _ => True

instance (s : Server) : ∀ a, Decidable (Apart s a)
  | .insert r => inferInstanceAs (Decidable (s.Alone r))
  | .poll r _ => inferInstanceAs (Decidable (s.receiver.holds (tranId r) = false))
  | .recv _ (.id t) => inferInstanceAs
      (Decidable (∀ r < s.count, tranId r = t → (s.phase r).isPolling = false))
  | .recv _ .error | .recv _ .unreachable | .tranId | .containsKey _ | .sendTo _ _
  | .unregister _ | .cancel _ | .pollInsert _ | .drop _ | .dropResult _ | .store | .wake =>
      isTrue trivial

/-! ## The invariant -/

/-- How a pending `Response` with id `t` and last waker `w` comes to hear of its result. -/
inductive Hears (s : Server) (t : UInt16) (w : ℕ) : Prop
  | registered (owner : ℕ) : s.inflight t = some ⟨some w, owner⟩ → s.resultStore t = none →
      s.receiver.holds t = false → Hears s t w
  | removed (d : Datagram) (owner arrived : ℕ) : s.inflight t = none → s.resultStore t = none →
      s.receiver = .removed t d ⟨some w, owner⟩ arrived → Hears s t w
  | stored : s.inflight t = none → s.receiver = .stored t (some w) → Hears s t w
  | woken : s.inflight t = none → s.receiver.holds t = false →
      (∀ e, s.resultStore t = some e → ∃ τ, s.wokenAt w = some τ ∧ e.stored < τ) → Hears s t w

/-- The invariant: every pending `Response` hears of its result. -/
structure Awake (s : Server) : Prop where
  unique : Unique s
  stored_lt : ∀ t e, s.resultStore t = some e → e.stored < s.clock
  polling : ∀ r w, s.phase r = .polling w →
    s.resultStore (tranId r) = none ∧ s.receiver.holds (tranId r) = false
  pending : ∀ r w, s.phase r = .response (some w) → Hears s (tranId r) w

theorem Awake.noLostWake {s : Server} (h : Awake s) : NoLostWake s := by
  intro r w e hp he
  cases h.pending r w hp with
  | registered o _ hs _ => rw [hs] at he; cases he
  | removed d o τ _ hs _ => rw [hs] at he; cases he
  | stored _ hr => exact Or.inl hr
  | woken _ _ hw => exact Or.inr (hw e he)

section Wakes

variable {s s' : Server} {a : Action}

/-- A waker keeps the time it was woken at, or is woken now. -/
theorem Next.wokenAt_cases (h : Next s a s') (w : ℕ) :
    s'.wokenAt w = s.wokenAt w ∨
      (s'.wokenAt w = some s.clock ∧ s'.resultStore = s.resultStore) := by
  cases h with
  | @woken t w₀ hr =>
      by_cases hw : w = w₀
      · exact Or.inr ⟨by rw [hw]; exact update_self _ _ _, rfl⟩
      · exact Or.inl (update_of_ne hw _ _)
  | drawn | containsKey _ _ _ | insert _ | sent _ | notSent _ | unregister _ | cancel _ | ready _ _
  | empty _ _ | pollInsert _ | drop _ | dropResult _ | ignored | stopped _ | removed _ _ | stored _
  | noWaker _ => exact Or.inl rfl

/-- A result is stored at the time of the step. -/
theorem Next.stored_lt (hn : Next s a s')
    (h : ∀ t e, s.resultStore t = some e → e.stored < s.clock) (t : UInt16) (e : Stored)
    (he : s'.resultStore t = some e) : e.stored < s.clock + 1 := by
  have hremoved : ∀ t₀, update s.resultStore t₀ none t = some e → e.stored < s.clock + 1 := by
    intro t₀ h₀
    by_cases ht : t = t₀
    · rw [ht, update_self] at h₀
      cases h₀
    · rw [update_of_ne ht] at h₀
      exact Nat.lt_succ_of_lt (h t e h₀)
  cases hn with
  | ready _ _ => exact hremoved _ he
  | dropResult _ => exact hremoved _ he
  | @stored t₀ d reg τ hr =>
      by_cases ht : t = t₀
      · rw [ht] at he
        simp only [update_self, Option.some.injEq] at he
        rw [← he]
        exact Nat.lt_succ_self _
      · simp only [update_of_ne ht] at he
        exact Nat.lt_succ_of_lt (h t e he)
  | drawn | containsKey _ _ _ | insert _ | sent _ | notSent _ | unregister _ | cancel _
  | empty _ _ | pollInsert _ | drop _ | ignored | stopped _ | removed _ _ | woken _ | noWaker _ =>
      exact Nat.lt_succ_of_lt (h t e he)

/-- Steps about other ids do not matter. -/
theorem Hears.of_same {t : UInt16} {w : ℕ} (h : Hears s t w) (hn : Next s a s')
    (hsame : SameAt t s s') (hst : ∀ t e, s.resultStore t = some e → e.stored < s.clock) :
    Hears s' t w := by
  cases h with
  | registered o hi hs hh =>
      exact .registered o (hsame.inflight.trans hi) (hsame.resultStore.trans hs) (hsame.holds hh)
  | removed d o τ hi hs hr =>
      rcases hsame.receiver with hr' | ⟨hne, -⟩
      · exact .removed d o τ (hsame.inflight.trans hi) (hsame.resultStore.trans hs) (hr'.trans hr)
      · exact absurd (congrArg Receiver.id hr) hne
  | stored hi hr =>
      rcases hsame.receiver with hr' | ⟨hne, -⟩
      · exact .stored (hsame.inflight.trans hi) (hr'.trans hr)
      · exact absurd (congrArg Receiver.id hr) hne
  | woken hi hh hw =>
      refine .woken (hsame.inflight.trans hi) (hsame.holds hh) fun e he => ?_
      rw [hsame.resultStore] at he
      rcases hn.wokenAt_cases w with hw' | ⟨hw', -⟩
      · rw [hw']
        exact hw e he
      · exact ⟨s.clock, hw', hst t e he⟩

/-- The step of a request between the two accesses of its poll, or when it waits. -/
theorem Awake.next_request (h : Awake s) (hg : Apart s a) (hn : Next s a s') {r : ℕ}
    (hr : a.request = some r) :
    (∀ w, s'.phase r = .polling w →
      s'.resultStore (tranId r) = none ∧ s'.receiver.holds (tranId r) = false) ∧
    (∀ w, s'.phase r = .response (some w) → Hears s' (tranId r) w) := by
  cases hn with
  | @empty _ w v hp he =>
      cases hr
      -- the receiver is not between its two accesses: that is the condition
      refine ⟨fun w' _ => ⟨he, hg⟩, fun w' hw => ?_⟩
      simp only [Server.setPhase, update_self] at hw
      cases hw
  | @pollInsert _ w hp =>
      cases hr
      obtain ⟨hnone, hholds⟩ := h.polling r w hp
      refine ⟨fun w' hw => ?_, fun w' hw => ?_⟩
      · simp only [Server.setPhase, update_self] at hw
        cases hw
      · simp only [Server.setPhase, update_self] at hw
        cases hw
        exact .registered r (update_self _ _ _) hnone hholds
  | containsKey _ _ hq =>
      cases hr
      rcases hq with rfl | rfl <;>
      · refine ⟨fun w hw => ?_, fun w hw => ?_⟩ <;>
        · simp only [Server.setPhase, update_self] at hw
          cases hw
  | insert _ | sent _ | notSent _ | unregister _ | cancel _ | ready _ _ | drop _ | dropResult _ =>
      cases hr
      refine ⟨fun w hw => ?_, fun w hw => ?_⟩ <;>
      · simp only [Server.setPhase, Server.drop, update_self] at hw
        cases hw
  | drawn | ignored | stopped _ | removed _ _ | stored _ | woken _ | noWaker _ => cases hr

/-- A step of the receiver about the id of a request that polls or waits. -/
theorem Awake.next_receiver (h : Awake s) (hg : Apart s a) (hn : Next s a s') {r : ℕ}
    (hreq : a.request = none) (hc : s.concerned a = some (tranId r)) :
    (∀ w, s.phase r = .polling w →
      s'.resultStore (tranId r) = none ∧ s'.receiver.holds (tranId r) = false) ∧
    (∀ w, s.phase r = .response (some w) → Hears s' (tranId r) w) := by
  cases hn with
  | drawn => cases hc
  | containsKey _ _ _ | insert _ | sent _ | notSent _ | unregister _ | cancel _ | ready _ _
  | empty _ _ | pollInsert _ | drop _ | dropResult _ => cases hreq
  | ignored => exact ⟨h.polling r, h.pending r⟩
  | stopped _ => cases hc
  | @removed d t reg hr hreg =>
      cases hc
      refine ⟨fun w hp => ?_, fun w hp => ?_⟩
      · -- no datagram is taken while the request is between the accesses of its poll
        have hno := hg r (h.unique.lt_count r (by rw [hp]; exact Phase.noConfusion)) rfl
        rw [hp] at hno
        cases hno
      · cases h.pending r w hp with
        | registered o hi hnone _ =>
            rw [hi] at hreg
            cases hreg
            exact .removed d o s.clock (update_self _ _ _) hnone rfl
        | removed d' o τ _ _ hr' => rw [hr] at hr'; cases hr'
        | stored _ hr' => rw [hr] at hr'; cases hr'
        | woken hi _ _ => rw [hi] at hreg; cases hreg
  | @stored t d reg τ hr =>
      rw [Server.concerned, hr] at hc
      cases hc
      have hholds : s.receiver.holds (tranId r) = true := by rw [hr]; exact beq_self_eq_true _
      refine ⟨fun w hp => ?_, fun w hp => ?_⟩
      · have hpoll := (h.polling r w hp).2
        rw [hholds] at hpoll
        cases hpoll
      · cases h.pending r w hp with
        | registered o _ _ hh => rw [hholds] at hh; cases hh
        | removed d' o τ' hi _ hr' =>
            rw [hr] at hr'
            cases hr'
            exact .stored hi rfl
        | stored _ hr' => rw [hr] at hr'; cases hr'
        | woken _ hh _ => rw [hholds] at hh; cases hh
  | @woken t w₀ hr =>
      refine ⟨fun w hp => ⟨(h.polling r w hp).1, rfl⟩, fun w hp => ?_⟩
      rw [Server.concerned, hr] at hc
      cases hc
      cases h.pending r w hp with
      | registered o hi hnone _ => exact .registered o hi hnone rfl
      | removed d' o τ' _ _ hr' => rw [hr] at hr'; cases hr'
      | stored hi hr' =>
          -- its own waker
          rw [hr] at hr'
          cases hr'
          exact .woken hi rfl fun e he => ⟨s.clock, update_self _ _ _, h.stored_lt _ e he⟩
      | woken hi _ hw =>
          refine .woken hi rfl fun e he => ?_
          by_cases hww : w = w₀
          · exact ⟨s.clock, by rw [hww]; exact update_self _ _ _, h.stored_lt _ e he⟩
          · obtain ⟨τ, hτ, hlater⟩ := hw e he
            exact ⟨τ, (update_of_ne hww _ _).trans hτ, hlater⟩
  | @noWaker t hr =>
      refine ⟨fun w hp => ⟨(h.polling r w hp).1, rfl⟩, fun w hp => ?_⟩
      rw [Server.concerned, hr] at hc
      cases hc
      cases h.pending r w hp with
      | registered o hi hnone _ => exact .registered o hi hnone rfl
      | removed d' o τ' _ _ hr' => rw [hr] at hr'; cases hr'
      | stored _ hr' => rw [hr] at hr'; cases hr'
      | woken hi _ hw => exact .woken hi rfl hw

/-- **One step keeps every pending `Response` awake**, if polls and receipts stay apart. -/
theorem Awake.step (h : Awake s) (hg : Apart s a) (hs : step s a = some s') : Awake s' := by
  obtain ⟨s₁, hn, rfl⟩ := step_eq_some hs
  have hu : Unique s₁ := h.unique.next hn fun r hr => by subst hr; exact hg
  have hall : ∀ r, (∀ w, s₁.phase r = .polling w →
      s₁.resultStore (tranId r) = none ∧ s₁.receiver.holds (tranId r) = false) ∧
      (∀ w, s₁.phase r = .response (some w) → Hears s₁ (tranId r) w) := by
    intro r
    obtain hr | ⟨hreq, hc⟩ | hkept := hn.cases_request h.unique hu r
    · exact h.next_request hg hn hr
    · rw [(hn.request_same (by rw [hreq]; exact (Option.some_ne_none r).symm)).1]
      exact h.next_receiver hg hn hreq hc
    · rw [hkept.phase]
      refine ⟨fun w hp => ?_, fun w hp => ?_⟩
      · have hsame := hkept.same (congrArg Phase.live hp)
        obtain ⟨hnone, hholds⟩ := h.polling r w hp
        exact ⟨hsame.resultStore.trans hnone, hsame.holds hholds⟩
      · exact (h.pending r w hp).of_same hn (hkept.same (congrArg Phase.live hp)) h.stored_lt
  refine ⟨⟨hu.lt_count, hu.eq_of_tranId⟩, hn.stored_lt h.stored_lt, fun r => (hall r).1,
    fun r w hp => ?_⟩
  cases (hall r).2 w hp with
  | registered o hi hs hh => exact .registered o hi hs hh
  | removed d o τ hi hs hr => exact .removed d o τ hi hs hr
  | stored hi hr => exact .stored hi hr
  | woken hi hh hw => exact .woken hi hh hw

end Wakes

/-! ## Runs -/

theorem awake_new : Awake Server.new where
  unique := ⟨fun _ hr => absurd rfl hr, fun _ _ hr => Bool.noConfusion hr⟩
  stored_lt := fun _ e he => absurd he (Option.some_ne_none e).symm
  polling := fun _ _ hp => Phase.noConfusion hp
  pending := fun _ _ hp => Phase.noConfusion hp

/-- **No wake-up is lost** in any run in which polls and receipts of one id stay apart. -/
theorem noLostWake_of_run {as : List Action} {s : Server} (h : Run step Apart .new as s) :
    NoLostWake s :=
  (h.invariant awake_new fun _ _ _ hi hg hs => hi.step hg hs).noLostWake

/-- A poll, and then the response: the waker is woken. -/
theorem noLostWake_reply : ∃ s,
    Run step Apart .new [.tranId, .containsKey 0, .insert 0, .sendTo 0 true, .poll 0 7,
      .pollInsert 0, .recv reply (.id 0), .store, .wake] s ∧
    (s.phase 0, s.resultStore 0, s.wokenAt 7) =
      (.response (some 7), some ⟨reply, 0, 6, 7⟩, some 8) ∧ NoLostWake s := by
  have hexec : (execIf step Apart .new [.tranId, .containsKey 0, .insert 0, .sendTo 0 true,
      .poll 0 7, .pollInsert 0, .recv reply (.id 0), .store, .wake]).map
        (fun s => (s.phase 0, s.resultStore 0, s.wokenAt 7)) =
          some (.response (some 7), some ⟨reply, 0, 6, 7⟩, some 8) := by decide
  obtain ⟨s, hrun, hview⟩ := Run.exists_of_execIf hexec
  exact ⟨s, hrun, hview, noLostWake_of_run hrun⟩

/-- **A lost wake-up.**  The response is handled between the two accesses of the first poll: the
poll has seen no result, and the receiver no waker. -/
theorem lost_wake : ¬ ∀ as s, FreeRun step .new as s → NoLostWake s := by
  intro hall
  have hexec : (exec step .new [.tranId, .containsKey 0, .insert 0, .sendTo 0 true, .poll 0 7,
      .recv reply (.id 0), .store, .wake, .pollInsert 0]).map
        (fun s => (s.phase 0, s.resultStore 0, s.receiver, s.wokenAt 7)) =
          some (.response (some 7), some ⟨reply, 0, 5, 6⟩, .idle, none) := by decide
  obtain ⟨s, hrun, hview⟩ := Run.exists_of_exec hexec
  simp only [Prod.mk.injEq] at hview
  obtain ⟨hp, hs, hr, hw⟩ := hview
  rcases hall _ s hrun 0 7 _ hp hs with h | ⟨τ, h, -⟩
  · rw [hr] at h
    cases h
  · rw [hw] at h
    cases h

end UdpServer
