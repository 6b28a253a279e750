/-
# The flag of the DHT search (`core/task/content.rs`, `bt/dht.rs`)

When the wait queue is empty, `take_from_wait_queue` asks the DHT task for a search: it loads
`peer_find_flag`, sends a signal and then sets the flag, so that nobody else asks.  The task takes
the signal and searches, unless the queue has filled; a search that has found enough peers clears
the flag, one that has run out of nodes does not, and neither does one that was skipped.

* a caller is before the load, before the send or before the store (`State`), and the callers have
  no names;
* `Careful` says which exits and which clears are harmless, and `Inv` is the invariant of the runs
  that have no others;
* `Stuck` is a flag that is left over, which lasts until a search of the timer finds enough peers.

The magnet task has the same code.
-/
import Dorodoro.Transition

namespace SearchFlag

/-- `CHANNEL_BUFFER`. -/
def channelBuffer : ℕ := 100

/-- `DHT_WAIT_PEER_LIMIT`. -/
def dhtWaitPeerLimit : ℕ := 20

/-- Where `DHTTimedTask::run` is. -/
inductive Timer where
  /-- In `select`. -/
  | idle
  /-- `find_peers` is about to look at the wait queue. -/
  | look
  | searching
  /-- Enough peers were found and the flag was cleared; the search is about to return. -/
  | cleared
  deriving DecidableEq

/-- The shared state. -/
structure State where
  peerFindFlag : Bool
  /-- Signals in the channel. -/
  signals : ℕ
  /-- The length of the wait queue. -/
  waitQueue : ℕ
  /-- Callers that found the queue empty and are about to load the flag. -/
  loading : ℕ
  /-- Callers that are about to send. -/
  sending : ℕ
  /-- Callers that have sent and are about to set the flag. -/
  storing : ℕ
  timer : Timer
  deriving DecidableEq

/-- A new task. -/
def State.init : State := ⟨false, 0, 0, 0, 0, 0, .idle⟩

/-- What the environment does. -/
inductive Act where
  /-- A call of `take_from_wait_queue`: `pop_front`. -/
  | take
  | load
  | send
  /-- A caller is dropped while it waits for the channel. -/
  | cancel
  | store
  /-- The other code leaves the queue with `n` peers. -/
  | queue (n : ℕ)
  | tick
  | recv
  /-- The length of the queue is compared with the limit. -/
  | check
  /-- The search has no nodes left. -/
  | noNode
  /-- The search has enough peers: `find_task_finished`. -/
  | enough
  | ret
  deriving DecidableEq

/-- The transition function. -/
def step (s : State) : Act → Option State
  | .take =>
      some { s with
        waitQueue := s.waitQueue - 1
        loading := if s.waitQueue = 0 then s.loading + 1 else s.loading }
  | .load =>
      if 0 < s.loading then
        some { s with
          loading := s.loading - 1
          sending := if s.peerFindFlag then s.sending else s.sending + 1 }
      else none
  | .send =>
      if 0 < s.sending ∧ s.signals < channelBuffer then
        some { s with
          sending := s.sending - 1
          signals := s.signals + 1
          storing := s.storing + 1 }
      else none
  | .cancel => if 0 < s.sending then some { s with sending := s.sending - 1 } else none
  | .store =>
      if 0 < s.storing then some { s with storing := s.storing - 1, peerFindFlag := true } else none
  | .queue n => some { s with waitQueue := n }
  | .tick => if s.timer = .idle then some { s with timer := .look } else none
  | .recv =>
      if s.timer = .idle ∧ 0 < s.signals then
        some { s with signals := s.signals - 1, timer := .look }
      else none
  | .check =>
      if s.timer = .look then
        some { s with timer := if s.waitQueue < dhtWaitPeerLimit then .searching else .idle }
      else none
  | .noNode => if s.timer = .searching then some { s with timer := .idle } else none
  | .enough =>
      if s.timer = .searching then some { s with peerFindFlag := false, timer := .cleared }
      else none
  | .ret => if s.timer = .cleared then some { s with timer := .idle } else none

/-! ## Careful runs -/

/-- Every caller that has sent and has not set the flag yet has its signal in the channel. -/
def State.Settled (s : State) : Prop := s.storing ≤ s.signals

/-- A search may end without clearing the flag: it is clear, or the next search is on its way. -/
def State.Harmless (s : State) : Prop := s.Settled ∧ (s.peerFindFlag = false ∨ 0 < s.signals)

instance (s : State) : Decidable s.Settled := inferInstanceAs (Decidable (_ ≤ _))

instance (s : State) : Decidable s.Harmless := inferInstanceAs (Decidable (_ ∧ _))

/-- **The condition.**  A search is skipped or runs out of nodes only where that is harmless, and
no flag is cleared before it was set. -/
def Careful (s : State) (a : Act) : Prop :=
  match a with
  | .check => s.waitQueue < dhtWaitPeerLimit ∨ s.Harmless
  | .noNode => s.Harmless
  | .enough => s.Settled
  | _ => True

instance (s : State) (a : Act) : Decidable (Careful s a) := by
  unfold Careful
  split <;> infer_instance

variable {s s' : State} {a : Act}

/-- A search has begun and the flag is not cleared yet. -/
def State.Busy (s : State) : Prop := s.timer = .look ∨ s.timer = .searching

theorem State.not_busy (h : s.timer = .idle ∨ s.timer = .cleared) : ¬ s.Busy := by
  unfold State.Busy
  rcases h with h | h
  · rw [h]
    decide
  · rw [h]
    decide

/-- The invariant. -/
structure Inv (s : State) : Prop where
  /-- Who set the flag has a search on its way. -/
  flag : s.peerFindFlag = true → 0 < s.signals ∨ s.Busy
  /-- Callers that are about to set the flag have their signals in the channel, but for the one
  that was received. -/
  storing : s.storing ≤ s.signals ∨ s.Busy ∧ s.storing ≤ s.signals + 1

theorem Inv.init : Inv .init := ⟨fun h => absurd h Bool.false_ne_true, Or.inl (Nat.le_refl 0)⟩

/-- A search ends without clearing the flag. -/
theorem Inv.of_harmless (h : s.Harmless) : Inv { s with timer := .idle } := by
  obtain ⟨hsettled, hclear⟩ := h
  refine ⟨fun hset => Or.inl (hclear.resolve_left ?_), Or.inl hsettled⟩
  exact fun hfalse => Bool.false_ne_true (hfalse.symm.trans hset)

/-- **A careful step keeps the invariant.** -/
theorem Inv.step (h : Inv s) (hcareful : Careful s a) (hstep : step s a = some s') : Inv s' := by
  have hflag := h.flag
  have hstoring := h.storing
  cases a with
  | take =>
      cases hstep
      exact ⟨hflag, hstoring⟩
  | load =>
      obtain ⟨-, rfl⟩ := Transition.of_ite_eq_some hstep
      exact ⟨hflag, hstoring⟩
  | send =>
      obtain ⟨-, rfl⟩ := Transition.of_ite_eq_some hstep
      refine ⟨fun _ => Or.inl (Nat.succ_pos _), ?_⟩
      -- one more signal, one more caller
      exact hstoring.imp Nat.succ_le_succ fun hbusy => ⟨hbusy.1, Nat.succ_le_succ hbusy.2⟩
  | cancel =>
      obtain ⟨-, rfl⟩ := Transition.of_ite_eq_some hstep
      exact ⟨hflag, hstoring⟩
  | store =>
      obtain ⟨hpos, rfl⟩ := Transition.of_ite_eq_some hstep
      constructor
      · intro _
        rcases hstoring with hle | ⟨hbusy, -⟩
        · exact Or.inl (Nat.lt_of_lt_of_le hpos hle)
        · exact Or.inr hbusy
      · rcases hstoring with hle | ⟨hbusy, hle⟩
        · exact Or.inl (Nat.le_trans (Nat.sub_le _ _) hle)
        · exact Or.inr ⟨hbusy, Nat.le_trans (Nat.sub_le _ _) hle⟩
  | queue n =>
      cases hstep
      exact ⟨hflag, hstoring⟩
  | tick =>
      obtain ⟨hidle, rfl⟩ := Transition.of_ite_eq_some hstep
      refine ⟨fun _ => Or.inr (Or.inl rfl), ?_⟩
      rcases hstoring with hle | ⟨-, hle⟩
      · exact Or.inl hle
      · exact Or.inr ⟨Or.inl rfl, hle⟩
  | recv =>
      obtain ⟨⟨hidle, hpos⟩, rfl⟩ := Transition.of_ite_eq_some hstep
      refine ⟨fun _ => Or.inr (Or.inl rfl), Or.inr ⟨Or.inl rfl, ?_⟩⟩
      have hle : s.storing ≤ s.signals :=
        hstoring.resolve_right fun hbusy => State.not_busy (Or.inl hidle) hbusy.1
      show s.storing ≤ s.signals - 1 + 1
      omega
  | check =>
      obtain ⟨hlook, rfl⟩ := Transition.of_ite_eq_some hstep
      by_cases hroom : s.waitQueue < dhtWaitPeerLimit
      · rw [if_pos hroom]
        refine ⟨fun _ => Or.inr (Or.inr rfl), ?_⟩
        exact hstoring.imp_right fun hbusy => ⟨Or.inr rfl, hbusy.2⟩
      · -- the search is skipped
        rw [if_neg hroom]
        exact .of_harmless (hcareful.resolve_left hroom)
  | noNode =>
      obtain ⟨-, rfl⟩ := Transition.of_ite_eq_some hstep
      exact .of_harmless hcareful
  | enough =>
      obtain ⟨-, rfl⟩ := Transition.of_ite_eq_some hstep
      exact ⟨fun hset => absurd hset Bool.false_ne_true, Or.inl hcareful⟩
  | ret =>
      obtain ⟨hcleared, rfl⟩ := Transition.of_ite_eq_some hstep
      have hnot : ¬ s.Busy := State.not_busy (Or.inr hcleared)
      refine ⟨fun hset => Or.inl ((hflag hset).resolve_right hnot), ?_⟩
      exact Or.inl (hstoring.resolve_right fun hbusy => hnot hbusy.1)

/-! ## The flag -/

/-- An empty wait queue leads to a search. -/
def Triggers (s : State) : Prop :=
  s.waitQueue = 0 →
    ∃ s', Transition.FreeRun step s [.take, .load, .send, .recv] s' ∧ s'.timer = .look

/-- The flag is released. -/
def Released (s : State) : Prop := s.peerFindFlag = false ∧ Triggers s

/-- Where the flag is clear, nothing keeps an empty queue from a search. -/
theorem triggers_of_clear (hidle : s.timer = .idle) (hnone : s.signals = 0)
    (hclear : s.peerFindFlag = false) : Triggers s := by
  intro hempty
  let s' : State := { s with storing := s.storing + 1, timer := .look }
  refine ⟨s', .of_exec ?_, rfl⟩
  simp [Transition.exec, step, hempty, hclear, hnone, hidle, channelBuffer, s']

/-- **The flag is released.**  In every careful run, whenever no signal is in the channel and no
search is running, the flag is clear, and an empty queue leads to a search. -/
theorem flag_released {as : List Act} (hrun : Transition.Run step Careful .init as s)
    (hidle : s.timer = .idle) (hnone : s.signals = 0) : Released s := by
  have hinv : Inv s := hrun.invariant (I := Inv) Inv.init fun _ _ _ h hg hs => h.step hg hs
  have hclear : s.peerFindFlag = false := by
    rw [← Bool.not_eq_true]
    intro hset
    rcases hinv.flag hset with hpos | hbusy
    · omega
    · exact State.not_busy (Or.inl hidle) hbusy
  exact ⟨hclear, triggers_of_clear hidle hnone hclear⟩

/-- The queue is empty; the search finds enough peers. -/
def enoughRun : List Act := [.take, .load, .send, .recv, .store, .check, .enough, .ret]

/-- The flag is released. -/
theorem flag_released_enough :
    ∃ s, Transition.Run step Careful .init enoughRun s ∧ Released s := by
  have hexec : Transition.execIf step Careful .init enoughRun = some .init := by decide
  exact ⟨_, .of_execIf hexec, flag_released (.of_execIf hexec) rfl rfl⟩

/-- The queue is empty; the search has no nodes. -/
def noNodeRun : List Act := [.take, .load, .send, .store, .recv, .check, .noNode]

/-- The flag is left over. -/
theorem flag_left :
    ∃ s, Transition.FreeRun step .init noNodeRun s ∧ s.timer = .idle ∧ s.signals = 0 ∧
      s.waitQueue = 0 ∧ s.peerFindFlag = true ∧ ¬ Released s := by
  have hexec : Transition.exec step .init noNodeRun = some ⟨true, 0, 0, 0, 0, 0, .idle⟩ := by
    decide
  exact ⟨_, .of_exec hexec, rfl, rfl, rfl, rfl, fun h => absurd h.1 (by decide)⟩

/-! ## A flag that is left over -/

/-- The flag is set, and nobody has a signal to send or to receive. -/
structure Stuck (s : State) : Prop where
  flag : s.peerFindFlag = true
  signals : s.signals = 0
  sending : s.sending = 0

/-- A step that does not clear the flag leaves it so. -/
theorem Stuck.step (h : Stuck s) (hnot : a ≠ .enough) (hstep : step s a = some s') : Stuck s' := by
  obtain ⟨hflag, hsignals, hsending⟩ := h
  cases a with
  | take =>
      cases hstep
      exact ⟨hflag, hsignals, hsending⟩
  | load =>
      obtain ⟨-, rfl⟩ := Transition.of_ite_eq_some hstep
      refine ⟨hflag, hsignals, ?_⟩
      -- who loads the flag now does not send
      show (if s.peerFindFlag then s.sending else s.sending + 1) = 0
      rw [if_pos hflag]
      exact hsending
  | send =>
      obtain ⟨⟨hpos, -⟩, -⟩ := Transition.of_ite_eq_some hstep
      omega
  | cancel =>
      obtain ⟨hpos, -⟩ := Transition.of_ite_eq_some hstep
      omega
  | store =>
      obtain ⟨-, rfl⟩ := Transition.of_ite_eq_some hstep
      exact ⟨rfl, hsignals, hsending⟩
  | queue n =>
      cases hstep
      exact ⟨hflag, hsignals, hsending⟩
  | recv =>
      obtain ⟨⟨-, hpos⟩, -⟩ := Transition.of_ite_eq_some hstep
      omega
  | enough => exact absurd rfl hnot
  | tick | check | noNode | ret =>
      obtain ⟨-, rfl⟩ := Transition.of_ite_eq_some hstep
      exact ⟨hflag, hsignals, hsending⟩

/-- **It lasts.**  Until a search of the timer finds enough peers, nobody asks for a search. -/
theorem Stuck.run {as : List Act} (h : Stuck s)
    (hrun : Transition.Run SearchFlag.step (fun _ a => a ≠ .enough) s as s') : Stuck s' :=
  hrun.invariant (I := Stuck) h fun _ _ _ h hnot hstep => h.step hnot hstep

end SearchFlag
