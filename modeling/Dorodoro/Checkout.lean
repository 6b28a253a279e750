/-
# One owner and one check for each reception

`piece_recv_finish` and `remove_finish_piece` are two steps, and the handlers of one peer
interleave.  The history counts the completed receptions of each piece (a block that turns
`finish` on) and the calls of `checkout_piece_hash`.

As long as a task moves only what is there (`AssignOk`) and a finished reception is left to
its own check (`CheckoutOk`), no piece is in `response_pieces` of two peers, and the two
counters go in step: they differ by the finished receptions, at most one for each piece, and
each of those has a handler on its way to the check (`checked_once`).  The code does not look
again before it removes the reception: two handlers of one finished reception both check it
(`checked_twice`).
-/
import Dorodoro.Ownership

open LexicalPath Bitmap

namespace Swarm

/-! ## Receptions and checks -/

/-- The block a task marks turns `finish` on. -/
def completes (s : State) (t : Task) : Option ℕ :=
  match t.pc with
  | .mark m _ =>
      if (s.response t.peer m.pieceIdx).any
          (fun P => !P.finish && (P.addFinish m.blockOffset).finish) then some m.pieceIdx
      else none
  | _ => none

/-- The piece whose check a task calls. -/
def checksOut (t : Task) : Option ℕ :=
  match t.pc with
  | .remove i => some i
  | _ => none

/-- For each piece, its completed receptions and the calls of `checkout_piece_hash`. -/
structure Checks where
  receptions : ℕ → ℕ
  checkouts : ℕ → ℕ

/-- Nothing has been received or checked. -/
def Checks.none : Checks := ⟨fun _ => 0, fun _ => 0⟩

/-- The history; a new process starts with no reception. -/
def checks : Recorder Checks where
  onRun s t _ _ h :=
    ⟨fun i => h.receptions i + if completes s t = some i then 1 else 0,
      fun i => h.checkouts i + if checksOut t = some i then 1 else 0⟩
  onRestart _ _ := .none

/-- The peers that are looked after and have received all of piece `i`. -/
def State.finished (s : State) (i : ℕ) : Finset ℕ := s.peersWith Piece.finish i

/-- The piece a handler is about to test for completion. -/
def Pc.awaiting : Pc → List ℕ
  | count m => [m.pieceIdx]
  | check i | remove i => [i]
  | _ => []

/-! ## The condition -/

/-- The step of a task leaves finished receptions to their check. -/
def CheckoutOk (s : State) (t : Task) (c : Choice) : Prop :=
  match t.pc, c with
  | .mark m _, _ => completes s t = some m.pieceIdx → 0 < s.attendance t.peer m.pieceIdx
  | .remove i, _ => t.peer ∈ s.finished i
  | .relist _ ((i, offset) :: _), _ =>
      s.keepsOrigin t.peer i offset = true ∨ t.peer ∉ s.finished i
  | .failed m, _ =>
      s.keepsOrigin t.peer m.pieceIdx m.blockOffset = true ∨ t.peer ∉ s.finished m.pieceIdx
  | .retain _ v _ _ _, .entry i => s.peerHas t.peer i = true → v ∉ s.finished i
  | .exiting _, .entry i => t.peer ∉ s.finished i
  | _, _ => True

instance (s : State) (t : Task) (c : Choice) : Decidable (CheckoutOk s t c) := by
  obtain ⟨p, pc⟩ := t
  rcases pc with ⟨⟩
  case relist k pieces =>
    rcases pieces with _ | ⟨⟨i, offset⟩, pieces⟩ <;> dsimp only [CheckoutOk] <;> infer_instance
  case retain k v todo peers freePiece =>
    rcases c with ⟨⟩ <;> dsimp only [CheckoutOk] <;> infer_instance
  case exiting r =>
    rcases c with ⟨⟩ <;> dsimp only [CheckoutOk] <;> infer_instance
  all_goals
    dsimp only [CheckoutOk]
    infer_instance

/-- The condition on an action. -/
def CheckoutGuard (x : State × Checks) (a : Act) : Prop :=
  AssignGuard x.1 a ∧
    match a with
    | .run k c => ∀ t ∈ x.1.tasks[k]?, CheckoutOk x.1 t c
    | .abort k => ∀ t ∈ x.1.tasks[k]?, ∀ i ∈ t.pc.awaiting, t.peer ∉ x.1.finished i
    | _ => True

instance (x : State × Checks) (a : Act) : Decidable (CheckoutGuard x a) := by
  rcases a with ⟨⟩ <;> dsimp only [CheckoutGuard] <;> infer_instance

/-! ## The finished receptions -/

section Finished

variable {C : Config} {s s' : State} {k : ℕ} {t : Task} {e : Effect} {ts : List Task} {c : Choice}
  {i p : ℕ}

theorem mem_finished : p ∈ s.finished i ↔
    p < s.nextId ∧ 0 < s.attendance p i ∧ (s.response p i).any Piece.finish = true :=
  mem_peersWith

theorem finished_subset (s : State) (i : ℕ) : s.finished i ⊆ s.listers i := by
  intro p hp
  rw [mem_finished] at hp
  rw [mem_listers]
  refine ⟨hp.1, hp.2.1, ?_⟩
  cases hP : s.response p i with
  | none => simp [hP] at hp
  | some P => rfl

/-- A step that leaves `finish` alone where it counts. -/
theorem finished_frame (ha : Attends C s s') (hr : s.ResponsesInRange C)
    (h : ∀ q, (s'.response q i).any Piece.finish = (s.response q i).any Piece.finish) :
    s'.finished i = s.finished i := by
  ext q
  exact ha.mem_iff hr (h q)

/-- `reset_request_piece_origin` starts no finished reception again. -/
theorem finished_resetOrigin {offset : ℕ} (hr : s.ResponsesInRange C)
    (ha : Attends C s (s.afterRun C k (.resetOrigin p i offset) ts))
    (h : s.keepsOrigin p i offset = true ∨ p ∉ s.finished i) (j : ℕ) :
    (s.afterRun C k (.resetOrigin p i offset) ts).finished j = s.finished j := by
  by_cases hk : s.keepsOrigin p i offset = true
  · apply finished_frame ha hr
    intro q
    rw [State.afterRun_response, Effect.exec_response]
    simp [hk]
  · ext q
    by_cases hqj : q = p ∧ j = i
    · obtain ⟨rfl, rfl⟩ := hqj
      have hnot : q ∉ s.finished j := h.resolve_left hk
      have hnew : q ∉ (s.afterRun C k (.resetOrigin q j offset) ts).finished j := by
        rw [mem_finished, State.afterRun_response, Effect.exec_response]
        simp [hk, Piece.new]
      exact iff_of_false hnew hnot
    · apply ha.mem_iff hr
      rw [State.afterRun_response, Effect.exec_response]
      simp [hqj]

/-- The receptions after a block is marked. -/
theorem finish_updateResponse (C : Config) (s : State) (p i offset q j : ℕ) :
    ((((Effect.updateResponse p i offset).exec C s).response q j).any Piece.finish) =
      ((s.response q j).any Piece.finish || (decide (q = p ∧ j = i) &&
        (s.response p i).any (fun P => !P.finish && (P.addFinish offset).finish))) := by
  rw [Effect.exec_response]
  by_cases hqj : q = p ∧ j = i
  · obtain ⟨rfl, rfl⟩ := hqj
    simp only [and_self, if_true, decide_true, Bool.true_and]
    cases s.response q j with
    | none => rfl
    | some P =>
        cases hfin : P.finish with
        | true => simp [Piece.addFinish, hfin]
        | false => simp [hfin]
  · simp [hqj]

/-- The finished receptions of a piece after a step of a task. -/
def finishedAfter (s : State) (t : Task) (i : ℕ) : Finset ℕ :=
  if completes s t = some i then insert t.peer (s.finished i)
  else if checksOut t = some i then (s.finished i).erase t.peer
  else s.finished i

theorem finishedAfter_same (hcomp : completes s t = none) (hout : checksOut t = none) (i : ℕ) :
    finishedAfter s t i = s.finished i := by
  simp [finishedAfter, hcomp, hout]

/-- A block is marked. -/
theorem finished_mark (hO : Owned C s) {m : Msg} {start : ℕ}
    (ha : Attends C s (s.afterRun C k (.updateResponse p m.pieceIdx m.blockOffset) ts))
    (hck : completes s ⟨p, .mark m start⟩ = some m.pieceIdx → 0 < s.attendance p m.pieceIdx)
    (hi : m.pieceIdx < C.pieceNum) (j : ℕ) :
    (s.afterRun C k (.updateResponse p m.pieceIdx m.blockOffset) ts).finished j =
      finishedAfter s ⟨p, .mark m start⟩ j := by
  have hfin := finish_updateResponse C s p m.pieceIdx m.blockOffset
  cases hcomp : (s.response p m.pieceIdx).any
      (fun P => !P.finish && (P.addFinish m.blockOffset).finish) with
  | false =>
      rw [finishedAfter_same (by simp [completes, hcomp]) rfl]
      apply finished_frame ha hO.responses
      intro q
      rw [State.afterRun_response, hfin, hcomp, Bool.and_false, Bool.or_false]
  | true =>
      have hsome : completes s ⟨p, .mark m start⟩ = some m.pieceIdx := by simp [completes, hcomp]
      have hatt := hck hsome
      rw [finishedAfter, hsome]
      by_cases hj : j = m.pieceIdx
      · subst hj
        rw [if_pos rfl]
        ext q
        rw [Finset.mem_insert]
        by_cases hq : q = p
        · subst hq
          rw [mem_finished, State.afterRun_response, hfin, hcomp, ha.nextId, ha.eq q _ hi]
          simp [hatt, hO.known q _ hatt]
        · rw [show q ∈ State.finished _ m.pieceIdx ↔ q ∈ s.finished m.pieceIdx by
            apply ha.mem_iff hO.responses
            rw [State.afterRun_response, hfin]
            simp [hq]]
          simp [hq]
      · rw [if_neg (by simpa using Ne.symm hj), if_neg (by simp [checksOut])]
        apply finished_frame ha hO.responses
        intro q
        rw [State.afterRun_response, hfin]
        simp [hj]

/-- A finished reception is removed for its check. -/
theorem finished_remove (hO : Owned C s)
    (ha : Attends C s (s.afterRun C k (.removeResponse p i) ts)) (j : ℕ) :
    (s.afterRun C k (.removeResponse p i) ts).finished j = finishedAfter s ⟨p, .remove i⟩ j := by
  rw [finishedAfter, if_neg (by simp [completes])]
  by_cases hj : j = i
  · subst hj
    rw [if_pos (show checksOut ⟨p, .remove j⟩ = some j from rfl)]
    ext q
    rw [Finset.mem_erase]
    by_cases hq : q = p
    · subst hq
      rw [mem_finished, State.afterRun_response, Effect.exec_response]
      simp
    · rw [show q ∈ State.finished _ j ↔ q ∈ s.finished j by
        apply ha.mem_iff hO.responses
        rw [State.afterRun_response, Effect.exec_response]
        simp [hq]]
      simp [hq]
  · rw [if_neg (by simpa [checksOut] using Ne.symm hj)]
    apply finished_frame ha hO.responses
    intro q
    rw [State.afterRun_response, Effect.exec_response]
    simp [hj]

/-- A reception that is not finished is taken away. -/
theorem finished_take {v : ℕ} (hr : s.ResponsesInRange C)
    (ha : Attends C s (s.afterRun C k (.take v i) ts)) (h : v ∉ s.finished i) (j : ℕ) :
    (s.afterRun C k (.take v i) ts).finished j = s.finished j := by
  ext q
  by_cases hqj : q = v ∧ j = i
  · obtain ⟨rfl, rfl⟩ := hqj
    refine iff_of_false ?_ h
    rw [mem_finished, State.afterRun_response, Effect.exec_response]
    simp
  · apply ha.mem_iff hr
    rw [State.afterRun_response, Effect.exec_response]
    simp [hqj]

/-- A peer that is handed a piece has no finished reception of it. -/
theorem notMem_finished_of_charge (hO : Owned C s) (ht : s.tasks[k]? = some t)
    (hi : i ∈ t.pc.charge) : p ∉ s.finished i := by
  intro hp
  have hmem := finished_subset s i hp
  rw [(hO.of_charge ht hi).1] at hmem
  cases hmem

/-- The loop of `peer_exit` meets the piece it gives back. -/
theorem entry_of_exitPause {todo : List ℕ}
    (h : taskStep C s p (.exiting todo) c = some (.pause i, ts)) : c = .entry i := by
  cases c with
  | entry j =>
      unfold taskStep at h
      dsimp only at h
      split at h
      · split at h
        · cases h
          rfl
        · cases h
      · cases h
  | go => cases todo <;> cases h
  | _ => cases h

/-- `peer_exit` passes a piece that its peer has not received in full. -/
theorem finished_exiting {todo : List ℕ} (hO : Owned C s)
    (ht : s.tasks[k]? = some ⟨p, .exiting todo⟩) (hi : i ∈ todo)
    (hreg : (e.exec C s).registered = s.registered)
    (hresp : ∀ q j, (e.exec C s).response q j = s.response q j) (h : p ∉ s.finished i) (j : ℕ) :
    (s.afterRun C k e [⟨p, .exiting (todo.filter (· != i))⟩]).finished j = s.finished j := by
  rw [State.finished, peersWith_exiting hO ht hi hreg hresp]
  split
  · next hj =>
      subst hj
      exact Finset.erase_eq_of_notMem h
  · rfl

/-- **The finished receptions after a step**: one comes when a block completes it, one goes
when its check is called. -/
theorem finished_run (hO : Owned C s) (ht : s.tasks[k]? = some t)
    (hc : taskStep C s t.peer t.pc c = some (e, ts)) (hck : CheckoutOk s t c) (i : ℕ) :
    (s.afterRun C k e ts).finished i = finishedAfter s t i := by
  have hnext := next_of_taskStep hc
  have ha : t.pc.todo = [] → Attends C s (s.afterRun C k e ts) := .of_next ht hnext
  have hin := hO.tasks t (List.mem_of_getElem? ht)
  obtain ⟨p, pc⟩ := t
  cases hnext with
  | mark => exact finished_mark hO (ha rfl) hck (hin _ (List.mem_singleton.mpr rfl)) i
  | markPanic _ => exact finished_mark hO (ha rfl) hck (hin _ (List.mem_singleton.mpr rfl)) i
  | remove => exact finished_remove hO (ha rfl) i
  | applied =>
      rw [finishedAfter_same rfl rfl]
      apply finished_resetOrigin hO.responses (ha rfl)
      exact Or.inr (notMem_finished_of_charge hO ht List.mem_cons_self)
  | give =>
      rw [finishedAfter_same rfl rfl]
      apply finished_resetOrigin hO.responses (ha rfl)
      exact Or.inr (notMem_finished_of_charge hO ht List.mem_cons_self)
  | relist =>
      rw [finishedAfter_same rfl rfl]
      exact finished_resetOrigin hO.responses (ha rfl) hck i
  | failed =>
      rw [finishedAfter_same rfl rfl]
      exact finished_resetOrigin hO.responses (ha rfl) hck i
  | retainTake _ _ _ =>
      rw [finishedAfter_same rfl rfl]
      rcases retain_cases hc with ⟨i, rfl, hsome, hpeer, ⟨he, -⟩ | ⟨he, -⟩⟩ | ⟨he, -⟩
      · cases he
        exact finished_take hO.responses (ha rfl) (hck hpeer) _
      · cases he
      · cases he
  | exitPause hi _ =>
      rw [finishedAfter_same rfl rfl]
      rw [entry_of_exitPause hc] at hck
      exact finished_exiting hO ht hi (by simp) (by simp) hck _
  | exitSkip hi hnone =>
      rw [finishedAfter_same rfl rfl]
      refine finished_exiting hO ht hi rfl (fun _ _ => rfl) ?_ i
      rw [mem_finished, show s.response p _ = none from hnone]
      simp
  | _ =>
      rw [finishedAfter_same rfl rfl]
      apply finished_frame (ha rfl) hO.responses
      intro q
      rw [State.afterRun_response, Effect.exec_response]

/-- A handler on its way to the test for completion goes on to it, while the reception is
finished. -/
theorem awaiting_next (hnext : Next C s t.peer t.pc e ts) (hi : i ∈ t.pc.awaiting)
    (hfin : ((e.exec C s).response t.peer i).any Piece.finish = true) :
    ∃ t' ∈ ts, t'.peer = t.peer ∧ i ∈ t'.pc.awaiting := by
  obtain ⟨p, pc⟩ := t
  cases hnext with
  | count => exact ⟨_, List.mem_singleton.mpr rfl, rfl, hi⟩
  | checkFinish _ => exact ⟨_, List.mem_singleton.mpr rfl, rfl, hi⟩
  | checkOpen hopen =>
      cases List.mem_singleton.mp hi
      rw [show (s.response p i).any Piece.finish = true from hfin] at hopen
      cases hopen
  | remove =>
      cases List.mem_singleton.mp hi
      rw [Effect.exec_response] at hfin
      simp at hfin
  | _ => cases hi

/-- The handler that completes a reception goes on to the test. -/
theorem awaiting_of_completes (hnext : Next C s t.peer t.pc e ts)
    (hcomp : completes s t = some i) : ∃ t' ∈ ts, t'.peer = t.peer ∧ i ∈ t'.pc.awaiting := by
  obtain ⟨p, pc⟩ := t
  cases hnext with
  | mark =>
      simp only [completes] at hcomp
      split at hcomp
      · cases hcomp
        exact ⟨_, List.mem_singleton.mpr rfl, rfl, List.mem_singleton.mpr rfl⟩
      · cases hcomp
  | @markPanic m start hout =>
      simp only [completes] at hcomp
      split at hcomp
      · next hdone =>
          -- a call that panics does not turn `finish` on
          cases hP : s.response p m.pieceIdx with
          | none => simp [hP] at hdone
          | some P =>
              have hout : P.outOfRange = true := by simpa [hP] using hout
              simp only [hP, Option.any_some, Bool.and_eq_true, Bool.not_eq_true'] at hdone
              simp [Piece.addFinish, hdone.1, hout] at hdone
      · cases hcomp
  | _ => cases hcomp

end Finished

/-! ## Runs -/

/-- The invariant: completed receptions have been checked or are finished, and every finished
one has a handler on its way to the check. -/
structure CheckInv (C : Config) (x : State × Checks) : Prop where
  owned : OwnedInv C x.1
  counted : ∀ i, x.2.receptions i = x.2.checkouts i + (x.1.finished i).card
  pending : ∀ p i, p ∈ x.1.finished i → ∃ t ∈ x.1.tasks, t.peer = p ∧ i ∈ t.pc.awaiting

section Runs

variable {C : Config} {s s' : State} {h h' : Checks} {a : Act} {k : ℕ} {t : Task} {e : Effect}
  {ts : List Task} {c : Choice}

/-- The counters go in step. -/
theorem counted_run (hck : CheckoutOk s t c) (i : ℕ)
    (heq : h.receptions i = h.checkouts i + (s.finished i).card) :
    (checks.onRun s t e ts h).receptions i =
      (checks.onRun s t e ts h).checkouts i + (finishedAfter s t i).card := by
  obtain ⟨p, pc⟩ := t
  simp only [checks, finishedAfter]
  split
  · next hcomp =>
      -- the reception was not finished before
      have hnew : p ∉ s.finished i := by
        cases pc with
        | mark m start =>
            simp only [completes] at hcomp
            split at hcomp
            · next hdone =>
                cases hcomp
                rw [mem_finished]
                rintro ⟨-, -, hfin⟩
                cases hP : s.response p m.pieceIdx <;> simp_all
            · cases hcomp
        | _ => cases hcomp
      have hout : checksOut ⟨p, pc⟩ ≠ some i := by
        cases pc <;> first | cases hcomp | simp [checksOut]
      rw [Finset.card_insert_of_notMem hnew, if_neg hout]
      omega
  · split
    · next hout =>
        have hold : p ∈ s.finished i := by
          cases pc with
          | remove j =>
              cases hout
              exact hck
          | _ => cases hout
        have hpos : 0 < (s.finished i).card := Finset.card_pos.mpr ⟨p, hold⟩
        rw [Finset.card_erase_of_mem hold]
        omega
    · omega

/-- Every finished reception keeps a handler on its way to the check. -/
theorem pending_run (hO : Owned C s) (ht : s.tasks[k]? = some t)
    (hc : taskStep C s t.peer t.pc c = some (e, ts)) (hck : CheckoutOk s t c)
    (hpend : ∀ p i, p ∈ s.finished i → ∃ t ∈ s.tasks, t.peer = p ∧ i ∈ t.pc.awaiting) (p i : ℕ)
    (hp : p ∈ (s.afterRun C k e ts).finished i) :
    ∃ t' ∈ replaceTask s.tasks k ts, t'.peer = p ∧ i ∈ t'.pc.awaiting := by
  have hnext := next_of_taskStep hc
  have hfin : ((e.exec C s).response p i).any Piece.finish = true := (mem_finished.mp hp).2.2
  have hold : p ∈ s.finished i → ∃ t' ∈ replaceTask s.tasks k ts, t'.peer = p ∧
      i ∈ t'.pc.awaiting := by
    intro hmem
    obtain ⟨t₀, ht₀, hpeer, hi⟩ := hpend p i hmem
    rcases mem_replaceTask_of_mem ts ht ht₀ with rfl | hstay
    · subst hpeer
      obtain ⟨t', ht', hpeer', hi'⟩ := awaiting_next hnext hi hfin
      exact ⟨t', mem_replaceTask_new k _ ht', hpeer', hi'⟩
    · exact ⟨t₀, hstay, hpeer, hi⟩
  rw [finished_run hO ht hc hck, finishedAfter] at hp
  split at hp
  · next hcomp =>
      rcases Finset.mem_insert.mp hp with rfl | hmem
      · obtain ⟨t', ht', hpeer', hi'⟩ := awaiting_of_completes hnext hcomp
        exact ⟨t', mem_replaceTask_new k _ ht', hpeer', hi'⟩
      · exact hold hmem
  · split at hp
    · exact hold (Finset.mem_of_mem_erase hp)
    · exact hold hp

/-- The step of a task. -/
theorem CheckInv.run (hI : CheckInv C (s, h)) (howned : OwnedInv C (s.afterRun C k e ts))
    (ht : s.tasks[k]? = some t) (hc : taskStep C s t.peer t.pc c = some (e, ts))
    (hck : CheckoutOk s t c) : CheckInv C (s.afterRun C k e ts, checks.onRun s t e ts h) := by
  refine ⟨howned, ?_, pending_run hI.owned.owned ht hc hck hI.pending⟩
  intro i
  show (checks.onRun s t e ts h).receptions i =
    (checks.onRun s t e ts h).checkouts i + ((s.afterRun C k e ts).finished i).card
  rw [finished_run hI.owned.owned ht hc hck]
  exact counted_run hck i (hI.counted i)

/-- **One action keeps the counters in step.** -/
theorem CheckInv.step {x x' : State × Checks} (hI : CheckInv C x) (hg : CheckoutGuard x a)
    (hstep : checks.step C x a = some x') : CheckInv C x' := by
  obtain ⟨s, h⟩ := x
  obtain ⟨s', h'⟩ := x'
  obtain ⟨hs, hh⟩ := Transition.observe_eq_some.mp hstep
  simp only at hs hh
  have hO : Owned C s := hI.owned.owned
  have howned : OwnedInv C s' := hI.owned.step hg.1 hs
  by_cases hext : a.external = true
  · -- nothing is received or checked, and the tasks stay
    have hq := hO.quiet hext (step_cases hs)
    have hrec : h' = h := by
      subst hh
      cases a <;> first | rfl | cases hext
    subst hrec
    refine ⟨howned, ?_, ?_⟩
    · intro i
      rw [State.finished, hq.peersWith]
      exact hI.counted i
    · intro p i hp
      rw [State.finished, hq.peersWith] at hp
      obtain ⟨t, ht, hpeer, hi⟩ := hI.pending p i hp
      obtain ⟨ts, -, htasks, -⟩ := external_step hext (step_cases hs)
      exact ⟨t, by rw [htasks]; exact List.mem_append_left _ ht, hpeer, hi⟩
  · cases step_cases hs with
    | run ht hc =>
        have hck := hg.2 _ ht
        rw [checks.record_run ht hc] at hh
        subst hh
        exact hI.run howned ht hc hck
    | abort ht _ hawait =>
        subst hh
        have hfin : ∀ i, State.finished _ i = s.finished i := fun i =>
          finished_frame (Attends.abort (C := C) ht hawait) hO.responses fun _ => rfl
        refine ⟨howned, ?_, ?_⟩
        · intro i
          rw [hfin]
          exact hI.counted i
        · intro p i hp
          rw [hfin] at hp
          obtain ⟨t₀, ht₀, hpeer, hi⟩ := hI.pending p i hp
          rcases mem_replaceTask_of_mem [] ht ht₀ with rfl | hstay
          · exact absurd (hpeer ▸ hp) (hg.2 _ ht i hi)
          · exact ⟨t₀, hstay, hpeer, hi⟩
    | restart _ =>
        subst hh
        refine ⟨howned, ?_, ?_⟩
        · intro i
          rfl
        · intro p i hp
          cases hp
    | ignored h => exact absurd h hext
    | message h => exact absurd h hext
    | _ => exact absurd rfl hext

theorem CheckInv.of_run {row : Row} (hrow : AllPaused row.underway)
    {disk : Loc → ℕ → Option UInt8} {clock : ℕ} {as : List Act} {x : State × Checks}
    (hrun : Transition.Run (checks.step C) CheckoutGuard (.load row disk clock, .none) as x) :
    CheckInv C x := by
  have h₀ : CheckInv C (.load row disk clock, .none) := by
    refine ⟨.load hrow disk clock, fun _ => rfl, ?_⟩
    intro p i hp
    cases hp
  exact hrun.invariant h₀ fun x a x' hI hg hstep => hI.step hg hstep

/-- Two peers that are looked after do not have one piece. -/
theorem Owned.exclusive (hO : Owned C s) {p q i : ℕ} (hp : p ∈ s.registered)
    (hq : q ∈ s.registered) (hpi : (s.response p i).isSome = true)
    (hqi : (s.response q i).isSome = true) : p = q := by
  have hatt : ∀ r ∈ s.registered, 0 < s.attendance r i := fun r hr =>
    Nat.add_pos_left (List.count_pos_iff.mpr hr) _
  obtain ⟨hpm, hing⟩ := hO.of_lists (hatt p hp) hpi
  have hqm := (hO.of_lists (hatt q hq) hqi).1
  have hle := hO.owners i
  rw [hing, State.owners] at hle
  exact Finset.card_le_one.mp (by omega) p hpm q hqm

/-- At most one finished reception of a piece waits for its check. -/
theorem Owned.finished_le_one (hO : Owned C s) (i : ℕ) : (s.finished i).card ≤ 1 := by
  have hsub := Finset.card_le_card (finished_subset s i)
  have hle := hO.owners i
  have hing : s.ing i ≤ 1 := by
    unfold State.ing
    split <;> omega
  unfold State.owners at hle
  omega

/-- **Exclusive assignment and single check.**  In every run whose actions move only what is
there and leave finished receptions to their check: no piece is in `response_pieces` of two
registered peers, `apply_download_piece` hands out no verified piece, and completed
receptions and calls of `checkout_piece_hash` alternate for every piece, with equal numbers
when no handler is about to test the piece. -/
theorem checked_once {row : Row} (hrow : AllPaused row.underway)
    {disk : Loc → ℕ → Option UInt8} {clock : ℕ} {as : List Act}
    (hrun : Transition.Run (checks.step C) CheckoutGuard (.load row disk clock, .none) as (s, h)) :
    (∀ p q i, p ∈ s.registered → q ∈ s.registered → (s.response p i).isSome = true →
        (s.response q i).isSome = true → p = q) ∧
      (∀ i offset, s.applyOffset i = some offset → get s.bytefield i = false) ∧
      ∀ i, h.checkouts i ≤ h.receptions i ∧ h.receptions i ≤ h.checkouts i + 1 ∧
        ((∀ t ∈ s.tasks, i ∉ t.pc.awaiting) → h.receptions i = h.checkouts i) := by
  have hI := CheckInv.of_run hrow hrun
  have hO : Owned C s := hI.owned.owned
  refine ⟨fun p q i => hO.exclusive, ?_, ?_⟩
  · intro i offset happ
    unfold State.applyOffset at happ
    split at happ
    · next hclear => exact hclear.2
    · cases happ
  · intro i
    have heq : h.receptions i = h.checkouts i + (s.finished i).card := hI.counted i
    have hone := hO.finished_le_one i
    refine ⟨by omega, by omega, ?_⟩
    intro hidle
    have hempty : s.finished i = ∅ := by
      apply Finset.eq_empty_of_forall_notMem
      intro p hp
      obtain ⟨t, ht, -, hi⟩ := hI.pending p i hp
      exact hidle t ht hi
    rw [heq, hempty, Finset.card_empty, Nat.add_zero]

end Runs

/-- The download of one piece receives it once and checks it once. -/
theorem checked_once_onePiece :
    ∃ x : State × Checks,
      Transition.Run (checks.step onePiece) CheckoutGuard
        (.load (.added onePiece) (fun _ _ => none) 0, .none) onePieceRun x ∧
      x.2.receptions 0 = 1 ∧ x.2.checkouts 0 = 1 := by
  have hexec : (Transition.execIf (checks.step onePiece) CheckoutGuard
      (.load (.added onePiece) (fun _ _ => none) 0, .none) onePieceRun).map
        (fun x => (x.1.tasks, x.2.receptions 0)) = some ([⟨0, .saveUnderway .done⟩], 1) := by
    decide +kernel
  obtain ⟨x, hrun, hview⟩ := Transition.Run.exists_of_execIf hexec
  simp only [Prod.mk.injEq] at hview
  have hpaused : AllPaused (Row.added onePiece).underway := by
    intro q hq
    cases hq
  obtain ⟨-, -, hcount⟩ := checked_once hpaused hrun
  have heq := (hcount 0).2.2 (by rw [hview.1]; simp [Pc.awaiting])
  exact ⟨x, hrun, hview.2, heq ▸ hview.2⟩

/-- A block that is sent twice: both handlers see the finished reception before one of them
removes it, and both check the piece. -/
theorem checked_twice :
    ∃ x : State × Checks,
      Transition.FreeRun (checks.step onePiece) (.added onePiece fun _ _ => none, .none)
        (duplicateRun ++ [.run 0 .go, .run 1 .go, .run 0 .go, .run 1 .go]) x ∧
      x.2.receptions 0 = 1 ∧ x.2.checkouts 0 = 2 := by
  have hexec : (Transition.exec (checks.step onePiece) (.added onePiece fun _ _ => none, .none)
      (duplicateRun ++ [.run 0 .go, .run 1 .go, .run 0 .go, .run 1 .go])).map
        (fun x => (x.2.receptions 0, x.2.checkouts 0)) = some (1, 2) := by decide +kernel
  obtain ⟨x, hrun, hview⟩ := Transition.Run.exists_of_exec hexec
  simp only [Prod.mk.injEq] at hview
  exact ⟨x, hrun, hview.1, hview.2⟩

end Swarm
