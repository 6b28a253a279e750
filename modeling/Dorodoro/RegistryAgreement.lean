/-
# The two registries of a download

A connection is in `DefaultServant.peers` from `add_peer` on and in `Dispatch.peers` from the
moment the launcher handles the result of the start; its exit takes it out of the one and then,
by `on_peer_exit`, out of the other.  Each id obeys a conservation law: what the dispatcher has or
will have is what the servant has, the exits on their way, and the exits that found nothing.

* `missedExits` is the history of the calls of `on_peer_exit` that take nothing out;
* `Balanced` is the conservation law, and `LaunchInv.balanced_step` one action of it;
* `registries_agree`: once no start and no exit is in progress, the registries have the same keys
  exactly if no exit was missed.
-/
import Dorodoro.LaunchQuota

namespace PeerLaunch

open Transition (resume mem_resume flatMap_resume)

variable {L : Limits} {s s' s₁ : State} {a : Act} {pc : Pc} {code next rest : List Pc}
  {missed : List ℕ} {dead : List SocketAddr}

/-! ## The history -/

/-- `on_peer_exit` takes nothing out of `Dispatch.peers`: the connection is not there, or the
process is stopping. -/
def State.misses (s : State) (id : ℕ) : Bool :=
  s.cancelled || s.peers.all fun pi => pi.id != id

/-- The connection whose `on_peer_exit` the action runs. -/
def State.exiting (s : State) : Act → Option ℕ
  | .run k .go =>
      match s.tasks[k]? with
      | some ⟨_, .exit peer _ :: _⟩ => some peer.id
      | _ => none
  | .refused k => (s.connecting k).map fun st => st.info.id
  | _ => none

/-- The exits so far that took nothing out of `Dispatch.peers`. -/
def missedExits (s : State) (a : Act) (missed : List ℕ) : List ℕ :=
  ((s.exiting a).filter s.misses).toList ++ missed

/-! ## The conservation law -/

/-- The code is the exit of a connection. -/
def Pc.exitOf (i : ℕ) : Pc → Bool
  | exit peer _ => peer.id == i
  | _ => false

/-- The launcher has the connection in `Dispatch.peers`, or will put it there. -/
def State.owned (s : State) (i : ℕ) : ℕ :=
  s.peers.countP (fun pi => pi.id == i) +
    s.starting.countP fun st => st.stage == .success && st.info.id == i

/-- The servant has the connection, or its exit is on the way. -/
def State.attached (s : State) (code : List Pc) (i : ℕ) : ℕ :=
  s.servant.countP (fun peer => peer.id == i) + code.countP (Pc.exitOf i)

/-- What the dispatcher has is what the servant has, but for the exits that were missed. -/
def Balanced (s : State) (code : List Pc) (missed : List ℕ) : Prop :=
  ∀ i, s.owned i = s.attached code i + missed.count i

/-- An exit is the next thing the task does. -/
def Task.ExitFirst (t : Task) : Prop := ∀ pc ∈ t.code.tail, ∀ i, pc.exitOf i = false

/-- Every exit is the next thing its task does. -/
def ExitFirst (s : State) : Prop := ∀ t ∈ s.tasks, t.ExitFirst

/-- Code without exits. -/
theorem countP_exitOf (h : ∀ pc ∈ next, ∀ i, Pc.exitOf i pc = false) (i : ℕ) :
    next.countP (Pc.exitOf i) = 0 := by
  rw [List.countP_eq_zero]
  intro pc hpc
  rw [h pc hpc i]
  exact Bool.false_ne_true

theorem exitOf_exitCode {pi : PeerInfo} {reason : PeerExitReason} :
    ∀ pc ∈ exitCode pi reason, ∀ i, Pc.exitOf i pc = false := by
  cases reason with
  | exception deadly => cases deadly <;> simp [exitCode, Pc.exitOf]
  | _ => simp [exitCode, Pc.exitOf]

theorem exitOf_plain (h : pc.plain = true) (i : ℕ) : pc.exitOf i = false := by
  cases pc with
  | exit _ _ => cases h
  | _ => rfl

/-- A task begins an exit only as the next thing it does. -/
theorem exitOf_next (hnext : Next L s pc s₁ next) :
    ∀ q ∈ next.tail, ∀ i, Pc.exitOf i q = false := by
  cases hnext with
  | exitGone _ => exact fun q hq => exitOf_exitCode q (List.mem_of_mem_tail hq)
  | look _ hall => exact fun q hq => exitOf_plain (hall q (List.mem_of_mem_tail hq))
  | upgrade =>
      intro q hq i
      obtain ⟨id, -, rfl⟩ := List.mem_map.mp (List.mem_of_mem_tail hq)
      rfl
  | _ => simp

/-! ## Ids -/

/-- Taking out an id takes out the one that has it. -/
theorem countP_filter_one {α : Type*} {l : List α} (id : α → ℕ) {x : α} (hx : x ∈ l)
    (hone : l.countP (fun y => id y == id x) ≤ 1) (i : ℕ) :
    (l.filter fun y => id y != id x).countP (fun y => id y == i) + (id x == i).toNat =
      l.countP fun y => id y == i := by
  by_cases hi : id x = i
  · subst hi
    obtain ⟨hzero, hbefore⟩ := Counting.countP_filter_of_le_one (q := fun y => id y != id x)
      hx (beq_self_eq_true (id x)) (by simp) hone
    rw [hzero, hbefore, beq_self_eq_true, Bool.toNat_true]
  · have hne : (id x == i) = false := beq_eq_false_iff_ne.mpr hi
    rw [hne, Bool.toNat_false, Nat.add_zero]
    apply Counting.countP_filter_of_imp
    intro y _ hy
    have hyx : id y = id x := by simpa using hy
    rw [hyx]
    exact hne

/-- An id belongs to one address, so it is counted no more often than that. -/
theorem LaunchInv.owned_le_one (h : LaunchInv L s dead) (i : ℕ) : s.owned i ≤ 1 := by
  have hw := Within.self s s.code
  -- the address of any connection with this id bounds the count
  have hbound : ∀ κ ∈ keys s s.code, κ.id = i → s.owned i ≤ 1 := by
    intro κ hκ hi
    have hpeers : s.peers.countP (fun pi => pi.id == i) ≤
        s.peers.countP fun pi => pi.addr == κ.addr := by
      apply List.countP_mono_left
      intro pi hpi hid
      have heq : pi.peer.id = κ.id := by rw [hi]; exact beq_iff_eq.mp hid
      exact beq_iff_eq.mpr (h.named.unique pi.peer (hw.peers pi hpi) κ hκ heq)
    have hstarting : s.starting.countP (fun st => st.stage == .success && st.info.id == i) ≤
        s.starting.countP fun st => st.stage == .success && st.info.addr == κ.addr := by
      apply List.countP_mono_left
      intro st hst hid
      rw [Bool.and_eq_true] at hid ⊢
      have heq : st.info.peer.id = κ.id := by rw [hi]; exact beq_iff_eq.mp hid.2
      exact ⟨hid.1, beq_iff_eq.mpr
        (h.named.unique st.info.peer (hw.starting st hst) κ hκ heq)⟩
    have honce := (h.lawful κ.addr).once
    have hle := Bool.toNat_le (account s s.code κ.addr).guarded
    simp only [account] at honce hle
    unfold State.owned
    omega
  rcases Nat.eq_zero_or_pos (s.owned i) with hzero | hpos
  · omega
  · rcases Nat.add_pos_iff_pos_or_pos.mp hpos with hpos | hpos
    · obtain ⟨pi, hpi, hid⟩ := List.countP_pos_iff.mp hpos
      exact hbound pi.peer (hw.peers pi hpi) (beq_iff_eq.mp hid)
    · obtain ⟨st, hst, hid⟩ := List.countP_pos_iff.mp hpos
      rw [Bool.and_eq_true] at hid
      exact hbound st.info.peer (hw.starting st hst) (beq_iff_eq.mp hid.2)

/-- The servant has an id once. -/
theorem Balanced.servant_le_one (h : LaunchInv L s dead) (hb : Balanced s code missed) (i : ℕ) :
    s.servant.countP (fun peer => peer.id == i) ≤ 1 := by
  have hone := h.owned_le_one i
  have hi := hb i
  unfold State.attached at hi
  omega

/-- The connection of a start that goes on is in neither registry. -/
theorem LaunchInv.owned_of_connecting (h : LaunchInv L s dead) {k : ℕ} {st : Start}
    (hst : s.starting[k]? = some st) (hstage : st.stage = .connecting) :
    s.owned st.info.id = 0 := by
  have hw := Within.self s s.code
  have hmem := List.mem_of_getElem? hst
  have hzero := ((h.lawful st.info.addr).not_owned
    (waiting_pos s.code hst (by rw [hstage]; decide))).1
  rw [account] at hzero
  obtain ⟨hpeers, hstarting⟩ := Nat.add_eq_zero_iff.mp hzero
  rw [State.owned, Nat.add_eq_zero_iff, List.countP_eq_zero, List.countP_eq_zero]
  rw [List.countP_eq_zero] at hpeers hstarting
  constructor
  · intro pi hpi hid
    refine hpeers pi hpi (beq_iff_eq.mpr ?_)
    exact h.named.unique pi.peer (hw.peers pi hpi) st.info.peer (hw.starting st hmem)
      (beq_iff_eq.mp hid)
  · intro st' hst' hid
    rw [Bool.and_eq_true] at hid
    refine hstarting st' hst' ?_
    rw [Bool.and_eq_true]
    exact ⟨hid.1, beq_iff_eq.mpr (h.named.unique st'.info.peer (hw.starting st' hst')
      st.info.peer (hw.starting st hmem) (beq_iff_eq.mp hid.2))⟩

/-! ## One action -/

/-- `on_peer_exit`, by what it finds. -/
theorem onPeerExit_cases (s : State) (peer : Peer) (reason : PeerExitReason) :
    s.misses peer.id = true ∧ s.onPeerExit peer reason = (s, []) ∨
      s.misses peer.id = false ∧ ∃ pi ∈ s.peers, pi.id = peer.id ∧ s.onPeerExit peer reason =
        ({ s with peers := s.peers.filter fun q => q.id != pi.id }, exitCode pi reason) := by
  unfold State.onPeerExit State.misses
  cases s.cancelled with
  | true => exact Or.inl ⟨rfl, rfl⟩
  | false =>
      cases hfind : s.peers.find? fun pi => pi.id == peer.id with
      | some pi =>
          have hmem := List.mem_of_find?_eq_some hfind
          have hid : pi.id = peer.id := by simpa using List.find?_some hfind
          refine Or.inr ⟨?_, pi, hmem, hid, ?_⟩
          · rw [Bool.false_or, List.all_eq_false]
            exact ⟨pi, hmem, by simpa using hid⟩
          · simp [hid]
      | none =>
          refine Or.inl ⟨?_, rfl⟩
          rw [Bool.false_or, List.all_eq_true]
          intro pi hpi
          simpa using List.find?_eq_none.mp hfind pi hpi

/-- **An exit is settled.**  It takes the connection out of `Dispatch.peers`, or is noted. -/
theorem Balanced.exit (hone : ∀ i, s.owned i ≤ 1) {peer : Peer} {reason : PeerExitReason}
    (hb : Balanced s (.exit peer reason :: rest) missed) :
    Balanced (s.onPeerExit peer reason).1 ((s.onPeerExit peer reason).2 ++ rest)
      (((some peer.id).filter s.misses).toList ++ missed) := by
  intro i
  have hi := hb i
  rw [State.attached, Counting.countP_cons_toNat] at hi
  have hexit : (Pc.exit peer reason).exitOf i = (peer.id == i) := rfl
  rw [hexit] at hi
  rcases onPeerExit_cases s peer reason with ⟨hmiss, heq⟩ | ⟨hfound, pi, hmem, hid, heq⟩
  · rw [heq, Option.filter_some_pos hmiss]
    have hcount : ([peer.id] ++ missed).count i = missed.count i + (peer.id == i).toNat := by
      rw [List.singleton_append, List.count_cons]
      cases peer.id == i <;> rfl
    simp only [Option.toList_some, hcount, List.nil_append, State.attached]
    omega
  · have hpeers := countP_filter_one PeerInfo.id hmem
      ((Nat.le_add_right _ _).trans (hone pi.id)) i
    rw [heq, Option.filter_some_neg hfound]
    rw [hid] at hpeers
    simp only [Option.toList_none, List.nil_append, State.attached, State.owned,
      List.countP_append, countP_exitOf exitOf_exitCode, hid] at hi ⊢
    omega

/-- The rest of what a task does leaves the law as it is. -/
theorem Balanced.of_next (hb : Balanced s (pc :: rest) missed)
    (hservant : ∀ i, s.servant.countP (fun peer => peer.id == i) ≤ 1)
    (hpc : ∀ i, pc.exitOf i = false) (hnext : Next L s pc s₁ next) :
    Balanced s₁ (next ++ rest) missed := by
  intro i
  have hi := hb i
  rw [State.attached, Counting.countP_cons_toNat, hpc i, Bool.toNat_false, Nat.add_zero] at hi
  cases hnext with
  | @exitGone peer _ _ _ | @exitMissed peer _ =>
      have hself := hpc peer.id
      rw [Pc.exitOf, beq_self_eq_true] at hself
      cases hself
  | start _ =>
      have hstage : (Stage.connecting == Stage.success) = false := rfl
      simpa [State.owned, State.attached, hstage] using hi
  | upgrade =>
      rename_i id old
      have hsame : ((fun pi : PeerInfo => pi.id == i) ∘ fun pi : PeerInfo =>
          if pi.id == id then pi.setLtRunning true else pi) = fun pi => pi.id == i := by
        funext pi
        dsimp only [Function.comp_apply]
        split <;> rfl
      have hstops : ∀ q ∈ old.toList.map Pc.stop, ∀ i, q.exitOf i = false := by
        intro q hq j
        obtain ⟨id, -, rfl⟩ := List.mem_map.mp hq
        rfl
      simp only [State.owned, State.attached, List.countP_map, hsame, List.countP_append,
        countP_exitOf hstops, Nat.zero_add] at hi ⊢
      exact hi
  | stop hfind =>
      rename_i id peer
      have hid : peer.id = id := by simpa using List.find?_some hfind
      subst hid
      have hfilter := countP_filter_one Peer.id (List.mem_of_find?_eq_some hfind)
        (hservant peer.id) i
      have hexit : (Pc.exit peer .periodicPeerReplace).exitOf i = (peer.id == i) := rfl
      simp only [State.owned, State.attached, List.singleton_append, Counting.countP_cons_toNat,
        hexit] at hi ⊢
      omega
  | look _ hall =>
      have hplain : ∀ q ∈ next, ∀ i, q.exitOf i = false := fun q hq => exitOf_plain (hall q hq)
      rw [State.attached, List.countP_append, countP_exitOf hplain, Nat.zero_add]
      exact hi
  | _ => simpa [State.owned, State.attached, Pc.exitOf] using hi

/-- What a task does when it runs. -/
theorem LaunchInv.balanced_run (h : LaunchInv L s dead) (hb : Balanced s s.code missed) {k : ℕ}
    {c : Choice} (hstep : PeerLaunch.step L s (.run k c) = some s') :
    Balanced s' s'.code (missedExits s (.run k c) missed) := by
  have hone := h.owned_le_one
  have hservant := hb.servant_le_one h
  unfold PeerLaunch.step at hstep
  dsimp only at hstep
  split at hstep
  · next owner pc code ht =>
      obtain ⟨⟨s₁, next⟩, hpc, rfl⟩ := Option.map_eq_some_iff.mp hstep
      have hperm := code_run ht
      have hhead : Balanced s (pc :: (code ++ (s.tasks.eraseIdx k).flatMap Task.code)) missed := by
        intro i
        rw [State.attached, ← hperm.countP_eq]
        exact hb i
      rw [State.code, flatMap_resume, List.append_assoc]
      show Balanced s₁ (next ++ (code ++ (s.tasks.eraseIdx k).flatMap Task.code)) _
      by_cases hexit : ∃ peer reason, pc = .exit peer reason
      · obtain ⟨peer, reason, rfl⟩ := hexit
        cases c with
        | go =>
            have hres : s.onPeerExit peer reason = (s₁, next) := Option.some.inj hpc
            have hnew := hhead.exit hone
            rw [hres] at hnew
            simpa [missedExits, State.exiting, ht] using hnew
        | _ => cases hpc
      · have hnone : s.exiting (.run k c) = none := by
          cases c with
          | go =>
              unfold State.exiting
              dsimp only
              split
              · next heq =>
                  rw [ht] at heq
                  cases heq
                  exact absurd ⟨_, _, rfl⟩ hexit
              · rfl
          | _ => rfl
        have hpc' : ∀ i, pc.exitOf i = false := by
          intro i
          cases pc with
          | exit peer reason => exact absurd ⟨peer, reason, rfl⟩ hexit
          | _ => rfl
        rw [missedExits, hnone]
        exact hhead.of_next hservant hpc' (next_of_pcStep hpc)
  · cases hstep

/-- A handshake that is refused is missed: the launcher has not put the connection in yet. -/
theorem LaunchInv.misses_of_connecting (h : LaunchInv L s dead) {k : ℕ} {st : Start}
    (hst : s.starting[k]? = some st) (hstage : st.stage = .connecting) :
    s.misses st.info.id = true := by
  have hzero := h.owned_of_connecting hst hstage
  rw [State.owned, Nat.add_eq_zero_iff, List.countP_eq_zero] at hzero
  rw [State.misses, Bool.or_eq_true, List.all_eq_true]
  right
  intro pi hpi
  simpa using hzero.1 pi hpi

theorem LaunchInv.balanced_refused (h : LaunchInv L s dead) (hb : Balanced s s.code missed)
    {k : ℕ} (hstep : PeerLaunch.step L s (.refused k) = some s') :
    Balanced s' s'.code (missedExits s (.refused k) missed) := by
  obtain ⟨st, hst, rfl⟩ := Option.map_eq_some_iff.mp hstep
  have hexit : s.exiting (.refused k) = some st.info.id := by
    rw [State.exiting, hst, Option.map_some]
  obtain ⟨hst, hstage⟩ := connecting_eq_some hst
  have hmiss := h.misses_of_connecting hst hstage
  have heq : s.onPeerExit st.info.peer (.exception false) = (s, []) := by
    rcases onPeerExit_cases s st.info.peer (.exception false) with ⟨-, heq⟩ | ⟨hfound, -⟩
    · exact heq
    · have hfalse : s.misses st.info.id = false := hfound
      rw [hmiss] at hfalse
      cases hfalse
  rw [missedExits, hexit, Option.filter_some_pos hmiss, heq]
  intro i
  have hi := hb i
  have hcount := countP_starting hst fun q => q.stage == .success && q.info.id == i
  have hstage' : (Stage.connecting == Stage.success) = false := rfl
  have hsuccess : (Stage.success == Stage.success) = true := rfl
  rw [hstage, hstage', Bool.false_and, Bool.toNat_false] at hcount
  have hmissed : ((some st.info.id).toList ++ missed).count i =
      missed.count i + (st.info.id == i).toNat := by
    rw [Option.toList_some, List.singleton_append, List.count_cons]
    cases st.info.id == i <;> rfl
  rw [hmissed]
  simp only [State.owned, State.attached, State.code, resume, List.isEmpty_nil, if_true,
    Counting.countP_cons_toNat, hsuccess, Bool.true_and] at hi ⊢
  omega

/-- A task that is aborted waits for a channel, and begins no exit afterwards. -/
theorem countP_exitOf_abort (hfirst : ExitFirst s) {k : ℕ}
    (hstep : PeerLaunch.step L s (.abort k) = some s') (i : ℕ) :
    s'.code.countP (Pc.exitOf i) = s.code.countP (Pc.exitOf i) := by
  unfold PeerLaunch.step at hstep
  dsimp only at hstep
  split at hstep
  · next t ht =>
      obtain ⟨hawaits, rfl⟩ := Transition.of_ite_eq_some hstep
      rw [Bool.and_eq_true] at hawaits
      have hmem := List.mem_of_getElem? ht
      have hnone : t.code.countP (Pc.exitOf i) = 0 := by
        have htail := hfirst t hmem
        apply countP_exitOf
        intro pc hpc
        cases hcode : t.code with
        | nil =>
            rw [hcode] at hpc
            cases hpc
        | cons head rest =>
            rw [hcode] at hpc
            rw [Task.ExitFirst, hcode] at htail
            rcases List.mem_cons.mp hpc with rfl | hin
            · rw [Task.awaits, hcode] at hawaits
              cases pc with
              | exit _ _ => cases hawaits.2
              | _ => exact fun _ => rfl
            · exact htail pc hin
      have hperm := (Counting.cons_eraseIdx_perm ht).flatMap_right Task.code
      rw [State.code, State.code, ← hperm.countP_eq, List.flatMap_cons, List.countP_append, hnone,
        Nat.zero_add]
  · cases hstep

theorem exitFirst_resume {t : Task} {tasks : List Task} (ht : t.ExitFirst)
    (h : ∀ t ∈ tasks, t.ExitFirst) : ∀ t' ∈ resume Task.code t tasks, t'.ExitFirst := by
  intro t' ht'
  rcases mem_resume ht' with heq | ht'
  · rw [heq]
    exact ht
  · exact h t' ht'

theorem ExitFirst.step (h : ExitFirst s) (hstep : Step L s a s') : ExitFirst s' := by
  have herase : ∀ k, ∀ t ∈ s.tasks.eraseIdx k, t.ExitFirst :=
    fun k t ht => h t (List.mem_of_mem_eraseIdx ht)
  cases hstep with
  | run ht hpc =>
      rename_i k c owner pc code s₁ next
      have hmem := List.mem_of_getElem? ht
      refine exitFirst_resume ?_ (herase k)
      intro q hq
      have hcode : ∀ q ∈ code, ∀ i, Pc.exitOf i q = false := h _ hmem
      cases hnext : next with
      | nil =>
          rw [hnext] at hq
          exact hcode q (List.mem_of_mem_tail hq)
      | cons head tail =>
          rw [hnext] at hq
          rcases List.mem_append.mp hq with hq | hq
          · exact exitOf_next (next_of_pcStep hpc) q (by rw [hnext]; exact hq)
          · exact hcode q hq
  | refused _ _ hnext =>
      exact exitFirst_resume (t := ⟨.handler, _⟩) (exitOf_next hnext) h
  | recv _ _ _ | host | peerExit _ | peerAlloc | fails _ _ _ =>
      refine List.forall_mem_cons.mpr ⟨?_, h⟩
      simp [Task.ExitFirst, Pc.exitOf]
  | abort => exact herase _
  | _ => exact h

/-- A start that has not got to its connection belongs to nobody. -/
theorem countP_eraseIdx_starting {k : ℕ} {st : Start} (hst : s.starting[k]? = some st)
    (hstage : (st.stage == .success) = false) (i : ℕ) :
    (s.starting.eraseIdx k).countP (fun q => q.stage == .success && q.info.id == i) =
      s.starting.countP (fun q => q.stage == .success && q.info.id == i) := by
  have hcount := countP_starting hst fun q => q.stage == .success && q.info.id == i
  rwa [hstage, Bool.false_and, Bool.toNat_false, Nat.add_zero] at hcount

/-- **One action keeps the conservation law.** -/
theorem LaunchInv.balanced_step (h : LaunchInv L s dead) (hfirst : ExitFirst s)
    (hb : Balanced s s.code missed) (hstep : PeerLaunch.step L s a = some s') :
    Balanced s' s'.code (missedExits s a missed) := by
  have hone := h.owned_le_one
  have hstage : (Stage.success == Stage.success) = true := rfl
  have hfailed : (Stage.failed == Stage.success) = false := rfl
  cases step_cases hstep with
  | run ht hpc => exact h.balanced_run hb hstep
  | refused hst hst' hnext => exact h.balanced_refused hb hstep
  | abort =>
      intro i
      rw [State.attached, countP_exitOf_abort hfirst hstep]
      exact hb i
  | connected hst hcon =>
      rename_i k st
      intro i
      have hi := hb i
      have hcount := countP_eraseIdx_starting hst (by rw [hcon]; rfl) i
      -- the servant does not have the id, so `insert` replaces nothing
      have hzero := h.owned_of_connecting hst hcon
      have hid := hb st.info.id
      rw [hzero, State.attached] at hid
      have hkeep : (s.servant.filter fun q => q.id != st.info.id) = s.servant :=
        Counting.filter_bne_of_countP_eq_zero (by omega)
      have hpeer : (st.info.peer.id == i) = (st.info.id == i) := rfl
      have hcode : State.code { s with
          servant := st.info.peer :: s.servant.filter fun q => q.id != st.info.id
          starting := { st with stage := .success } :: s.starting.eraseIdx k } = s.code := rfl
      rw [hcode]
      simp only [missedExits, State.exiting, State.owned, State.attached, hkeep,
        Counting.countP_cons_toNat, hstage, Bool.true_and, hpeer, Option.filter_none,
        Option.toList_none, List.nil_append] at hi ⊢
      omega
  | success hst hsuccess =>
      rename_i k st
      intro i
      have hi := hb i
      have hcount := countP_starting hst fun q => q.stage == .success && q.info.id == i
      have hself := countP_starting hst fun q => q.stage == .success && q.info.id == st.info.id
      have hle := hone st.info.id
      rw [hsuccess, hstage, Bool.true_and] at hcount hself
      rw [beq_self_eq_true, Bool.toNat_true] at hself
      rw [State.owned] at hle
      -- `Dispatch.peers` does not have the id, so `insert` replaces nothing
      have hkeep : (s.peers.filter fun q => q.id != st.info.id) = s.peers :=
        Counting.filter_bne_of_countP_eq_zero (by omega)
      have hcode : State.code { s with
          peers := st.info :: s.peers.filter fun q => q.id != st.info.id
          starting := s.starting.eraseIdx k } = s.code := rfl
      rw [hcode]
      simp only [missedExits, State.exiting, State.owned, State.attached, hkeep,
        Counting.countP_cons_toNat, Option.filter_none, Option.toList_none,
        List.nil_append] at hi ⊢
      omega
  | failed hst hcon =>
      intro i
      rw [State.owned, Counting.countP_cons_toNat,
        countP_eraseIdx_starting hst (by rw [hcon]; rfl), hfailed, Bool.false_and, Bool.toNat_false]
      exact hb i
  | panicked hst hcon =>
      intro i
      rw [State.owned, countP_eraseIdx_starting hst (by rw [hcon]; rfl)]
      exact hb i
  | fails hst hfail _ =>
      intro i
      rw [State.owned, countP_eraseIdx_starting hst (by rw [hfail]; rfl)]
      exact hb i
  | peerExit hfind =>
      rename_i id reason peer
      intro i
      have hi := hb i
      have hid : peer.id = id := by simpa using List.find?_some hfind
      subst hid
      have hfilter := countP_filter_one Peer.id (List.mem_of_find?_eq_some hfind)
        (hb.servant_le_one h peer.id) i
      have hexit : (Pc.exit peer reason).exitOf i = (peer.id == i) := rfl
      simp only [missedExits, State.exiting, State.owned, State.attached, State.code,
        List.flatMap_cons, List.singleton_append, Counting.countP_cons_toNat, hexit,
        Option.filter_none, Option.toList_none, List.nil_append] at hi ⊢
      omega
  | host | recv _ _ _ | peerAlloc =>
      intro i
      simpa [missedExits, State.exiting, State.owned, State.attached, State.code, Pc.exitOf]
        using hb i
  | blocked _ _ | notFound _ | cancel => exact hb

/-! ## Runs -/

/-- No start and no exit is in progress; the other tasks may be anywhere. -/
def State.Quiescent (s : State) : Prop := s.starting = [] ∧ ∀ i, s.code.countP (Pc.exitOf i) = 0

/-- The keys of `Dispatch.peers`. -/
def State.dispatchKeys (s : State) : Finset ℕ := (s.peers.map PeerInfo.id).toFinset

/-- The keys of `DefaultServant.peers`. -/
def State.servantKeys (s : State) : Finset ℕ := (s.servant.map Peer.id).toFinset

theorem mem_dispatchKeys {i : ℕ} :
    i ∈ s.dispatchKeys ↔ 0 < s.peers.countP fun pi => pi.id == i := by
  rw [State.dispatchKeys, List.mem_toFinset, List.mem_map, List.countP_pos_iff]
  simp only [beq_iff_eq]

theorem mem_servantKeys {i : ℕ} :
    i ∈ s.servantKeys ↔ 0 < s.servant.countP fun peer => peer.id == i := by
  rw [State.servantKeys, List.mem_toFinset, List.mem_map, List.countP_pos_iff]
  simp only [beq_iff_eq]

/-- The conservation law holds in every run. -/
theorem balanced_of_run {as : List Act}
    (hrun : Transition.FreeRun (Transition.observe (step L) missedExits) (.init, []) as
      (s, missed)) :
    (∃ dead, LaunchInv L s dead) ∧ Balanced s s.code missed := by
  have hI : (∃ dead, LaunchInv L s dead) ∧ ExitFirst s ∧ Balanced s s.code missed := by
    refine hrun.invariant_observe (I := fun s missed => (∃ dead, LaunchInv L s dead) ∧
      ExitFirst s ∧ Balanced s s.code missed) ⟨⟨[], LaunchInv.init L⟩, ?_, fun i => rfl⟩ ?_
    · intro t ht
      cases ht
    · rintro s missed a s' ⟨⟨dead, hI⟩, hfirst, hb⟩ - hs
      exact ⟨⟨_, hI.step hs⟩, hfirst.step (step_cases hs), hI.balanced_step hfirst hb hs⟩
  exact ⟨hI.1, hI.2.2⟩

/-- A connection whose exit was missed stays with the dispatcher. -/
theorem owned_of_missed {as : List Act} {i : ℕ}
    (hrun : Transition.FreeRun (Transition.observe (step L) missedExits) (.init, []) as
      (s, missed)) (hi : i ∈ missed) : s.owned i = 1 ∧ i ∉ s.servantKeys := by
  obtain ⟨⟨dead, hI⟩, hb⟩ := balanced_of_run hrun
  have hone := hI.owned_le_one i
  have hcount : 0 < missed.count i := List.count_pos_iff.mpr hi
  have hlaw := hb i
  rw [State.attached] at hlaw
  rw [mem_servantKeys]
  omega

/-- **The registries agree.**  In every run, when no start and no exit is in progress, the keys of
`Dispatch.peers` are the keys of `DefaultServant.peers` if and only if no `on_peer_exit` was called
for a connection that the launcher had not put in yet, or while the process was stopping. -/
theorem registries_agree {as : List Act}
    (hrun : Transition.FreeRun (Transition.observe (step L) missedExits) (.init, []) as
      (s, missed)) (hquiet : s.Quiescent) :
    s.dispatchKeys = s.servantKeys ↔ missed = [] := by
  obtain ⟨-, hb⟩ := balanced_of_run hrun
  have hlaw : ∀ i, s.peers.countP (fun pi => pi.id == i) =
      s.servant.countP (fun peer => peer.id == i) + missed.count i := by
    intro i
    have hi := hb i
    rwa [State.owned, State.attached, hquiet.1, hquiet.2 i, List.countP_nil, Nat.add_zero,
      Nat.add_zero] at hi
  constructor
  · intro heq
    rw [List.eq_nil_iff_forall_not_mem]
    intro i hi
    have hnot := (owned_of_missed hrun hi).2
    have hpos : i ∈ s.dispatchKeys := by
      have hcount : 0 < missed.count i := List.count_pos_iff.mpr hi
      rw [mem_dispatchKeys, hlaw i]
      omega
    rw [heq] at hpos
    exact hnot hpos
  · intro hnil
    ext i
    rw [mem_dispatchKeys, mem_servantKeys, hlaw i, hnil, List.count_nil, Nat.add_zero]

/-- A connection is made, used and closed. -/
def exitRun : List Act :=
  [.host (.v4 1 1), .run 0 .go, .recv, .run 0 (.semaphore true), .connected 0, .join 0,
    .peerExit 1 .notHasJob, .run 0 .go, .run 0 .go, .run 0 .go]

/-- Both registries are empty again. -/
theorem registries_agree_exit :
    ∃ s : State,
      Transition.FreeRun (Transition.observe (step smallLimits) missedExits) (.init, []) exitRun
        (s, []) ∧
      s.Quiescent ∧ s.nextId = 2 ∧ s.dispatchKeys = s.servantKeys := by
  have hexec : (Transition.exec (Transition.observe (step smallLimits) missedExits) (.init, [])
      exitRun).map (fun x => (x.1.starting, x.1.tasks, x.1.nextId, x.2)) =
        some ([], [], 2, []) := by decide +kernel
  obtain ⟨⟨s, missed⟩, hrun, hview⟩ := Transition.Run.exists_of_exec hexec
  simp only [Prod.mk.injEq] at hview
  obtain ⟨hstarting, htasks, hid, hmissed⟩ := hview
  have hquiet : s.Quiescent := ⟨hstarting, fun i => by rw [State.code, htasks]; rfl⟩
  exact ⟨s, hmissed ▸ hrun, hquiet, hid, (registries_agree hrun hquiet).mpr hmissed⟩

/-- The connection is closed before the launcher handles the result of its start. -/
def earlyExitRun : List Act :=
  [.host (.v4 1 1), .run 0 .go, .recv, .run 0 (.semaphore true), .connected 0,
    .peerExit 1 .notHasJob, .run 0 .go, .join 0]

/-- The closed connection is in `Dispatch.peers` for good. -/
theorem registries_differ :
    ∃ s : State, Transition.FreeRun (step smallLimits) .init earlyExitRun s ∧
      s.Quiescent ∧ s.dispatchKeys ≠ s.servantKeys := by
  have hexec : (Transition.exec (step smallLimits) .init earlyExitRun).map
      (fun s => (s.starting, s.tasks, s.peers.map PeerInfo.id, s.servant)) =
        some ([], [], [1], []) := by decide +kernel
  obtain ⟨s, hrun, hview⟩ := Transition.Run.exists_of_exec hexec
  simp only [Prod.mk.injEq] at hview
  obtain ⟨hstarting, htasks, hpeers, hservant⟩ := hview
  refine ⟨s, hrun, ⟨hstarting, fun i => by rw [State.code, htasks]; rfl⟩, ?_⟩
  rw [State.dispatchKeys, State.servantKeys, hpeers, hservant]
  decide

end PeerLaunch
