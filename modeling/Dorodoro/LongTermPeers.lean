/-
# The quota of long-term peers

A host is started as a long-term peer while the connections, of both kinds, are fewer than
`torrent_lt_peer_conn_limit`; the coordinator makes a temporary peer a long-term one.  The
coordinator counts the long-term peers that are connected, not the ones that are being started,
and `replace_peer` upgrades the new peer before it stops the old one.

* `State.lt` counts both, and `UpgradeGuard` asks that an upgrade leaves room for them;
* `lt_quota` is the result about runs, and `lt_exceeded` a replacement that breaks the quota.
-/
import Dorodoro.LaunchQuota

namespace PeerLaunch

variable {L : Limits} {s s' s₁ : State} {a : Act} {pc : Pc} {next : List Pc}

/-- The long-term peers among the ones being started. -/
def State.ltStarting (s : State) : ℕ := s.starting.countP fun st => st.info.ltRunning

/-- The long-term peers, connected or being started. -/
def State.lt (s : State) : ℕ := s.ltPeerNum + s.ltStarting

/-- The condition on an action: a temporary peer is upgraded only when there is room. -/
def UpgradeGuard (L : Limits) (s : State) : Act → Prop
  | .run k _ =>
      match s.tasks[k]? with
      | some ⟨_, .upgrade id _ :: _⟩ =>
          (s.peers.any fun pi => pi.id == id && !pi.ltRunning) = true →
            s.lt < L.torrentLtPeerConnLimit
      | _ => True
  | _ => True

instance (L : Limits) (s : State) (a : Act) : Decidable (UpgradeGuard L s a) := by
  unfold UpgradeGuard
  split
  · split <;> infer_instance
  · infer_instance

/-! ## One step -/

/-- An id is in `Dispatch.peers` once. -/
theorem LaunchInv.countP_id {dead : List SocketAddr} (h : LaunchInv L s dead) (id : ℕ) :
    s.peers.countP (fun pi => pi.id == id) ≤ 1 := by
  have hw := Within.self s s.code
  rcases Nat.eq_zero_or_pos (s.peers.countP fun pi => pi.id == id) with hzero | hpos
  · omega
  · obtain ⟨pi, hmem, hid⟩ := List.countP_pos_iff.mp hpos
    have hle : s.peers.countP (fun q => q.id == id) ≤
        s.peers.countP fun q => q.addr == pi.addr := by
      apply List.countP_mono_left
      intro q hq hqid
      rw [beq_iff_eq] at hid hqid ⊢
      exact h.named.unique q.peer (hw.peers q hq) pi.peer (hw.peers pi hmem) (hqid.trans hid.symm)
    have honce := (h.lawful pi.addr).once
    have htop := Bool.toNat_le (account s s.code pi.addr).guarded
    simp only [account] at honce htop
    omega

/-- An upgrade adds one long-term peer, or none. -/
theorem countP_upgrade (peers : List PeerInfo) (id : ℕ) :
    (peers.map fun pi => if pi.id == id then pi.setLtRunning true else pi).countP
        PeerInfo.ltRunning =
      peers.countP PeerInfo.ltRunning + peers.countP fun pi => pi.id == id && !pi.ltRunning := by
  induction peers with
  | nil => rfl
  | cons pi peers ih =>
      rw [List.map_cons, Counting.countP_cons_toNat, Counting.countP_cons_toNat,
        Counting.countP_cons_toNat, ih]
      cases hid : pi.id == id <;> cases hlt : pi.ltRunning <;>
        simp [PeerInfo.setLtRunning, hlt] <;> omega

theorem lt_upgrade {dead : List SocketAddr} {id : ℕ} (h : LaunchInv L s dead)
    (hle : s.lt ≤ L.torrentLtPeerConnLimit)
    (hroom : (s.peers.any fun pi => pi.id == id && !pi.ltRunning) = true →
      s.lt < L.torrentLtPeerConnLimit) :
    (s.peers.map fun pi => if pi.id == id then pi.setLtRunning true else pi).countP
        PeerInfo.ltRunning + s.ltStarting ≤ L.torrentLtPeerConnLimit := by
  rw [countP_upgrade]
  rw [State.lt, State.ltPeerNum] at hle hroom
  have hone : s.peers.countP (fun pi => pi.id == id && !pi.ltRunning) ≤ 1 := by
    refine (List.countP_mono_left ?_).trans (h.countP_id id)
    intro pi _ hpi
    exact (Bool.and_eq_true_iff.mp hpi).1
  rcases Nat.eq_zero_or_pos (s.peers.countP fun pi => pi.id == id && !pi.ltRunning) with
    hzero | hpos
  · omega
  · have hlt := hroom (List.any_eq_true.mpr (List.countP_pos_iff.mp hpos))
    omega

/-- A peer is admitted as a long-term one only while there is room for it. -/
theorem lt_start {dead : List SocketAddr} {k : ℕ} {owner : Owner} {pi : PeerInfo} {code : List Pc}
    (h : LaunchInv L s dead) (hle : s.lt ≤ L.torrentLtPeerConnLimit)
    (ht : s.tasks[k]? = some ⟨owner, .checkLimit pi :: code⟩)
    (hlt : s.peers.length + s.joinSet.length < pi.getPeerConnLimit L) :
    s.lt + pi.ltRunning.toNat ≤ L.torrentLtPeerConnLimit := by
  cases hpi : pi.ltRunning with
  | false => exact hle
  | true =>
      have hjoin := h.launcher.joinSet_length (List.mem_of_getElem? ht) List.mem_cons_self
      have hpeers : s.ltPeerNum ≤ s.peers.length := List.countP_le_length
      have hstarting : s.ltStarting ≤ s.starting.length := List.countP_le_length
      rw [PeerInfo.getPeerConnLimit, if_pos hpi] at hlt
      rw [State.lt, Bool.toNat_true]
      omega

/-- One step of a task. -/
theorem lt_run {dead : List SocketAddr} {k : ℕ} {owner : Owner} {code : List Pc} {c : Choice}
    (h : LaunchInv L s dead) (hle : s.lt ≤ L.torrentLtPeerConnLimit)
    (hg : UpgradeGuard L s (.run k c)) (ht : s.tasks[k]? = some ⟨owner, pc :: code⟩)
    (hnext : Next L s pc s₁ next) : s₁.lt ≤ L.torrentLtPeerConnLimit := by
  cases hnext with
  | start hlt =>
      have hroom := lt_start h hle ht hlt
      rw [State.lt] at hroom ⊢
      rw [State.ltStarting, Counting.countP_cons_toNat, ← Nat.add_assoc]
      exact hroom
  | upgrade =>
      rw [UpgradeGuard, ht] at hg
      exact lt_upgrade h hle hg
  | exitGone _ => exact (Nat.add_le_add_right List.filter_sublist.countP_le _).trans hle
  | _ => exact hle

/-- The exit of a connection adds no long-term peer. -/
theorem ltPeerNum_exit {peer : Peer} {reason : PeerExitReason}
    (hnext : Next L s (.exit peer reason) s₁ next) : s₁.ltPeerNum ≤ s.ltPeerNum := by
  cases hnext with
  | exitGone _ => exact List.filter_sublist.countP_le
  | exitMissed => exact Nat.le_refl _
  | look hplain _ => cases hplain

/-- **One action keeps the quota.** -/
theorem lt_step {dead : List SocketAddr} (h : LaunchInv L s dead)
    (hle : s.lt ≤ L.torrentLtPeerConnLimit) (hg : UpgradeGuard L s a) (hstep : Step L s a s') :
    s'.lt ≤ L.torrentLtPeerConnLimit := by
  cases hstep with
  | run ht hpc =>
      have hrun := lt_run h hle hg ht (next_of_pcStep hpc)
      exact hrun
  | connected hst _ | failed hst _ =>
      have hcount := countP_starting hst fun st => st.info.ltRunning
      rw [State.lt, State.ltStarting] at hle ⊢
      rw [Counting.countP_cons_toNat, hcount]
      exact hle
  | refused hst _ hnext =>
      have hcount := countP_starting hst fun st => st.info.ltRunning
      have hpeers := ltPeerNum_exit hnext
      rw [State.lt, State.ltStarting] at hle ⊢
      rw [Counting.countP_cons_toNat, hcount]
      exact (Nat.add_le_add_right hpeers _).trans hle
  | panicked _ _ | fails _ _ _ =>
      exact (Nat.add_le_add_left (List.eraseIdx_sublist s.starting _).countP_le _).trans hle
  | success hst _ =>
      rename_i st _
      have hcount := countP_starting hst fun st => st.info.ltRunning
      have hpeers : (s.peers.filter fun q => q.id != st.info.id).countP PeerInfo.ltRunning ≤
          s.peers.countP PeerInfo.ltRunning := List.filter_sublist.countP_le
      rw [State.lt, State.ltPeerNum, State.ltStarting] at hle ⊢
      rw [Counting.countP_cons_toNat]
      dsimp only
      omega
  | _ => exact hle

/-! ## Runs -/

/-- **The quota of long-term peers.**  In every run whose upgrades leave room for the peers being
started. -/
theorem lt_quota {as : List Act} (hrun : Transition.Run (step L) (UpgradeGuard L) .init as s) :
    s.ltPeerNum ≤ L.torrentLtPeerConnLimit := by
  have hI : (∃ dead, LaunchInv L s dead) ∧ s.lt ≤ L.torrentLtPeerConnLimit := by
    refine hrun.invariant (I := fun s => (∃ dead, LaunchInv L s dead) ∧
      s.lt ≤ L.torrentLtPeerConnLimit) ⟨⟨[], LaunchInv.init L⟩, Nat.zero_le _⟩ ?_
    rintro s a s' ⟨⟨dead, hI⟩, hle⟩ hg hstep
    exact ⟨⟨_, hI.step hstep⟩, lt_step hI hle hg (step_cases hstep)⟩
  exact (Nat.le_add_right _ _).trans hI.2

/-- A long-term peer is connected; a second host waits and is started as a temporary one. -/
def twoPeersRun : List Act :=
  [.host (.v4 1 1), .run 0 .go, .recv, .run 0 (.semaphore true), .connected 0, .join 0,
    .host (.v4 2 2), .run 0 .go, .recv, .run 0 (.semaphore true),
    .peerAlloc, .run 0 .go, .run 0 (.pick none false), .run 0 (.pick (some 1) false), .run 0 .go,
    .run 0 .go, .recv, .run 0 (.semaphore true), .connected 0, .join 0]

/-- The long-term peer leaves, and the temporary one takes its place. -/
def upgradeRun : List Act :=
  twoPeersRun ++
  ([.peerExit 1 .notHasJob, .run 0 .go, .run 0 .go, .run 0 .go,
    .host (.v4 3 3), .run 0 .go, .recv, .run 0 (.semaphore true),
    .peerAlloc, .run 0 .go, .run 0 (.pick (some 2) false), .run 0 .go] : List Act)

/-- The temporary peer becomes the long-term one. -/
theorem lt_quota_upgrade :
    ∃ s : State,
      Transition.Run (step smallLimits) (UpgradeGuard smallLimits) .init upgradeRun s ∧
      s.peers = [⟨2, .v4 2 2, true, true⟩] ∧ s.ltPeerNum ≤ 1 := by
  have hexec : (Transition.execIf (step smallLimits) (UpgradeGuard smallLimits) .init
      upgradeRun).map State.peers = some [⟨2, .v4 2 2, true, true⟩] := by decide +kernel
  obtain ⟨s, hrun, hpeers⟩ := Transition.Run.exists_of_execIf hexec
  exact ⟨s, hrun, hpeers, lt_quota hrun⟩

/-- The temporary peer is faster and replaces the long-term one. -/
def replaceRun : List Act :=
  twoPeersRun ++
  ([.host (.v4 3 3), .run 0 .go, .recv, .run 0 (.semaphore true),
    .peerAlloc, .run 0 .go, .run 0 (.pick (some 2) false), .run 0 (.pick (some 1) true),
    .run 0 .go] : List Act)

/-- `replace_peer` has upgraded the new peer and not yet stopped the old one: two long-term peers
where one is allowed. -/
theorem lt_exceeded :
    ∃ s : State, Transition.FreeRun (step smallLimits) .init replaceRun s ∧
      smallLimits.torrentLtPeerConnLimit < s.ltPeerNum := by
  have hexec : (Transition.exec (step smallLimits) .init replaceRun).map State.ltPeerNum =
      some 2 := by decide +kernel
  obtain ⟨s, hrun, hnum⟩ := Transition.Run.exists_of_exec hexec
  refine ⟨s, hrun, ?_⟩
  rw [hnum]
  decide

end PeerLaunch
