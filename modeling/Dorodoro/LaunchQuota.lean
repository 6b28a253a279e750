/-
# Quota, uniqueness and blacklist of the peer launcher

For every order of host arrivals, starts, exits and wake-ups: the peers in `Dispatch.peers` and
the ones being started are within `torrent_peer_conn_limit`, an address is in one place only, and
an address that had a deadly exit is not started again.

* `OneAtATime`: the launcher admits a peer only when it waits for no other start, so its count of
  the `join_set` is exact;
* `Within` and `Named.step`: ids are given out once;
* `LaunchInv` joins these with the accounts of all addresses;
* `launch_quota` is the result about runs.
-/
import Dorodoro.LaunchAccounts
import Mathlib.Data.List.Flatten
import Mathlib.Data.List.Nodup

namespace PeerLaunch

open Transition (resume mem_resume flatMap_resume)

variable {L : Limits} {s s' s₁ : State} {a : Act} {addr : SocketAddr} {pc : Pc}
  {code next rest : List Pc}

/-! ## The tasks -/

theorem code_run {k : ℕ} {owner : Owner} (ht : s.tasks[k]? = some ⟨owner, pc :: code⟩) :
    s.code.Perm (pc :: (code ++ (s.tasks.eraseIdx k).flatMap Task.code)) :=
  ((Counting.cons_eraseIdx_perm ht).flatMap_right Task.code).symm

/-- The number of things the launcher is doing. -/
def State.busy (s : State) : ℕ :=
  s.tasks.countP (fun t => t.owner == .launcher) + s.starting.countP Start.direct

/-- The launcher does one thing at a time, and it alone admits peers. -/
structure OneAtATime (s : State) : Prop where
  busy : s.busy ≤ 1
  admits : ∀ t ∈ s.tasks, ∀ pi, .checkLimit pi ∈ t.code → t = ⟨.launcher, [.checkLimit pi]⟩

theorem busy_of_idle (h : s.launcherIdle = true) : s.busy = 0 := by
  rw [State.launcherIdle, Bool.and_eq_true, List.all_eq_true, List.all_eq_true] at h
  rw [State.busy, Nat.add_eq_zero_iff, List.countP_eq_zero, List.countP_eq_zero]
  constructor
  · intro t ht hl
    have hne := h.1 t ht
    rw [bne, hl] at hne
    cases hne
  · intro st hst hd
    have hne := h.2 st hst
    rw [hd] at hne
    cases hne

/-- Only receiving a peer leads to the check of the limit. -/
theorem checkLimit_notMem_next (hnext : Next L s pc s₁ next) (pi : PeerInfo) :
    .checkLimit pi ∉ next := by
  cases hnext with
  | exitGone _ =>
      rename_i reason _ _
      cases reason with
      | exception deadly => cases deadly <;> simp [exitCode]
      | _ => simp [exitCode]
  | look _ hall =>
      intro hmem
      cases hall _ hmem
  | _ => simp

/-- A task changes what is being started only by admitting a peer. -/
theorem starting_next (hnext : Next L s pc s₁ next) :
    s₁.starting = s.starting ∨ ∃ pi direct, pc = .checkLimit pi ∧ next = [] ∧ s₁.peers = s.peers ∧
      s₁.starting = ⟨pi, .connecting, direct⟩ :: s.starting ∧
      s.peers.length + s.joinSet.length < pi.getPeerConnLimit L := by
  cases hnext with
  | start hlt => exact Or.inr ⟨_, _, rfl, rfl, rfl, rfl, hlt⟩
  | _ => exact Or.inl rfl

/-- While the launcher admits a peer, everything being started is in the `join_set`. -/
theorem OneAtATime.joinSet_length (h : OneAtATime s) {t : Task} {pi : PeerInfo} (ht : t ∈ s.tasks)
    (hmem : .checkLimit pi ∈ t.code) : s.joinSet.length = s.starting.length := by
  have hl : 0 < s.tasks.countP fun t => t.owner == .launcher := by
    apply List.countP_pos_iff.mpr
    exact ⟨t, ht, by rw [h.admits t ht pi hmem]; rfl⟩
  have hbusy := h.busy
  rw [State.busy] at hbusy
  have hzero : s.starting.countP Start.direct = 0 := by omega
  rw [State.joinSet, List.filter_eq_self.mpr]
  intro st hst
  have hd := List.countP_eq_zero.mp hzero st hst
  rw [Bool.not_eq_true', ← Bool.not_eq_true]
  exact hd

theorem OneAtATime.run {k : ℕ} {owner : Owner} (h : OneAtATime s)
    (ht : s.tasks[k]? = some ⟨owner, pc :: code⟩) (hnext : Next L s pc s₁ next) :
    OneAtATime { s₁ with tasks := resume Task.code ⟨owner, next ++ code⟩ (s.tasks.eraseIdx k) } := by
  have hmem := List.mem_of_getElem? ht
  have hcount := (Counting.cons_eraseIdx_perm ht).countP_eq fun t => t.owner == .launcher
  rw [Counting.countP_cons_toNat] at hcount
  dsimp only at hcount
  have hbusy := h.busy
  rw [State.busy] at hbusy
  constructor
  · show (resume Task.code ⟨owner, next ++ code⟩ (s.tasks.eraseIdx k)).countP
      (fun t => t.owner == .launcher) + s₁.starting.countP Start.direct ≤ 1
    rcases starting_next hnext with hstart | ⟨pi, direct, rfl, rfl, -, hstart, -⟩
    · have hle : (resume Task.code ⟨owner, next ++ code⟩ (s.tasks.eraseIdx k)).countP
          (fun t => t.owner == .launcher) ≤
          (s.tasks.eraseIdx k).countP (fun t => t.owner == .launcher) +
            (owner == .launcher).toNat := by
        unfold resume
        split
        · exact Nat.le_add_right _ _
        · rw [Counting.countP_cons_toNat]
      rw [hstart]
      omega
    · -- the launcher goes on to wait for the start, or is done
      have heq := h.admits _ hmem pi List.mem_cons_self
      simp only [Task.mk.injEq, List.cons.injEq, true_and] at heq
      obtain ⟨rfl, rfl⟩ := heq
      have hd := Bool.toNat_le direct
      rw [hstart, Counting.countP_cons_toNat]
      simp only [beq_self_eq_true, Bool.toNat_true] at hcount
      simp only [resume, List.append_nil, List.isEmpty_nil, if_true]
      omega
  · intro t' ht' pi hadmit
    rcases mem_resume ht' with rfl | ht'
    · rcases List.mem_append.mp hadmit with hin | hin
      · exact absurd hin (checkLimit_notMem_next hnext pi)
      · have heq := h.admits _ hmem pi (List.mem_cons_of_mem pc hin)
        simp only [Task.mk.injEq, List.cons.injEq] at heq
        rw [heq.2.2] at hin
        cases hin
    · exact h.admits t' (List.mem_of_mem_eraseIdx ht') pi hadmit

/-- The launcher takes up nothing new. -/
theorem OneAtATime.mono (h : OneAtATime s) (hbusy : s'.busy ≤ s.busy)
    (htasks : ∀ t ∈ s'.tasks, t ∈ s.tasks ∨ ∀ pi, .checkLimit pi ∉ t.code) : OneAtATime s' := by
  refine ⟨hbusy.trans h.busy, ?_⟩
  intro t ht pi hmem
  rcases htasks t ht with ht | hno
  · exact h.admits t ht pi hmem
  · exact absurd hmem (hno pi)

/-- A task of another owner that admits nothing is put in. -/
theorem busy_resume {owner : Owner} (howner : owner ≠ .launcher) (tasks : List Task) :
    (resume Task.code ⟨owner, code⟩ tasks).countP (fun t => t.owner == .launcher) =
      tasks.countP fun t => t.owner == .launcher := by
  unfold resume
  split
  · rfl
  · rw [List.countP_cons_of_neg]
    simpa using howner

theorem OneAtATime.step (h : OneAtATime s) (hstep : Step L s a s') : OneAtATime s' := by
  have hbusy := h.busy
  cases hstep with
  | run ht hpc => exact h.run ht (next_of_pcStep hpc)
  | recv hch hidle _ =>
      have hzero := busy_of_idle hidle
      constructor
      · rw [State.busy] at hzero ⊢
        rw [Counting.countP_cons_toNat, beq_self_eq_true, Bool.toNat_true]
        dsimp only
        omega
      · intro t ht pi hmem
        rcases List.mem_cons.mp ht with rfl | ht
        · cases List.mem_singleton.mp hmem
          rfl
        · exact h.admits t ht pi hmem
  | fails hst hstage hidle =>
      have hcount := countP_starting hst Start.direct
      constructor
      · rw [State.busy] at hbusy ⊢
        rw [Counting.countP_cons_toNat, beq_self_eq_true, Bool.toNat_true]
        -- the launcher has waited for this start, or for the `join_set`
        rcases Bool.or_eq_true_iff.mp hidle with hd | hidle
        · rw [hd, Bool.toNat_true] at hcount
          dsimp only
          omega
        · have hzero := busy_of_idle hidle
          rw [State.busy] at hzero
          dsimp only
          omega
      · intro t ht pi hmem
        rcases List.mem_cons.mp ht with rfl | ht
        · simp at hmem
        · exact h.admits t ht pi hmem
  | host | peerExit _ | peerAlloc =>
      -- a task of another owner
      refine h.mono (Nat.le_refl s.busy) (List.forall_mem_cons.mpr ⟨?_, fun t ht => Or.inl ht⟩)
      exact Or.inr (by simp)
  | connected hst _ | failed hst _ =>
      refine h.mono ?_ (fun t ht => Or.inl ht)
      rw [State.busy, State.busy, Counting.countP_cons_toNat, ← countP_starting hst Start.direct]
  | refused hst _ hnext =>
      refine h.mono ?_ ?_
      · rw [State.busy, State.busy, Counting.countP_cons_toNat, ← countP_starting hst Start.direct,
          busy_resume (by decide)]
      · intro t ht
        rcases mem_resume ht with rfl | ht
        · exact Or.inr (checkLimit_notMem_next hnext)
        · exact Or.inl ht
  | panicked hst _ | success hst _ =>
      refine h.mono ?_ (fun t ht => Or.inl ht)
      rw [State.busy, State.busy, ← countP_starting hst Start.direct]
      dsimp only
      omega
  | abort =>
      rename_i k
      refine h.mono ?_ (fun t ht => Or.inl (List.mem_of_mem_eraseIdx ht))
      exact Nat.add_le_add_right ((List.eraseIdx_sublist s.tasks k).countP_le) _
  | blocked _ _ => exact h.mono (Nat.le_refl s.busy) (fun t ht => Or.inl ht)
  | notFound _ => exact h
  | cancel => exact h.mono (Nat.le_refl s.busy) (fun t ht => Or.inl ht)

/-! ## One action -/

theorem length_eraseIdx_starting {k : ℕ} {st : Start} (hst : s.starting[k]? = some st) :
    (s.starting.eraseIdx k).length + 1 = s.starting.length :=
  (Counting.cons_eraseIdx_perm hst).length_eq

theorem PeerInfo.getPeerConnLimit_le (L : Limits) (pi : PeerInfo) :
    pi.getPeerConnLimit L ≤ L.torrentPeerConnLimit := by
  unfold PeerInfo.getPeerConnLimit
  split
  · exact Nat.le_add_right _ _
  · exact Nat.le_refl _

theorem length_peers_next (hnext : Next L s pc s₁ next) : s₁.peers.length ≤ s.peers.length := by
  cases hnext with
  | exitGone _ => exact List.length_filter_le _ _
  | upgrade => exact (List.length_map _).le
  | _ => exact Nat.le_refl _

/-- **The quota is kept.** -/
theorem quota_step (h : OneAtATime s)
    (hq : s.peers.length + s.starting.length ≤ L.torrentPeerConnLimit) (hstep : Step L s a s') :
    s'.peers.length + s'.starting.length ≤ L.torrentPeerConnLimit := by
  cases hstep with
  | run ht hpc =>
      have hnext := next_of_pcStep hpc
      have hpeers := length_peers_next hnext
      dsimp only
      rcases starting_next hnext with hstart | ⟨pi, direct, rfl, rfl, hsame, hstart, hlt⟩
      · rw [hstart]
        omega
      · -- `run` compares with the `join_set`, which has all starts here
        have hjoin := h.joinSet_length (List.mem_of_getElem? ht) List.mem_cons_self
        have hle := pi.getPeerConnLimit_le L
        rw [hstart, hsame, List.length_cons]
        omega
  | success hst _ =>
      rename_i st _
      have hlen := length_eraseIdx_starting hst
      have hle := List.length_filter_le (fun q => q.id != st.info.id) s.peers
      rw [List.length_cons]
      dsimp only
      omega
  | refused hst _ hnext =>
      have hlen := length_eraseIdx_starting hst
      have hpeers := length_peers_next hnext
      rw [List.length_cons]
      dsimp only
      omega
  | connected hst _ | failed hst _ | panicked hst _ | fails hst _ _ =>
      have hlen := length_eraseIdx_starting hst
      simp only [List.length_cons]
      omega
  | _ => exact hq

/-! ## Names -/

theorem keys_exitCode {pi : PeerInfo} {reason : PeerExitReason} {κ : Peer}
    (h : κ ∈ (exitCode pi reason).flatMap Pc.keys) : κ = pi.peer := by
  cases reason with
  | exception deadly => cases deadly <;> simp [exitCode, Pc.keys] at h
  | periodicPeerReplace => simpa [exitCode, Pc.keys] using h
  | _ => simp [exitCode, Pc.keys] at h

/-- A task names no new connection. -/
theorem Within.of_next {K : List Peer} (h : Within s (pc :: rest) K) (hnext : Next L s pc s₁ next) :
    Within s₁ (next ++ rest) K := by
  have hpc := h.code pc List.mem_cons_self
  have hrest : ∀ q ∈ rest, ∀ κ ∈ q.keys, κ ∈ K := fun q hq => h.code q (List.mem_cons_of_mem pc hq)
  cases hnext with
  | send =>
      refine { h with code := hrest, channel := List.forall_mem_append.mpr ⟨h.channel, ?_⟩ }
      exact List.forall_mem_singleton.mpr (hpc _ List.mem_cons_self)
  | queue =>
      refine { h with code := hrest, queue := List.forall_mem_append.mpr ⟨h.queue, ?_⟩ }
      exact List.forall_mem_singleton.mpr (hpc _ List.mem_cons_self)
  | start _ =>
      refine { h with code := hrest, starting := ?_ }
      exact List.forall_mem_cons.mpr ⟨hpc _ List.mem_cons_self, h.starting⟩
  | release => exact { h with code := hrest }
  | park =>
      refine { h with code := hrest, queue := List.forall_mem_append.mpr ⟨h.queue, ?_⟩ }
      exact List.forall_mem_singleton.mpr (hpc _ List.mem_cons_self)
  | wake hqueue =>
      have hq := h.queue
      rw [hqueue, List.forall_mem_cons] at hq
      refine { h with queue := hq.2, code := ?_ }
      refine List.forall_mem_cons.mpr ⟨?_, hrest⟩
      intro κ hκ
      rw [List.mem_singleton.mp hκ]
      exact hq.1
  | exitGone hfind =>
      refine { h with peers := fun q hq => h.peers q (List.mem_of_mem_filter hq), code := ?_ }
      refine List.forall_mem_append.mpr ⟨?_, hrest⟩
      intro q hq κ hκ
      rw [keys_exitCode (List.mem_flatMap.mpr ⟨q, hq, hκ⟩)]
      exact h.peers _ (List.mem_of_find?_eq_some hfind)
  | exitMissed => exact { h with code := hrest }
  | upgrade =>
      refine { h with peers := ?_, code := ?_ }
      · intro q hq
        obtain ⟨pi, hpi, rfl⟩ := List.mem_map.mp hq
        have hin := h.peers pi hpi
        split <;> exact hin
      · refine List.forall_mem_append.mpr ⟨?_, hrest⟩
        intro q hq κ hκ
        obtain ⟨id, -, rfl⟩ := List.mem_map.mp hq
        cases hκ
  | stop hfind =>
      refine { h with servant := fun q hq => h.servant q (List.mem_of_mem_filter hq), code := ?_ }
      refine List.forall_mem_cons.mpr ⟨?_, hrest⟩
      intro κ hκ
      rw [List.mem_singleton.mp hκ]
      exact h.servant _ (List.mem_of_find?_eq_some hfind)
  | look _ hall =>
      refine { h with code := List.forall_mem_append.mpr ⟨?_, hrest⟩ }
      intro q hq κ hκ
      rw [(plain_counts (hall q hq) κ.addr).2.2.2] at hκ
      cases hκ

/-- A start goes on, or is over. -/
theorem Within.eraseIdx_starting {K : List Peer} (h : Within s code K) (k : ℕ) :
    ∀ st ∈ s.starting.eraseIdx k, st.info.peer ∈ K :=
  fun st hst => h.starting st (List.mem_of_mem_eraseIdx hst)

/-- Every action but the arrival of a host names no new connection. -/
theorem Within.step {K : List Peer} (h : Within s s.code K) (hstep : Step L s a s')
    (ha : ∀ addr, a ≠ .host addr) : Within s' s'.code K := by
  cases hstep with
  | host => exact absurd rfl (ha _)
  | blocked hch _ =>
      have hc := h.channel
      rw [hch, List.forall_mem_cons] at hc
      exact { h with channel := hc.2 }
  | recv hch _ _ =>
      have hc := h.channel
      rw [hch, List.forall_mem_cons] at hc
      refine { h with channel := hc.2, code := List.forall_mem_cons.mpr ⟨?_, h.code⟩ }
      intro κ hκ
      rw [List.mem_singleton.mp hκ]
      exact hc.1
  | connected hst _ =>
      have hin := h.starting _ (List.mem_of_getElem? hst)
      exact { h with
        starting := List.forall_mem_cons.mpr ⟨hin, h.eraseIdx_starting _⟩
        servant := List.forall_mem_cons.mpr
          ⟨hin, fun q hq => h.servant q (List.mem_of_mem_filter hq)⟩ }
  | refused hst _ hnext =>
      have hin := h.starting _ (List.mem_of_getElem? hst)
      have hexit : Within s (.exit _ (.exception false) :: s.code) K :=
        { h with code := List.forall_mem_cons.mpr ⟨by simpa [Pc.keys] using hin, h.code⟩ }
      have hnew := hexit.of_next hnext
      rw [State.code, flatMap_resume]
      exact { hnew with starting := List.forall_mem_cons.mpr ⟨hin, h.eraseIdx_starting _⟩ }
  | failed hst _ =>
      have hin := h.starting _ (List.mem_of_getElem? hst)
      exact { h with starting := List.forall_mem_cons.mpr ⟨hin, h.eraseIdx_starting _⟩ }
  | panicked _ _ => exact { h with starting := h.eraseIdx_starting _ }
  | success hst _ =>
      have hin := h.starting _ (List.mem_of_getElem? hst)
      exact { h with
        starting := h.eraseIdx_starting _
        peers := List.forall_mem_cons.mpr ⟨hin, fun q hq => h.peers q (List.mem_of_mem_filter hq)⟩ }
  | fails _ _ _ =>
      refine { h with starting := h.eraseIdx_starting _, code := ?_ }
      show ∀ pc ∈ Pc.release _ :: Pc.wake false :: s.code, ∀ κ ∈ pc.keys, κ ∈ K
      simpa [Pc.keys] using h.code
  | peerExit hfind =>
      refine { h with
        servant := fun q hq => h.servant q (List.mem_of_mem_filter hq)
        code := List.forall_mem_cons.mpr ⟨?_, h.code⟩ }
      intro κ hκ
      rw [List.mem_singleton.mp hκ]
      exact h.servant _ (List.mem_of_find?_eq_some hfind)
  | notFound _ => exact h
  | peerAlloc =>
      refine { h with code := ?_ }
      show ∀ pc ∈ Pc.ltPeerNum :: Pc.wake true :: s.code, ∀ κ ∈ pc.keys, κ ∈ K
      simpa [Pc.keys] using h.code
  | run ht hpc =>
      have hrun : Within s _ K :=
        { h with code := fun q hq => h.code q ((code_run ht).mem_iff.mpr hq) }
      rw [State.code, flatMap_resume, List.append_assoc]
      exact { hrun.of_next (next_of_pcStep hpc) with }
  | abort =>
      rename_i k
      have hsub := (List.eraseIdx_sublist s.tasks k).flatMap Task.code
      exact { h with code := fun q hq => h.code q (hsub.subset hq) }
  | cancel => exact { h with }

/-! ## The invariant -/

/-- The joint invariant of the containers. -/
structure LaunchInv (L : Limits) (s : State) (dead : List SocketAddr) : Prop where
  lawful : ∀ addr, (account s s.code addr).Lawful (addr ∈ dead)
  named : Named s s.code
  launcher : OneAtATime s
  quota : s.peers.length + s.starting.length ≤ L.torrentPeerConnLimit

theorem LaunchInv.init (L : Limits) : LaunchInv L .init [] := by
  refine ⟨?_, ⟨?_, ?_⟩, ⟨Nat.zero_le 1, ?_⟩, Nat.zero_le _⟩
  · intro addr
    exact ⟨Nat.zero_le _, Nat.le_refl 0, fun hd => absurd hd List.not_mem_nil⟩
  · intro κ hκ
    cases hκ
  · intro κ hκ
    cases hκ
  · intro t ht
    cases ht

theorem nextId_next (hnext : Next L s pc s₁ next) : s₁.nextId = s.nextId := by
  cases hnext <;> rfl

theorem nextId_step (hstep : Step L s a s') : s.nextId ≤ s'.nextId := by
  cases hstep with
  | host => exact Nat.le_succ _
  | run _ hpc => exact (nextId_next (next_of_pcStep hpc)).ge
  | refused _ _ hnext => exact (nextId_next hnext).ge
  | _ => exact Nat.le_refl _

/-- A host gets an id of its own. -/
theorem Named.host {addr : SocketAddr} (hn : Named s s.code) (hstep : Step L s (.host addr) s') :
    Named s' s'.code := by
  have hself := Within.self s s.code
  cases hstep with
  | host =>
      have hw : Within { s with nextId := s.nextId + 1 } (.send (.new s.nextId addr) :: s.code)
          (⟨s.nextId, addr⟩ :: keys s s.code) := by
        refine ⟨fun pi h => .tail _ (hself.queue pi h), fun pi h => .tail _ (hself.peers pi h),
          fun st h => .tail _ (hself.starting st h), fun pi h => .tail _ (hself.channel pi h),
          fun q h => .tail _ (hself.servant q h), List.forall_mem_cons.mpr ⟨?_, ?_⟩⟩
        · intro κ hκ
          rw [List.mem_singleton.mp hκ]
          exact List.mem_cons_self
        · intro pc hpc κ hκ
          exact .tail _ (hself.code pc hpc κ hκ)
      have hsub : ∀ κ, _ → κ = ⟨s.nextId, addr⟩ ∨ κ ∈ keys s s.code :=
        fun κ hκ => List.mem_cons.mp (within_iff.mp hw κ hκ)
      constructor
      · intro κ hκ
        rcases hsub κ hκ with rfl | hκ
        · exact Nat.lt_succ_self _
        · exact Nat.lt_succ_of_lt (hn.fresh κ hκ)
      · intro κ hκ κ' hκ' hid
        rcases hsub κ hκ with rfl | hκ <;> rcases hsub κ' hκ' with rfl | hκ'
        · rfl
        · exact absurd hid.symm (hn.fresh κ' hκ').ne
        · exact absurd hid (hn.fresh κ hκ).ne
        · exact hn.unique κ hκ κ' hκ' hid

theorem Named.step (hn : Named s s.code) (hstep : Step L s a s') : Named s' s'.code := by
  by_cases ha : ∃ addr, a = .host addr
  · obtain ⟨addr, rfl⟩ := ha
    exact hn.host hstep
  · have hw := (Within.self s s.code).step hstep fun addr heq => ha ⟨addr, heq⟩
    exact hn.mono (within_iff.mp hw) (nextId_step hstep)

/-- The addresses of the deadly exits so far. -/
def deadlyExits (s : State) (a : Act) (dead : List SocketAddr) : List SocketAddr :=
  match a with
  | .peerExit id (.exception true) =>
      ((s.servant.find? fun peer => peer.id == id).map Peer.addr).toList ++ dead
  | _ => dead

theorem mem_deadlyExits {id : ℕ} {reason : PeerExitReason} {dead : List SocketAddr} {peer : Peer}
    (hfind : s.servant.find? (fun peer => peer.id == id) = some peer)
    (h : addr ∈ deadlyExits s (.peerExit id reason) dead) :
    addr ∈ dead ∨ reason.deadly = true ∧ addr = peer.addr := by
  cases reason with
  | exception deadly =>
      cases deadly with
      | true =>
          simp only [deadlyExits, hfind, Option.map_some, Option.toList_some] at h
          rcases List.mem_cons.mp h with rfl | h
          · exact Or.inr ⟨rfl, rfl⟩
          · exact Or.inl h
      | false => exact Or.inl h
  | _ => exact Or.inl h

theorem deadlyExits_notFound {id : ℕ} {reason : PeerExitReason} {dead : List SocketAddr}
    (hfind : s.servant.find? (fun peer => peer.id == id) = none) :
    deadlyExits s (.peerExit id reason) dead = dead := by
  unfold deadlyExits
  split
  · next heq =>
      cases heq
      rw [hfind]
      rfl
  · rfl

/-- **One action keeps every account lawful.** -/
theorem LaunchInv.lawful_step {dead : List SocketAddr} (h : LaunchInv L s dead)
    (hstep : Step L s a s') (addr : SocketAddr) :
    (account s' s'.code addr).Lawful (addr ∈ deadlyExits s a dead) := by
  have hl := h.lawful addr
  cases hstep with
  | host =>
      refine hl.drop rfl ?_ rfl ?_ ?_ <;>
        simp [account, State.code, Pc.waits, Pc.exits, Pc.frees, PeerInfo.new]
  | blocked hch hw =>
      refine hl.drop rfl ?_ rfl ?_ ?_ <;> simp [account, State.code, hch, hw]
  | recv hch _ hnew => exact lawful_recv hl hch hnew
  | connected hst hstage => exact lawful_connected h.lawful h.named hst hstage addr
  | refused hst hstage hnext =>
      rw [State.code, flatMap_resume]
      exact lawful_refused h.lawful h.named hst hstage hnext addr
  | failed hst hstage =>
      rename_i k st
      have hfailed : (Stage.failed != Stage.success) = true := rfl
      refine lawful_fails hl hst (by simp [hstage]) [{ st with stage := .failed }] [] ?_ rfl rfl rfl
      rw [Counting.countP_cons_toNat, hfailed, Bool.true_and]
      exact (Nat.zero_add _).le
  | panicked hst hstage =>
      exact lawful_fails hl hst (by simp [hstage]) [] [] (Nat.zero_le _) rfl rfl rfl
  | success hst hstage => exact lawful_join h.lawful h.named hst hstage addr
  | fails hst hstage _ =>
      rename_i k st _
      refine lawful_fails hl hst (by simp [hstage]) [] [.release st.info.addr, .wake false] ?_
        rfl rfl rfl
      simp [Counting.countP_cons_toNat, Pc.waits]
  | peerExit hfind =>
      exact (lawful_peerExit h.lawful h.named hfind _ addr).imp (mem_deadlyExits hfind)
  | notFound hfind =>
      rw [deadlyExits_notFound hfind]
      exact hl
  | peerAlloc => exact hl
  | run ht hpc =>
      have hperm := code_run ht
      rw [State.code, flatMap_resume, List.append_assoc]
      refine lawful_next (· ∈ dead) ?_ (h.named.perm hperm) (next_of_pcStep hpc) addr
      intro b
      rw [← account_perm hperm]
      exact h.lawful b
  | abort =>
      rename_i k
      have hsub := (List.eraseIdx_sublist s.tasks k).flatMap Task.code
      refine hl.drop rfl ?_ rfl ?_ ?_
      · exact Nat.add_le_add_left hsub.countP_le _
      · exact Nat.add_le_add_left hsub.countP_le _
      · exact Nat.add_le_add_left hsub.countP_le _
  | cancel => exact hl

theorem LaunchInv.step {dead : List SocketAddr} (h : LaunchInv L s dead)
    (hstep : step L s a = some s') : LaunchInv L s' (deadlyExits s a dead) :=
  have hcases := step_cases hstep
  ⟨h.lawful_step hcases, h.named.step hcases, h.launcher.step hcases,
    quota_step h.launcher h.quota hcases⟩

/-! ## Runs -/

/-- The addresses among the peers being started, in `Dispatch.peers`, in the wait queue, and of
the waited peers in the channel. -/
def State.places (s : State) : List SocketAddr :=
  s.starting.map (fun st => st.info.addr) ++ s.peers.map PeerInfo.addr ++
    s.waitQueue.map PeerInfo.addr ++ (s.channel.filter PeerInfo.waited).map PeerInfo.addr

theorem count_places (s : State) (code : List Pc) (addr : SocketAddr) :
    s.places.count addr ≤ (account s code addr).waiting + (account s code addr).owned := by
  have hmap {α : Type} (l : List α) (f : α → SocketAddr) :
      (l.map f).count addr = l.countP fun x => f x == addr := by
    rw [List.count, List.countP_map]
    rfl
  have hsplit := List.countP_eq_countP_filter_add s.starting (fun st => st.info.addr == addr)
    fun st => st.stage == .success
  rw [List.countP_filter, List.countP_filter] at hsplit
  rw [State.places, List.count_append, List.count_append, List.count_append, hmap, hmap, hmap, hmap,
    List.countP_filter]
  simp only [account, bne, Bool.and_comm (_ == addr)] at hsplit ⊢
  omega

/-- **Quota, uniqueness and blacklist.**  In every run: the peers in `Dispatch.peers` and the ones
being started are within the limit; no address is in two places; and an address whose connection
had a deadly exit is not started again. -/
theorem launch_quota {as : List Act} {s : State} {dead : List SocketAddr}
    (hrun : Transition.FreeRun (Transition.observe (step L) deadlyExits) (.init, []) as (s, dead)) :
    s.peers.length + s.starting.length ≤ L.torrentPeerConnLimit ∧ s.places.Nodup ∧
      ∀ st ∈ s.starting, st.stage = .connecting → st.info.addr ∉ dead := by
  have hI : LaunchInv L s dead :=
    hrun.invariant_observe (I := LaunchInv L) (LaunchInv.init L) fun _ _ _ _ h _ hs => h.step hs
  refine ⟨hI.quota, ?_, ?_⟩
  · rw [List.nodup_iff_count_le_one]
    intro addr
    have honce := (hI.lawful addr).once
    have hle := Bool.toNat_le (account s s.code addr).guarded
    exact (count_places s s.code addr).trans (honce.trans hle)
  · intro st hst hstage hdead
    obtain ⟨k, hk⟩ := List.mem_iff_getElem?.mp hst
    have hpos := waiting_pos s.code hk (by simp [hstage])
    have hzero := ((hI.lawful st.info.addr).dead hdead).2.1
    omega

/-- One long-term and one temporary peer. -/
def smallLimits : Limits := ⟨1, 1, 1, by decide⟩

/-- A peer is started and has a deadly exit; its address comes again. -/
def deadlyRun : List Act :=
  [.host (.v4 1 1), .run 0 .go, .recv, .run 0 (.semaphore true), .connected 0, .join 0,
    .peerExit 1 (.exception true), .run 0 .go, .run 0 .go, .host (.v4 1 1), .run 0 .go, .recv]

/-- The address that comes again is not started. -/
theorem launch_quota_deadly :
    ∃ s : State,
      Transition.FreeRun (Transition.observe (step smallLimits) deadlyExits) (.init, []) deadlyRun
        (s, [.v4 1 1]) ∧
      s.channel = [] ∧ s.tasks = [] ∧ s.places.Nodup ∧
      ∀ st ∈ s.starting, st.stage = .connecting → st.info.addr ≠ .v4 1 1 := by
  have hexec : (Transition.exec (Transition.observe (step smallLimits) deadlyExits) (.init, [])
      deadlyRun).map (fun x => (x.1.channel, x.1.tasks, x.2)) = some ([], [], [.v4 1 1]) := by
    decide +kernel
  obtain ⟨⟨s, dead⟩, hrun, hview⟩ := Transition.Run.exists_of_exec hexec
  simp only [Prod.mk.injEq] at hview
  obtain ⟨hch, htasks, rfl⟩ := hview
  obtain ⟨-, hnodup, hdead⟩ := launch_quota hrun
  refine ⟨s, hrun, hch, htasks, hnodup, ?_⟩
  intro st hst hstage heq
  exact hdead st hst hstage (by rw [heq]; exact List.mem_singleton_self _)

end PeerLaunch
