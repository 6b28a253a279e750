/-
# The account of an address

What the launcher, the dispatcher and the servant have of one address, as numbers.  An address is
in at most one place: among the peers being started, in `Dispatch.peers`, in the wait queue, or on
its way between them; what guards it is `unstart_host`, which the launcher fills and four branches
of other components empty.

* `Account` counts, for one address, the places a peer can still be started from (`waiting`), the
  connections that were made (`owned`), what can still take such a connection out (`attached`),
  and how much of that gives the address back (`alive`);
* `Account.Lawful` is the invariant of one address, with what each kind of step does to it;
* `account` reads the numbers off a state, and the `lawful_` lemmas show that every piece of the
  code does to every address what is allowed.
-/
import Dorodoro.PeerLaunch
import Dorodoro.Counting

namespace PeerLaunch

/-! ## One address -/

/-- What the containers have of an address. -/
structure Account where
  /-- The address is in `unstart_host`. -/
  guarded : Bool
  /-- A peer that can be started, or whose address is about to be released. -/
  waiting : ℕ
  /-- A connection was made, and the launcher has it or will have it in `Dispatch.peers`. -/
  owned : ℕ
  /-- The servant has the connection, or its exit is on the way. -/
  attached : ℕ
  /-- The part of `attached` that is not a deadly exit. -/
  alive : ℕ

/-- The address is in one place; what is attached is owned; a dead one can neither be started nor
released. -/
structure Account.Lawful (x : Account) (dead : Prop) : Prop where
  once : x.waiting + x.owned ≤ x.guarded.toNat
  attached : x.attached ≤ x.owned
  dead : dead → x.guarded = true ∧ x.waiting = 0 ∧ x.alive = 0

namespace Account.Lawful

variable {x x' : Account} {dead : Prop}

/-- Nothing is added to the address, and a dead one stays dead. -/
theorem of_le (h : x.Lawful dead) (hg : x'.guarded = x.guarded)
    (hsum : x'.waiting + x'.owned ≤ x.waiting + x.owned) (hatt : x'.attached ≤ x'.owned)
    (hdead : x.waiting = 0 → x.alive = 0 → x'.waiting = 0 ∧ x'.alive = 0) : x'.Lawful dead := by
  refine ⟨?_, hatt, ?_⟩
  · rw [hg]
    exact hsum.trans h.once
  · intro hd
    obtain ⟨hgd, hwd, hld⟩ := h.dead hd
    exact ⟨hg.trans hgd, hdead hwd hld⟩

/-- Something waiting or attached is dropped, or nothing happens. -/
theorem drop (h : x.Lawful dead) (hg : x'.guarded = x.guarded) (hw : x'.waiting ≤ x.waiting)
    (ho : x'.owned = x.owned) (ht : x'.attached ≤ x.attached) (hl : x'.alive ≤ x.alive) :
    x'.Lawful dead := by
  have hatt := h.attached
  apply h.of_le hg
  · omega
  · omega
  · omega

theorem imp {dead' : Prop} (h : x.Lawful dead) (hd : dead' → dead) : x.Lawful dead' :=
  ⟨h.once, h.attached, fun hd' => h.dead (hd hd')⟩

/-- The launcher takes a new peer on. -/
theorem takeOn (h : x.Lawful dead) (hg : x.guarded = false) (hg' : x'.guarded = true)
    (hw : x'.waiting = x.waiting + 1) (ho : x'.owned = x.owned) (ht : x'.attached = x.attached) :
    x'.Lawful dead := by
  have honce := h.once
  have hatt := h.attached
  rw [hg] at honce
  refine ⟨?_, by omega, ?_⟩
  · rw [hg', Bool.toNat_true]
    rw [Bool.toNat_false] at honce
    omega
  · intro hd
    rw [(h.dead hd).1] at hg
    cases hg

/-- The address is taken out of `unstart_host`. -/
theorem release (h : x.Lawful dead) (hw : x'.waiting + 1 = x.waiting) (ho : x'.owned = x.owned)
    (ht : x'.attached = x.attached) : x'.Lawful dead := by
  have honce := h.once
  have hatt := h.attached
  have hone := Bool.toNat_le x.guarded
  refine ⟨by omega, by omega, ?_⟩
  intro hd
  have hwd := (h.dead hd).2.1
  omega

/-- A connection is made; the servant has it (`n = 1`) or refuses it (`n = 0`). -/
theorem connect (n : ℕ) (h : x.Lawful dead) (hn : n ≤ 1) (hg : x'.guarded = x.guarded)
    (hw : x'.waiting + 1 = x.waiting) (ho : x'.owned = x.owned + 1)
    (ht : x'.attached = x.attached + n) : x'.Lawful dead := by
  have honce := h.once
  have hatt := h.attached
  refine ⟨by rw [hg]; omega, by omega, ?_⟩
  intro hd
  have hwd := (h.dead hd).2.1
  omega

/-- A deadly exit begins: nothing is left that could give the address back. -/
theorem condemn (h : x.Lawful dead) (hle : x.alive ≤ x.attached) (hg : x'.guarded = x.guarded)
    (hw : x'.waiting = x.waiting) (ho : x'.owned = x.owned) (ht : x'.attached = x.attached)
    (hl : x'.alive + 1 = x.alive) : x'.Lawful True := by
  have honce := h.once
  have hatt := h.attached
  have hone := Bool.toNat_le x.guarded
  refine ⟨by rw [hg]; omega, by omega, ?_⟩
  intro _
  refine ⟨?_, by omega, by omega⟩
  rw [hg]
  cases hx : x.guarded with
  | true => rfl
  | false =>
      rw [hx, Bool.toNat_false] at honce
      omega

/-- A connection leaves `Dispatch.peers`; unless the exit is deadly (`n = 0`), its peer goes back
to the wait queue or its address is released (`n = 1`). -/
theorem leave (n : ℕ) (h : x.Lawful dead) (hn : n ≤ 1) (hg : x'.guarded = x.guarded)
    (hw : x'.waiting = x.waiting + n) (ho : x'.owned + 1 = x.owned)
    (ht : x'.attached + 1 = x.attached) (hl : x'.alive + n = x.alive) : x'.Lawful dead := by
  have hatt := h.attached
  apply h.of_le hg
  · omega
  · omega
  · omega

end Account.Lawful

/-! ## The accounts of a state -/

/-- The code holds a peer of the address that can be started or released. -/
def Pc.waits (addr : SocketAddr) : Pc → Bool
  | send pi => pi.waited && pi.addr == addr
  | checkLimit pi | park pi => pi.addr == addr
  | release b => b == addr
  | _ => false

/-- The code is the exit of a connection to the address. -/
def Pc.exits (addr : SocketAddr) : Pc → Bool
  | exit peer _ => peer.addr == addr
  | _ => false

/-- The reason is a `DeadlyError`. -/
def PeerExitReason.deadly : PeerExitReason → Bool
  | exception deadly => deadly
  | _ => false

/-- The code is an exit that gives the address back. -/
def Pc.frees (addr : SocketAddr) : Pc → Bool
  | exit peer reason => peer.addr == addr && !reason.deadly
  | _ => false

/-- The account of an address, with the code the tasks have still to run. -/
def account (s : State) (code : List Pc) (addr : SocketAddr) : Account where
  guarded := decide (addr ∈ s.unstartHost)
  waiting := s.waitQueue.countP (fun pi => pi.addr == addr) +
    s.channel.countP (fun pi => pi.waited && pi.addr == addr) +
    s.starting.countP (fun st => st.stage != .success && st.info.addr == addr) +
    code.countP (Pc.waits addr)
  owned := s.peers.countP (fun pi => pi.addr == addr) +
    s.starting.countP fun st => st.stage == .success && st.info.addr == addr
  attached := s.servant.countP (fun peer => peer.addr == addr) + code.countP (Pc.exits addr)
  alive := s.servant.countP (fun peer => peer.addr == addr) + code.countP (Pc.frees addr)

/-- The connections the code names. -/
def Pc.keys : Pc → List Peer
  | send pi | checkLimit pi | park pi => [pi.peer]
  | exit peer _ => [peer]
  | _ => []

/-- Every connection a container or the code names. -/
def keys (s : State) (code : List Pc) : List Peer :=
  s.waitQueue.map PeerInfo.peer ++ s.peers.map PeerInfo.peer ++
    s.starting.map (fun st => st.info.peer) ++ s.channel.map PeerInfo.peer ++ s.servant ++
    code.flatMap Pc.keys

/-- An id is given out once and stays with its address. -/
structure Named (s : State) (code : List Pc) : Prop where
  fresh : ∀ κ ∈ keys s code, κ.id < s.nextId
  unique : ∀ κ ∈ keys s code, ∀ κ' ∈ keys s code, κ.id = κ'.id → κ.addr = κ'.addr

/-- What the tasks have still to do. -/
def State.code (s : State) : List Pc := s.tasks.flatMap Task.code

variable {L : Limits} {s s' s₁ : State} {a : Act} {addr : SocketAddr} {pc : Pc}
  {code code' next rest : List Pc}

/-- The state and the code name connections of a list only. -/
structure Within (s : State) (code : List Pc) (K : List Peer) : Prop where
  queue : ∀ pi ∈ s.waitQueue, pi.peer ∈ K
  peers : ∀ pi ∈ s.peers, pi.peer ∈ K
  starting : ∀ st ∈ s.starting, st.info.peer ∈ K
  channel : ∀ pi ∈ s.channel, pi.peer ∈ K
  servant : ∀ peer ∈ s.servant, peer ∈ K
  code : ∀ pc ∈ code, ∀ κ ∈ pc.keys, κ ∈ K

theorem within_iff {K : List Peer} : Within s code K ↔ ∀ κ ∈ keys s code, κ ∈ K := by
  simp only [keys, List.forall_mem_append, List.forall_mem_map, List.mem_flatMap]
  constructor
  · intro h
    refine ⟨⟨⟨⟨⟨h.queue, h.peers⟩, h.starting⟩, h.channel⟩, h.servant⟩, ?_⟩
    rintro κ ⟨pc, hpc, hκ⟩
    exact h.code pc hpc κ hκ
  · rintro ⟨⟨⟨⟨⟨hq, hp⟩, hst⟩, hc⟩, hv⟩, hcode⟩
    exact ⟨hq, hp, hst, hc, hv, fun pc hpc κ hκ => hcode κ ⟨pc, hpc, hκ⟩⟩

/-- A state names what it names. -/
theorem Within.self (s : State) (code : List Pc) : Within s code (keys s code) :=
  within_iff.mpr fun _ h => h

theorem account_perm (h : code.Perm code') (addr : SocketAddr) :
    account s code addr = account s code' addr := by
  simp only [account, h.countP_eq]

theorem account_alive_le (s : State) (code : List Pc) (addr : SocketAddr) :
    (account s code addr).alive ≤ (account s code addr).attached := by
  apply Nat.add_le_add_left
  apply List.countP_mono_left
  intro pc _ hfrees
  cases pc with
  | exit peer reason =>
      simp only [Pc.frees, Bool.and_eq_true] at hfrees
      exact hfrees.1
  | _ => cases hfrees

theorem Named.mono (h : Named s code) (hsub : ∀ κ ∈ keys s' code', κ ∈ keys s code)
    (hid : s.nextId ≤ s'.nextId) : Named s' code' :=
  ⟨fun κ hκ => Nat.lt_of_lt_of_le (h.fresh κ (hsub κ hκ)) hid,
    fun κ hκ κ' hκ' => h.unique κ (hsub κ hκ) κ' (hsub κ' hκ')⟩

theorem Named.perm (h : Named s code) (hp : code.Perm code') : Named s code' := by
  refine h.mono ?_ (Nat.le_refl _)
  intro κ hκ
  simp only [keys, List.mem_append] at hκ ⊢
  rwa [(hp.flatMap_right Pc.keys).mem_iff]

theorem plain_counts (hpc : pc.plain = true) (addr : SocketAddr) :
    pc.waits addr = false ∧ pc.exits addr = false ∧ pc.frees addr = false ∧ pc.keys = [] := by
  cases pc with
  | send _ | checkLimit _ | release _ | park _ | exit _ _ => cases hpc
  | _ => exact ⟨rfl, rfl, rfl, rfl⟩

/-- Code that holds nothing does not count. -/
theorem account_plain (hplain : ∀ q ∈ next, Pc.plain q = true) (addr : SocketAddr) :
    account s (next ++ rest) addr = account s rest addr := by
  have hzero (f : Pc → Bool) (hf : ∀ q ∈ next, f q = false) : next.countP f = 0 := by
    rw [List.countP_eq_zero]
    intro q hq
    rw [hf q hq]
    exact Bool.false_ne_true
  simp only [account, List.countP_append, Nat.zero_add,
    hzero _ fun q hq => (plain_counts (hplain q hq) addr).1,
    hzero _ fun q hq => (plain_counts (hplain q hq) addr).2.1,
    hzero _ fun q hq => (plain_counts (hplain q hq) addr).2.2.1]

theorem account_cons_plain (hpc : pc.plain = true) :
    account s (pc :: rest) addr = account s rest addr :=
  account_plain (List.forall_mem_singleton.mpr hpc) addr

/-! ## One step of a task -/

section FilterId

variable {α : Type*} {l : List α} (id : α → ℕ) (name : α → SocketAddr) {i : ℕ} {b : SocketAddr}

/-- Taking out an id takes out no address but its own. -/
theorem countP_filter_of_name (h : ∀ y ∈ l, id y = i → name y ≠ addr) :
    (l.filter fun y => id y != i).countP (fun y => name y == addr) =
      l.countP fun y => name y == addr := by
  apply Counting.countP_filter_of_imp
  intro y hy hid
  have hi : id y = i := by simpa using hid
  exact beq_eq_false_iff_ne.mpr (h y hy hi)

/-- Taking out an id takes out one address. -/
theorem countP_filter_id (hname : ∀ y ∈ l, id y = i → name y = b) (hne : addr ≠ b) :
    (l.filter fun y => id y != i).countP (fun y => name y == addr) =
      l.countP fun y => name y == addr := by
  apply countP_filter_of_name
  intro y hy hi
  rw [hname y hy hi]
  exact hne.symm

/-- Putting in an id whose address is nowhere takes nothing out. -/
theorem countP_filter_new (hname : ∀ y ∈ l, id y = i → name y = b)
    (hzero : l.countP (fun y => name y == b) = 0) (addr : SocketAddr) :
    (l.filter fun y => id y != i).countP (fun y => name y == addr) =
      l.countP fun y => name y == addr := by
  apply countP_filter_of_name
  intro y hy hi
  exact absurd (beq_iff_eq.mpr (hname y hy hi)) (List.countP_eq_zero.mp hzero y hy)

end FilterId

theorem exitCode_counts (pi : PeerInfo) (reason : PeerExitReason) (addr : SocketAddr) :
    (exitCode pi reason).countP (Pc.waits addr) = (pi.addr == addr && !reason.deadly).toNat ∧
      (exitCode pi reason).countP (Pc.exits addr) = 0 ∧
      (exitCode pi reason).countP (Pc.frees addr) = 0 := by
  have hcount (pc : Pc) (temp : Bool) (h : pc.waits addr = (pi.addr == addr)) :
      [pc, .wake temp].countP (Pc.waits addr) = (pi.addr == addr && !false).toNat := by
    rw [Counting.countP_cons_toNat, h, Bool.not_false, Bool.and_true]
    exact Nat.zero_add _
  cases reason with
  | exception deadly =>
      cases deadly with
      | true => exact ⟨by simp [exitCode, Pc.waits, PeerExitReason.deadly], rfl, rfl⟩
      | false => exact ⟨hcount _ _ rfl, rfl, rfl⟩
  | downloadFinished => exact ⟨hcount _ false rfl, rfl, rfl⟩
  | _ => exact ⟨hcount _ _ rfl, rfl, rfl⟩

/-- The names of `Dispatch.peers` agree with an exit. -/
theorem Named.peers_addr {peer : Peer} {reason : PeerExitReason}
    (hn : Named s (.exit peer reason :: rest)) {q : PeerInfo} (hq : q ∈ s.peers)
    (hid : q.id = peer.id) : q.addr = peer.addr := by
  have hw := Within.self s (.exit peer reason :: rest)
  have hpeer : peer ∈ keys s (.exit peer reason :: rest) :=
    hw.code _ List.mem_cons_self peer List.mem_cons_self
  exact hn.unique q.peer (hw.peers q hq) peer hpeer hid

/-- `on_peer_exit` of a connection that is in `Dispatch.peers`. -/
theorem lawful_exitGone {dead : Prop} {peer : Peer} {reason : PeerExitReason} {pi : PeerInfo}
    (h : (account s (.exit peer reason :: rest) addr).Lawful dead)
    (hn : Named s (.exit peer reason :: rest))
    (hfind : s.peers.find? (fun pi => pi.id == peer.id) = some pi) :
    (account { s with peers := s.peers.filter fun q => q.id != peer.id }
      (exitCode pi reason ++ rest) addr).Lawful dead := by
  have hmem : pi ∈ s.peers := List.mem_of_find?_eq_some hfind
  have hid : pi.id = peer.id := by simpa using List.find?_some hfind
  have haddr : pi.addr = peer.addr := hn.peers_addr hmem hid
  obtain ⟨hwaits, hexits, hfrees⟩ := exitCode_counts pi reason addr
  by_cases hb : addr = peer.addr
  · subst hb
    -- the connection is the only one of its address, so removing its id removes one
    have hone : s.peers.countP (fun q => q.addr == peer.addr) ≤ 1 := by
      have honce := h.once
      have hle := Bool.toNat_le (account s (.exit peer reason :: rest) peer.addr).guarded
      simp only [account] at honce hle
      omega
    obtain ⟨hzero, hbefore⟩ := Counting.countP_filter_of_le_one (q := fun q => q.id != peer.id)
      hmem (by simpa using haddr) (by simpa using hid) hone
    rw [haddr, beq_self_eq_true, Bool.true_and] at hwaits
    refine h.leave (!reason.deadly).toNat (Bool.toNat_le _) rfl ?_ ?_ ?_ ?_
    · simp only [account, List.countP_append, Counting.countP_cons_toNat, hwaits, Pc.waits,
        Bool.toNat_false]
      omega
    · simp only [account, hzero, hbefore]
      omega
    · simp only [account, List.countP_append, Counting.countP_cons_toNat, hexits, Pc.exits,
        beq_self_eq_true, Bool.toNat_true]
      omega
    · simp only [account, List.countP_append, Counting.countP_cons_toNat, hfrees, Pc.frees,
        beq_self_eq_true, Bool.true_and]
      omega
  · have hne : (pi.addr == addr) = false := by
      rw [haddr]
      simpa using Ne.symm hb
    rw [hne, Bool.false_and, Bool.toNat_false] at hwaits
    have hpeers := countP_filter_id PeerInfo.id PeerInfo.addr
      (fun q hq hid => hn.peers_addr hq hid) hb
    refine h.drop rfl ?_ ?_ ?_ ?_
    · simp only [account, List.countP_append, List.countP_cons, hwaits]
      omega
    · simp only [account, hpeers]
    · simp only [account, List.countP_append, List.countP_cons, hexits]
      omega
    · simp only [account, List.countP_append, List.countP_cons, hfrees]
      omega

/-- `take_servant_context` takes out one connection. -/
theorem servant_filter {dead : SocketAddr → Prop} {peer : Peer} {id : ℕ}
    (h : ∀ addr, (account s rest addr).Lawful (dead addr)) (hn : Named s rest)
    (hfind : s.servant.find? (fun peer => peer.id == id) = some peer) (addr : SocketAddr) :
    (s.servant.filter fun q => q.id != id).countP (fun q => q.addr == addr) +
        (peer.addr == addr).toNat =
      s.servant.countP fun q => q.addr == addr := by
  have hmem : peer ∈ s.servant := List.mem_of_find?_eq_some hfind
  have hid : peer.id = id := by simpa using List.find?_some hfind
  have hkey := (Within.self s rest).servant
  by_cases hb : addr = peer.addr
  · subst hb
    have hone : s.servant.countP (fun q => q.addr == peer.addr) ≤ 1 := by
      have honce := (h peer.addr).once
      have hatt := (h peer.addr).attached
      have hle := Bool.toNat_le (account s rest peer.addr).guarded
      simp only [account] at honce hatt hle
      omega
    obtain ⟨hzero, hbefore⟩ := Counting.countP_filter_of_le_one (q := fun q => q.id != id)
      hmem (beq_self_eq_true peer.addr) (by simpa using hid) hone
    rw [hzero, hbefore, beq_self_eq_true, Bool.toNat_true]
  · have hne : (peer.addr == addr) = false := by simpa using Ne.symm hb
    have hname : ∀ q ∈ s.servant, q.id = id → q.addr = peer.addr := by
      intro q hq hqid
      exact hn.unique q (hkey q hq) peer (hkey peer hmem) (by rw [hqid, hid])
    rw [hne, Bool.toNat_false, Nat.add_zero]
    exact countP_filter_id Peer.id Peer.addr hname hb

/-- The servant begins the exit of a connection. -/
theorem lawful_peerExit {dead : SocketAddr → Prop} {peer : Peer} {id : ℕ}
    (h : ∀ addr, (account s rest addr).Lawful (dead addr)) (hn : Named s rest)
    (hfind : s.servant.find? (fun peer => peer.id == id) = some peer) (reason : PeerExitReason)
    (addr : SocketAddr) :
    (account { s with servant := s.servant.filter fun q => q.id != id } (.exit peer reason :: rest)
      addr).Lawful (dead addr ∨ reason.deadly = true ∧ addr = peer.addr) := by
  have hfilter := servant_filter h hn hfind addr
  by_cases hd : reason.deadly = true ∧ addr = peer.addr
  · -- from here on the address is on the blacklist
    obtain ⟨hdeadly, rfl⟩ := hd
    have hlawful : (account { s with servant := s.servant.filter fun q => q.id != id }
        (.exit peer reason :: rest) peer.addr).Lawful True := by
      rw [beq_self_eq_true, Bool.toNat_true] at hfilter
      refine (h peer.addr).condemn (account_alive_le s rest peer.addr) rfl ?_ rfl ?_ ?_
      · simp [account, Pc.waits]
      · simp only [account, Counting.countP_cons_toNat, Pc.exits, beq_self_eq_true, Bool.toNat_true]
        omega
      · simp only [account, Counting.countP_cons_toNat, Pc.frees, hdeadly, Bool.not_true,
          Bool.and_false, Bool.toNat_false]
        omega
    exact ⟨hlawful.once, hlawful.attached, fun _ => hlawful.dead trivial⟩
  · have hlawful : (account { s with servant := s.servant.filter fun q => q.id != id }
        (.exit peer reason :: rest) addr).Lawful (dead addr) := by
      refine (h addr).drop rfl ?_ rfl ?_ ?_
      · simp [account, Pc.waits]
      · simp only [account, Counting.countP_cons_toNat, Pc.exits]
        omega
      · have hle : (peer.addr == addr && !reason.deadly).toNat ≤ (peer.addr == addr).toNat := by
          cases peer.addr == addr <;> cases reason.deadly <;> decide
        simp only [account, Counting.countP_cons_toNat, Pc.frees]
        omega
    refine ⟨hlawful.once, hlawful.attached, ?_⟩
    rintro (hdead | hnew)
    · exact hlawful.dead hdead
    · exact absurd hnew hd

/-- **One step of a task keeps every account lawful.** -/
theorem lawful_next (dead : SocketAddr → Prop)
    (h : ∀ addr, (account s (pc :: rest) addr).Lawful (dead addr)) (hn : Named s (pc :: rest))
    (hnext : Next L s pc s₁ next) (addr : SocketAddr) :
    (account s₁ (next ++ rest) addr).Lawful (dead addr) := by
  cases hnext with
  | send | queue | park =>
      -- the peer moves from the task into a container
      refine (h addr).drop rfl ?_ rfl ?_ ?_ <;>
        simp [account, Counting.countP_cons_toNat, Pc.waits, Pc.exits, Pc.frees]
      omega
  | start _ =>
      have hstage : (Stage.connecting != Stage.success) = true := rfl
      refine (h addr).drop rfl ?_ ?_ ?_ ?_ <;>
        simp [account, Counting.countP_cons_toNat, Pc.waits, Pc.exits, Pc.frees, hstage]
      omega
  | release =>
      rename_i b
      by_cases hb : b = addr
      · subst hb
        refine (h b).release ?_ rfl ?_ <;>
          simp [account, Counting.countP_cons_toNat, Pc.waits, Pc.exits]
        omega
      · have hne : addr ≠ b := fun heq => hb heq.symm
        refine (h addr).drop ?_ ?_ rfl ?_ ?_ <;>
          simp [account, Counting.countP_cons_toNat, Pc.waits, hne]
  | wake hqueue =>
      refine (h addr).drop rfl ?_ rfl ?_ ?_ <;>
        simp [account, Counting.countP_cons_toNat, Pc.waits, Pc.exits, Pc.frees, hqueue]
      omega
  | exitGone hfind => exact lawful_exitGone (h addr) hn hfind
  | exitMissed =>
      refine (h addr).drop rfl ?_ rfl ?_ ?_ <;>
        simp [account, Counting.countP_cons_toNat, Pc.waits]
  | upgrade =>
      rename_i id old
      have haddr : ((fun pi : PeerInfo => pi.addr == addr) ∘ fun pi : PeerInfo =>
          if pi.id == id then pi.setLtRunning true else pi) = fun pi => pi.addr == addr := by
        funext pi
        dsimp only [Function.comp_apply]
        split <;> rfl
      have hsame : (account { s with peers := s.peers.map fun pi =>
          if pi.id == id then pi.setLtRunning true else pi } rest addr) = account s rest addr := by
        simp only [account, List.countP_map, haddr]
      have hpc : (Pc.upgrade id old).plain = true := rfl
      rw [account_plain (by simp [Pc.plain]), hsame, ← account_cons_plain hpc]
      exact h addr
  | @stop id peer hfind =>
      have hpc : (Pc.stop id).plain = true := rfl
      have hrest : ∀ addr, (account s rest addr).Lawful (dead addr) := by
        intro addr
        rw [← account_cons_plain hpc]
        exact h addr
      have hnamed : Named s rest := hn.mono (by simp [keys, Pc.keys]) (Nat.le_refl _)
      have hlawful := lawful_peerExit hrest hnamed hfind .periodicPeerReplace addr
      exact ⟨hlawful.once, hlawful.attached, fun hd => hlawful.dead (Or.inl hd)⟩
  | look hpc hall =>
      rw [account_plain hall, ← account_cons_plain hpc]
      exact h addr

/-! ## Receiving and starting -/

/-- Counting what is being started, when one start goes on. -/
theorem countP_starting {k : ℕ} {st : Start} (hst : s.starting[k]? = some st)
    (f : Start → Bool) :
    (s.starting.eraseIdx k).countP f + (f st).toNat = s.starting.countP f := by
  rw [← (Counting.cons_eraseIdx_perm hst).countP_eq, Counting.countP_cons_toNat]

/-- A peer is received: its address is in `unstart_host` already, or free. -/
theorem lawful_recv {dead : Prop} {pi : PeerInfo} {channel : List PeerInfo}
    (h : (account s code addr).Lawful dead) (hch : s.channel = pi :: channel)
    (hnew : pi.waited = false → pi.addr ∉ s.unstartHost) :
    (account { s with channel := channel, unstartHost := insert pi.addr s.unstartHost }
      (.checkLimit pi :: code) addr).Lawful dead := by
  have hcount : s.channel.countP (fun q => q.waited && q.addr == addr) =
      channel.countP (fun q => q.waited && q.addr == addr) +
        (pi.waited && pi.addr == addr).toNat := by
    rw [hch, Counting.countP_cons_toNat]
  by_cases hb : addr = pi.addr
  · subst hb
    rw [beq_self_eq_true, Bool.and_true] at hcount
    cases hw : pi.waited with
    | true =>
        -- the peer counted as waiting, so its address is guarded
        have hguard : pi.addr ∈ s.unstartHost := by
          have honce := h.once
          simp only [account, hcount, hw, Bool.toNat_true] at honce
          by_contra hnot
          rw [decide_eq_false hnot, Bool.toNat_false] at honce
          omega
        refine h.drop ?_ ?_ rfl ?_ ?_ <;>
          simp [account, hguard, hcount, hw, Pc.waits, Pc.exits, Pc.frees]
        omega
    | false =>
        have hfree := hnew hw
        refine h.takeOn ?_ ?_ ?_ rfl ?_ <;>
          simp [account, Counting.countP_cons_toNat, hfree, hcount, hw, Pc.waits, Pc.exits]
        omega
  · have hne : (pi.addr == addr) = false := by simpa using Ne.symm hb
    rw [hne, Bool.and_false] at hcount
    refine h.drop ?_ ?_ rfl ?_ ?_ <;>
      simp [account, hb, hcount, hne, Pc.waits, Pc.exits, Pc.frees]

/-- The connection of a start is not in `Dispatch.peers` and not in the servant yet. -/
theorem Account.Lawful.not_owned {dead : Prop} {x : Account} (h : x.Lawful dead)
    (hw : 0 < x.waiting) : x.owned = 0 ∧ x.attached = 0 := by
  have honce := h.once
  have hatt := h.attached
  have hle := Bool.toNat_le x.guarded
  omega

section Start

variable {dead : SocketAddr → Prop} {k : ℕ} {st : Start}

/-- A start that has not succeeded counts as waiting. -/
theorem waiting_pos (code : List Pc) (hst : s.starting[k]? = some st)
    (hstage : st.stage ≠ .success) :
    0 < (account s code st.info.addr).waiting := by
  have hpos : 0 < s.starting.countP fun q =>
      q.stage != .success && q.info.addr == st.info.addr := by
    apply List.countP_pos_iff.mpr
    exact ⟨st, List.mem_of_getElem? hst, by simpa using hstage⟩
  simp only [account]
  omega

/-- A connection is made, and the servant has it (`n = 1`) or not (`n = 0`). -/
theorem lawful_success {p : Prop} (n : ℕ) (hle : n ≤ 1) (h : (account s code addr).Lawful p)
    (hst : s.starting[k]? = some st) (hstage : st.stage = .connecting) {servant : List Peer}
    (hservant : servant.countP (fun q => q.addr == addr) =
      s.servant.countP (fun q => q.addr == addr) + n * (st.info.addr == addr).toNat) :
    (account { s with
      servant := servant
      starting := { st with stage := .success } :: s.starting.eraseIdx k } code addr).Lawful p := by
  have hwait := countP_starting hst fun q => q.stage != .success && q.info.addr == addr
  have hown := countP_starting hst fun q => q.stage == .success && q.info.addr == addr
  have hnot : (Stage.connecting != Stage.success) = true := rfl
  have hnot' : (Stage.connecting == Stage.success) = false := rfl
  rw [hstage, hnot, Bool.true_and] at hwait
  rw [hstage, hnot', Bool.false_and, Bool.toNat_false] at hown
  cases hb : st.info.addr == addr with
  | true =>
      rw [hb, Bool.toNat_true] at hwait hservant
      refine h.connect n hle rfl ?_ ?_ ?_ <;>
        simp [account, hb, hservant] <;> omega
  | false =>
      rw [hb, Bool.toNat_false] at hwait hservant
      refine h.drop rfl ?_ ?_ ?_ ?_ <;>
        simp [account, hb, hservant] <;> omega

/-- The servant accepts a connection. -/
theorem lawful_connected (h : ∀ addr, (account s code addr).Lawful (dead addr)) (hn : Named s code)
    (hst : s.starting[k]? = some st) (hstage : st.stage = .connecting) (addr : SocketAddr) :
    (account { s with
      servant := st.info.peer :: s.servant.filter fun q => q.id != st.info.id
      starting := { st with stage := .success } :: s.starting.eraseIdx k } code addr).Lawful
        (dead addr) := by
  have hzero : s.servant.countP (fun q => q.addr == st.info.addr) = 0 := by
    have hnone := ((h st.info.addr).not_owned (waiting_pos code hst (by simp [hstage]))).2
    simp only [account] at hnone
    omega
  have hw := Within.self s code
  have hname : ∀ q ∈ s.servant, q.id = st.info.id → q.addr = st.info.addr := by
    intro q hq hid
    exact hn.unique q (hw.servant q hq) st.info.peer (hw.starting st (List.mem_of_getElem? hst)) hid
  refine lawful_success 1 (Nat.le_refl 1) (h addr) hst hstage ?_
  rw [Counting.countP_cons_toNat, countP_filter_new Peer.id Peer.addr hname hzero addr, Nat.one_mul]
  rfl

/-- The servant refuses a connection: `on_peer_exit` finds nothing. -/
theorem lawful_refused (h : ∀ addr, (account s code addr).Lawful (dead addr)) (hn : Named s code)
    (hst : s.starting[k]? = some st) (hstage : st.stage = .connecting)
    (hnext : Next L s (.exit st.info.peer (.exception false)) s₁ next) (addr : SocketAddr) :
    (account { s₁ with starting := { st with stage := .success } :: s.starting.eraseIdx k }
      (next ++ code) addr).Lawful (dead addr) := by
  have hw := Within.self s code
  cases hnext with
  | exitMissed =>
      refine lawful_success 0 (Nat.zero_le 1) (h addr) hst hstage ?_
      rw [Nat.zero_mul]
      rfl
  | look hplain _ => cases hplain
  | exitGone hfind =>
      rename_i pi
      have hmem : pi ∈ s.peers := List.mem_of_find?_eq_some hfind
      have hid : pi.id = st.info.peer.id := by simpa using List.find?_some hfind
      have haddr : pi.addr = st.info.addr := hn.unique pi.peer (hw.peers pi hmem) st.info.peer
        (hw.starting st (List.mem_of_getElem? hst)) hid
      have hnone := ((h st.info.addr).not_owned (waiting_pos code hst (by simp [hstage]))).1
      have hpos : 0 < s.peers.countP fun q => q.addr == st.info.addr :=
        List.countP_pos_iff.mpr ⟨pi, hmem, by simpa using haddr⟩
      simp only [account] at hnone
      omega

/-- The launcher puts a connection into `Dispatch.peers`. -/
theorem lawful_join (h : ∀ addr, (account s code addr).Lawful (dead addr)) (hn : Named s code)
    (hst : s.starting[k]? = some st) (hstage : st.stage = .success) (addr : SocketAddr) :
    (account { s with
      peers := st.info :: s.peers.filter fun q => q.id != st.info.id
      starting := s.starting.eraseIdx k } code addr).Lawful (dead addr) := by
  have hw := Within.self s code
  have hname : ∀ q ∈ s.peers, q.id = st.info.id → q.addr = st.info.addr := by
    intro q hq hid
    exact hn.unique q.peer (hw.peers q hq) st.info.peer
      (hw.starting st (List.mem_of_getElem? hst)) hid
  have hzero : s.peers.countP (fun q => q.addr == st.info.addr) = 0 := by
    have honce := (h st.info.addr).once
    have hle := Bool.toNat_le (account s code st.info.addr).guarded
    have hpos : 0 < s.starting.countP fun q => q.stage == .success && q.info.addr == st.info.addr :=
      List.countP_pos_iff.mpr ⟨st, List.mem_of_getElem? hst, by simp [hstage]⟩
    simp only [account] at honce hle
    omega
  have hwait := countP_starting hst fun q => q.stage != .success && q.info.addr == addr
  have hown := countP_starting hst fun q => q.stage == .success && q.info.addr == addr
  have hpeers := countP_filter_new PeerInfo.id PeerInfo.addr hname hzero addr
  rw [hstage] at hwait hown
  refine (h addr).drop rfl ?_ ?_ ?_ ?_ <;>
    simp [account, Counting.countP_cons_toNat, hpeers] at hwait hown ⊢ <;> omega

/-- A start fails, is given up, or its failure is handled: the address waits on, or is gone. -/
theorem lawful_fails {p : Prop} (h : (account s code addr).Lawful p)
    (hst : s.starting[k]? = some st) (hstage : st.stage ≠ .success) (starting : List Start)
    (next : List Pc)
    (hwaits : starting.countP (fun q => q.stage != .success && q.info.addr == addr) +
      next.countP (Pc.waits addr) ≤ (st.info.addr == addr).toNat)
    (howned : starting.countP (fun q => q.stage == .success && q.info.addr == addr) = 0)
    (hexits : next.countP (Pc.exits addr) = 0) (hfrees : next.countP (Pc.frees addr) = 0) :
    (account { s with starting := starting ++ s.starting.eraseIdx k } (next ++ code) addr).Lawful
      p := by
  have hwait := countP_starting hst fun q => q.stage != .success && q.info.addr == addr
  have hown := countP_starting hst fun q => q.stage == .success && q.info.addr == addr
  have hnot : (st.stage != .success) = true := by simpa using hstage
  have hnot' : (st.stage == .success) = false := by simpa using hstage
  rw [hnot, Bool.true_and] at hwait
  rw [hnot', Bool.false_and, Bool.toNat_false] at hown
  refine h.drop rfl ?_ ?_ ?_ ?_ <;>
    simp only [account, List.countP_append] <;> omega

end Start

end PeerLaunch
