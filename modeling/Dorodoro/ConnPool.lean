/-
# The connection pool under the RSS refresh (`core/rss.rs`, `core/db.rs`)

The pool has `DATABASE_CONN_LIMIT` permits, and whoever has a connection has one of them.  A
refresh of the feeds keeps its own connection until all its tasks are done; each task, once its
feed has changed, keeps one over `consumer_not_read` and over every `add_task`, which ask for
further ones.  The number of tasks at a time is bounded by `rss_refresh_concurrency`.

* `Phase` is the place of a `flush_feed` in its code, with the connections it has there;
* `Main` is the task that loads the downloads and then runs `interval_refresh`; everybody else
  takes one connection at a time and is counted only;
* `State.Starved`: all permits are with tasks that wait for a permit; `State.Wedged`: all are with
  tasks that can only go on when another permit is free, which stays so for good;
* `pool_starves_iff` says for which settings such states can be reached.
-/
import Dorodoro.Transition
import Dorodoro.Counting
import Mathlib.Algebra.BigOperators.Group.List.Basic
import Mathlib.Algebra.GroupWithZero.Nat

namespace ConnPool

/-- `DATABASE_CONN_LIMIT`. -/
def databaseConnLimit : ℕ := 10

/-! ## The tasks -/

/-- Where `flush_feed` and what it calls take a connection. -/
inductive Place where
  /-- `update_subscribe` of `flush_feed`. -/
  | updateSubscribe
  /-- `list_mark_read_guid` of `consumer_not_read`. -/
  | listMarkRead
  /-- `mark_read` of `load_torrent_from_rss_feed`. -/
  | markRead
  /-- `add_torrent` of `add_task`. -/
  | addTorrent
  /-- `recover_from_db` of `DownloadContent::new`. -/
  | recoverFromDb
  deriving DecidableEq

/-- The place of a `flush_feed` in its code. -/
inductive Phase where
  /-- `get_subscribe_channel`, and the comparison of the hashes. -/
  | download
  /-- `get_conn`. -/
  | wait (p : Place)
  /-- The access to the database. -/
  | use (p : Place)
  /-- The loop over the items, with the download of the next one. -/
  | item
  deriving DecidableEq

/-- How a piece of code ends. -/
inductive Outcome where
  | go
  /-- The torrent is there already, or there is nothing left to load. -/
  | skip
  /-- An error, an unchanged feed, or the end of the loop. -/
  | fail
  deriving DecidableEq

/-- The connection of `flush_feed` is kept to the end; the other ones are given back at once. -/
def Place.nested : Place → Bool
  | updateSubscribe => false
  | _ => true

/-- The connections a `flush_feed` has. -/
def Phase.conns : Phase → ℕ
  | download => 0
  | wait p => p.nested.toNat
  | use p => p.nested.toNat + 1
  | item => 1

/-- The task waits for a connection. -/
def Phase.waits : Phase → Bool
  | wait _ => true
  | _ => false

/-- What comes after an access. -/
def Place.after : Place → Phase
  | updateSubscribe => .wait .listMarkRead
  | listMarkRead => .item
  | markRead => .wait .addTorrent
  | addTorrent => .wait .recoverFromDb
  | recoverFromDb => .item

/-- The code of `flush_feed` from one place to the next; the task ends, or goes on. -/
def Phase.next : Phase → Outcome → Option (Option Phase)
  | _, .fail => some none
  | download, .go => some (some (.wait .updateSubscribe))
  | wait p, .go => some (some (.use p))
  | use p, .go => some (some p.after)
  | use .addTorrent, .skip => some (some .item)
  | item, .go => some (some (.wait .markRead))
  | _, .skip => none

/-- The task of the `TaskManager`: `load_task_from_db`, then `interval_refresh`. -/
inductive Main where
  /-- `get_conn` of `load_task_from_db`. -/
  | loadWait
  /-- The loop over the torrents. -/
  | load
  /-- `get_conn` of `DownloadContent::new`. -/
  | recoverWait
  | recover
  /-- Between two refreshes. -/
  | tick
  /-- `get_conn` of `flush_all_feeds`. -/
  | flushWait
  /-- `list_subscribe_not_update`. -/
  | flush
  /-- The loop that spawns the tasks, with the feeds still to come. -/
  | spawning (rest : ℕ)
  /-- The loop over the handles. -/
  | joining
  deriving DecidableEq

/-- The connections the task has. -/
def Main.conns : Main → ℕ
  | loadWait | tick | flushWait => 0
  | recover => 2
  | _ => 1

/-- `flush_all_feeds` has its list and spawns or joins the tasks. -/
def Main.flushing : Main → Bool
  | spawning _ | joining => true
  | _ => false

/-- The feeds of the list that have no task yet. -/
def Main.rest : Main → ℕ
  | spawning rest => rest
  | _ => 0

/-- The settings. -/
structure Config where
  /-- `rss_refresh_concurrency`. -/
  rssRefreshConcurrency : ℕ
  /-- The number of subscribed feeds. -/
  feeds : ℕ

/-- The shared state. -/
structure State where
  main : Main
  /-- The `flush_feed` tasks; each has a permit of `hash_semaphore`. -/
  feeds : List Phase
  /-- The other tasks that wait for a connection. -/
  waiting : ℕ
  /-- The other tasks that have one. -/
  holding : ℕ
  deriving DecidableEq

/-- The start of `TaskManager::init`. -/
def State.init : State := ⟨.loadWait, [], 0, 0⟩

/-- The permits that are taken. -/
def State.used (s : State) : ℕ := s.main.conns + (s.feeds.map Phase.conns).sum + s.holding

/-- A permit is free. -/
def State.free (s : State) : Bool := decide (s.used < databaseConnLimit)

/-! ## The system -/

/-- What the environment does. -/
inductive Act where
  /-- Another task wants a connection. -/
  | user
  | userConn
  | userDone
  /-- The task of the `TaskManager` goes on; `due` feeds are not up to date. -/
  | main (o : Outcome) (due : ℕ)
  /-- The `k`-th `flush_feed` goes on. -/
  | feed (k : ℕ) (o : Outcome)
  deriving DecidableEq

/-- The code of the `TaskManager`. -/
def mainStep (C : Config) (s : State) (o : Outcome) (due : ℕ) : Option State :=
  match s.main, o with
  | .loadWait, _ => if s.free then some { s with main := .load } else none
  | .load, .go => some { s with main := .recoverWait }
  | .load, .skip => some { s with main := .tick }
  | .load, .fail => none
  | .recoverWait, _ => if s.free then some { s with main := .recover } else none
  | .recover, _ => some { s with main := .load }
  | .tick, _ => some { s with main := .flushWait }
  | .flushWait, _ => if s.free then some { s with main := .flush } else none
  | .flush, .fail => some { s with main := .tick }
  | .flush, _ => if due ≤ C.feeds then some { s with main := .spawning due } else none
  | .spawning 0, _ => some { s with main := .joining }
  | .spawning (rest + 1), _ =>
      -- `hash_semaphore`
      if s.feeds.length < C.rssRefreshConcurrency then
        some { s with main := .spawning rest, feeds := .download :: s.feeds }
      else none
  | .joining, _ => if s.feeds = [] then some { s with main := .tick } else none

/-- The transition function. -/
def step (C : Config) (s : State) : Act → Option State
  | .user => some { s with waiting := s.waiting + 1 }
  | .userConn =>
      if s.waiting ≠ 0 ∧ s.free then
        some { s with waiting := s.waiting - 1, holding := s.holding + 1 }
      else none
  | .userDone => if s.holding ≠ 0 then some { s with holding := s.holding - 1 } else none
  | .main o due => mainStep C s o due
  | .feed k o =>
      s.feeds[k]?.bind fun p =>
        if p.waits && !s.free then none
        else (p.next o).map fun next =>
          match next with
          | some q => { s with feeds := s.feeds.set k q }
          | none => { s with feeds := s.feeds.eraseIdx k }

/-! ## Deadlocks -/

/-- `flush_all_feeds` waits for a permit of `hash_semaphore`, or `DownloadContent::new` for a
connection. -/
def State.mainWaits (C : Config) (s : State) : Prop :=
  s.main = .recoverWait ∨ 0 < s.main.rest ∧ C.rssRefreshConcurrency ≤ s.feeds.length

/-- All permits are held by tasks that wait for another permit. -/
structure State.Starved (C : Config) (s : State) : Prop where
  used : s.used = databaseConnLimit
  holding : s.holding = 0
  feeds : ∀ p ∈ s.feeds, 0 < p.conns → p.waits = true
  main : 0 < s.main.conns → s.mainWaits C

/-- All permits are held by tasks that go on only after another permit is free: `flush_all_feeds`
keeps its connection until its tasks are done. -/
structure State.Wedged (s : State) : Prop where
  used : s.used = databaseConnLimit
  holding : s.holding = 0
  feeds : ∀ p ∈ s.feeds, 0 < p.conns → p.waits = true
  main : s.main.flushing = true

variable {C : Config} {s s' : State} {a : Act}

/-! ## What a step can do -/

/-- Everything the task of the `TaskManager` can do. -/
inductive MainStep (C : Config) (s : State) : State → Prop
  | idle {main} : s.main.flushing = false → main.rest ≤ C.feeds →
      MainStep C s { s with main := main }
  | spawn {rest} : s.main = .spawning (rest + 1) → s.feeds.length < C.rssRefreshConcurrency →
      MainStep C s { s with main := .spawning rest, feeds := .download :: s.feeds }
  | join : s.main = .spawning 0 → MainStep C s { s with main := .joining }
  | done : s.main = .joining → s.feeds = [] → MainStep C s { s with main := .tick }

/-- **What the task does is in the list.** -/
theorem mainStep_cases {o : Outcome} {due : ℕ} (h : mainStep C s o due = some s') :
    MainStep C s s' := by
  have hidle (main' : Main) (hf : s.main.flushing = false) (hrest : main'.rest = 0) :
      MainStep C s { s with main := main' } := .idle hf (by rw [hrest]; exact Nat.zero_le _)
  unfold mainStep at h
  cases hmain : s.main with
  | loadWait | recoverWait | flushWait =>
      simp only [hmain] at h
      obtain ⟨-, rfl⟩ := Transition.of_ite_eq_some h
      exact hidle _ (by rw [hmain]; rfl) rfl
  | load =>
      cases o <;> simp only [hmain] at h <;> cases h <;> exact hidle _ (by rw [hmain]; rfl) rfl
  | recover | tick =>
      simp only [hmain] at h
      cases h
      exact hidle _ (by rw [hmain]; rfl) rfl
  | flush =>
      have hf : s.main.flushing = false := by rw [hmain]; rfl
      cases o with
      | fail =>
          simp only [hmain] at h
          cases h
          exact hidle _ hf rfl
      | go | skip =>
          simp only [hmain] at h
          obtain ⟨hdue, rfl⟩ := Transition.of_ite_eq_some h
          exact .idle hf hdue
  | spawning rest =>
      cases rest with
      | zero =>
          simp only [hmain] at h
          cases h
          exact .join hmain
      | succ rest =>
          simp only [hmain] at h
          obtain ⟨hlt, rfl⟩ := Transition.of_ite_eq_some h
          exact .spawn hmain hlt
  | joining =>
      simp only [hmain] at h
      obtain ⟨hnil, rfl⟩ := Transition.of_ite_eq_some h
      exact .done hmain hnil

/-- A task of the refresh goes on, or ends. -/
theorem feed_cases {k : ℕ} {o : Outcome} (h : step C s (.feed k o) = some s') :
    ∃ p, s.feeds[k]? = some p ∧ (p.waits = true → s.free = true) ∧
      ((∃ q, p.next o = some (some q) ∧ s' = { s with feeds := s.feeds.set k q }) ∨
        p.next o = some none ∧ s' = { s with feeds := s.feeds.eraseIdx k }) := by
  obtain ⟨p, hp, h⟩ := Option.bind_eq_some_iff.mp h
  split at h
  · cases h
  · next hfree =>
      obtain ⟨next, hnext, h⟩ := Option.map_eq_some_iff.mp h
      refine ⟨p, hp, ?_, ?_⟩
      · intro hwaits
        rw [hwaits, Bool.true_and, Bool.not_eq_true', Bool.not_eq_false] at hfree
        exact hfree
      · cases next with
        | some q => exact Or.inl ⟨q, hnext, h.symm⟩
        | none => exact Or.inr ⟨hnext, h.symm⟩

/-! ## How many tasks a deadlock takes -/

/-- Between the refreshes there are no tasks; during one there are no more than permits of
`hash_semaphore`, and no more than feeds. -/
structure Bounded (C : Config) (s : State) : Prop where
  idle : s.main.flushing = false → s.feeds = []
  permits : s.feeds.length ≤ C.rssRefreshConcurrency
  due : s.feeds.length + s.main.rest ≤ C.feeds

theorem Bounded.init (C : Config) : Bounded C .init :=
  ⟨fun _ => rfl, Nat.zero_le _, Nat.zero_le _⟩

theorem Bounded.mainStep (h : Bounded C s) (hstep : MainStep C s s') : Bounded C s' := by
  have hdue := h.due
  cases hstep with
  | idle hf hrest =>
      have hnil := h.idle hf
      refine ⟨fun _ => hnil, h.permits, ?_⟩
      rw [hnil, List.length_nil, Nat.zero_add]
      exact hrest
  | spawn hmain hlt =>
      refine ⟨?_, hlt, ?_⟩
      · intro hf
        cases hf
      · rw [hmain] at hdue
        dsimp only [Main.rest, List.length_cons] at hdue ⊢
        omega
  | join hmain =>
      rw [hmain] at hdue
      refine ⟨?_, h.permits, hdue⟩
      intro hf
      cases hf
  | done _ hnil =>
      refine ⟨fun _ => hnil, h.permits, ?_⟩
      rw [hnil]
      exact Nat.zero_le _

theorem Bounded.step (h : Bounded C s) (hstep : step C s a = some s') : Bounded C s' := by
  cases a with
  | user =>
      cases hstep
      exact ⟨h.idle, h.permits, h.due⟩
  | userConn | userDone =>
      obtain ⟨-, rfl⟩ := Transition.of_ite_eq_some hstep
      exact ⟨h.idle, h.permits, h.due⟩
  | main o due => exact h.mainStep (mainStep_cases hstep)
  | feed k o =>
      have hpermits := h.permits
      have hdue := h.due
      obtain ⟨p, hp, -, ⟨q, -, rfl⟩ | ⟨-, rfl⟩⟩ := feed_cases hstep
      · refine ⟨?_, ?_, ?_⟩
        · intro hf
          rw [h.idle hf] at hp
          cases hp
        · rw [List.length_set]
          exact hpermits
        · rw [List.length_set]
          exact hdue
      · have hlen : (s.feeds.eraseIdx k).length ≤ s.feeds.length :=
          List.length_eraseIdx_le s.feeds k
        refine ⟨?_, Nat.le_trans hlen hpermits, Nat.le_trans (Nat.add_le_add_right hlen _) hdue⟩
        intro hf
        rw [h.idle hf] at hp
        cases hp

/-- A task that waits has one connection at most. -/
theorem conns_le_one {p : Phase} (h : 0 < p.conns → p.waits = true) : p.conns ≤ 1 := by
  cases p with
  | download | item => decide
  | wait p => exact Bool.toNat_le _
  | use p => cases h (Nat.succ_pos _)

theorem sum_conns_le {feeds : List Phase} (h : ∀ p ∈ feeds, 0 < p.conns → p.waits = true) :
    (feeds.map Phase.conns).sum ≤ feeds.length := by
  induction feeds with
  | nil => exact Nat.le_refl 0
  | cons p feeds ih =>
      rw [List.forall_mem_cons] at h
      have hone := conns_le_one h.1
      have hrest := ih h.2
      rw [List.map_cons, List.sum_cons, List.length_cons]
      omega

/-- **Wedged states take nine feeds.** -/
theorem State.Wedged.le_length (h : s.Wedged) : 9 ≤ s.feeds.length := by
  have hsum := sum_conns_le h.feeds
  have hused := h.used
  have hone : s.main.conns = 1 := by
    have hf := h.main
    cases hmain : s.main <;> rw [hmain] at hf <;> first | rfl | cases hf
  rw [State.used, h.holding, hone, databaseConnLimit] at hused
  omega

/-- A starved state is wedged, and a feed has still to come. -/
theorem State.Starved.wedged (h : s.Starved C) (hb : Bounded C s) :
    s.Wedged ∧ C.rssRefreshConcurrency < C.feeds := by
  have hused := h.used
  have hdue := hb.due
  have hflushing : s.main.flushing = true := by
    by_contra hf
    rw [Bool.not_eq_true] at hf
    -- without tasks there are not enough connections
    have hle : s.main.conns ≤ 2 := by cases s.main <;> simp [Main.conns]
    rw [State.used, h.holding, hb.idle hf, List.map_nil, List.sum_nil, databaseConnLimit] at hused
    omega
  refine ⟨⟨hused, h.holding, h.feeds, hflushing⟩, ?_⟩
  have hpos : 0 < s.main.conns := by
    cases hmain : s.main <;> rw [hmain] at hflushing <;> first | exact Nat.one_pos | cases hflushing
  rcases h.main hpos with hmain | ⟨hrest, hfull⟩
  · rw [hmain] at hflushing
    cases hflushing
  · omega

theorem State.Wedged.not_free (h : s.Wedged) : s.free = false := by
  rw [State.free, h.used]
  exact decide_eq_false (Nat.lt_irrefl _)

/-- A task that takes no connection leaves the count. -/
theorem map_conns_set {feeds : List Phase} {k : ℕ} {p q : Phase} (hp : feeds[k]? = some p)
    (h : q.conns = p.conns) : (feeds.set k q).map Phase.conns = feeds.map Phase.conns := by
  have hat : (feeds.map Phase.conns)[k]? = some p.conns := by
    rw [List.getElem?_map, hp]
    rfl
  obtain ⟨hlt, hval⟩ := List.getElem?_eq_some_iff.mp hat
  rw [List.map_set, h, ← hval, List.set_getElem_self]

/-- Whoever has a connection waits for another one: only a download goes on. -/
theorem State.Wedged.eq_download (h : s.Wedged) {p : Phase} (hp : p ∈ s.feeds)
    (hwaits : p.waits = true → s.free = true) : p = .download := by
  have hnot : p.waits ≠ true := fun hyes => by
    rw [h.not_free] at hwaits
    cases hwaits hyes
  have hzero : p.conns = 0 := by
    by_contra hne
    exact hnot (h.feeds p hp (Nat.pos_of_ne_zero hne))
  cases p with
  | download => rfl
  | wait q => exact absurd rfl hnot
  | use _ | item => cases hzero

/-- The task of a feed goes on. -/
theorem State.Wedged.feed (h : s.Wedged) {k : ℕ} {o : Outcome}
    (hstep : step C s (.feed k o) = some s') : s'.Wedged := by
  obtain ⟨p, hp, hwaits, hnext⟩ := feed_cases hstep
  obtain rfl := h.eq_download (List.mem_of_getElem? hp) hwaits
  rcases hnext with ⟨q, hq, rfl⟩ | ⟨-, rfl⟩
  · have hwait : q = .wait .updateSubscribe := by
      cases o with
      | go => exact (Option.some.inj (Option.some.inj hq)).symm
      | _ => cases hq
    subst hwait
    refine ⟨?_, h.holding, ?_, h.main⟩
    · rw [State.used, map_conns_set (q := .wait .updateSubscribe) hp rfl]
      exact h.used
    · intro r hr hpos
      rcases List.mem_or_eq_of_mem_set hr with hr | rfl
      · exact h.feeds r hr hpos
      · rfl
  · -- it is over, and had no connection to give back
    have hsum := ((Counting.cons_eraseIdx_perm hp).map Phase.conns).sum_eq
    have hzero : Phase.download.conns = 0 := rfl
    rw [List.map_cons, List.sum_cons, hzero, Nat.zero_add] at hsum
    refine ⟨?_, h.holding, fun r hr => h.feeds r (List.mem_of_mem_eraseIdx hr), h.main⟩
    rw [State.used, hsum]
    exact h.used

/-- **Wedged for good.** -/
theorem State.Wedged.step (h : s.Wedged) (hstep : step C s a = some s') : s'.Wedged := by
  have hused := h.used
  cases a with
  | user =>
      cases hstep
      exact ⟨hused, h.holding, h.feeds, h.main⟩
  | userConn =>
      obtain ⟨⟨-, hyes⟩, -⟩ := Transition.of_ite_eq_some hstep
      rw [h.not_free] at hyes
      cases hyes
  | userDone =>
      obtain ⟨hne, -⟩ := Transition.of_ite_eq_some hstep
      exact absurd h.holding hne
  | main o due =>
      have hf := h.main
      cases mainStep_cases hstep with
      | idle hno _ =>
          rw [hno] at hf
          cases hf
      | spawn hmain _ =>
          -- the new task has no connection yet
          refine ⟨?_, h.holding, ?_, rfl⟩
          · rw [State.used, hmain] at hused
            simpa [State.used, Phase.conns, Main.conns] using hused
          · refine List.forall_mem_cons.mpr ⟨?_, h.feeds⟩
            intro hpos
            cases hpos
      | join hmain =>
          refine ⟨?_, h.holding, h.feeds, rfl⟩
          rw [State.used, hmain] at hused
          exact hused
      | done _ hnil =>
          have hle := h.le_length
          rw [hnil] at hle
          cases hle
  | feed k o => exact h.feed hstep

/-! ## Reaching a deadlock -/

/-- The state is reached by some run. -/
def Reaches (C : Config) (s : State) : Prop := ∃ as, Transition.FreeRun (step C) .init as s

theorem Reaches.step (h : Reaches C s) (hstep : ConnPool.step C s a = some s') : Reaches C s' := by
  obtain ⟨as, hrun⟩ := h
  exact ⟨_, hrun.tail trivial hstep⟩

theorem Reaches.bounded (h : Reaches C s) : Bounded C s := by
  obtain ⟨as, hrun⟩ := h
  exact hrun.invariant (Bounded.init C) fun _ _ _ h _ hstep => h.step hstep

/-- The refresh has spawned `n` tasks, and `rest` feeds are still to come. -/
theorem reaches_spawned (n rest : ℕ) (hc : n ≤ C.rssRefreshConcurrency)
    (hf : n + rest ≤ C.feeds) :
    Reaches C ⟨.spawning rest, List.replicate n .download, 0, 0⟩ := by
  induction n generalizing rest with
  | zero =>
      have hexec : Transition.exec (ConnPool.step C) .init
          [.main .go 0, .main .skip 0, .main .go 0, .main .go 0, .main .go rest] =
            some ⟨.spawning rest, [], 0, 0⟩ := by
        have hdue : rest ≤ C.feeds := by omega
        simp [ConnPool.step, mainStep, State.init, State.free, State.used, Main.conns,
          databaseConnLimit, hdue]
      exact ⟨_, .of_exec hexec⟩
  | succ n ih =>
      refine (ih (rest + 1) (by omega) (by omega)).step (a := .main .go 0) ?_
      have hlt : (List.replicate n Phase.download).length < C.rssRefreshConcurrency := by
        rw [List.length_replicate]
        omega
      exact if_pos hlt

/-- The task behind the first `j` goes on. -/
theorem step_feed {main : Main} {j n : ℕ} {p q : Phase} (hnext : p.next .go = some (some q))
    (hfree : p.waits = true → main.conns + (j + p.conns) < databaseConnLimit) :
    ConnPool.step C ⟨main, List.replicate j (.wait .listMarkRead) ++
        p :: List.replicate n .download, 0, 0⟩ (.feed j .go) =
      some ⟨main, List.replicate j (.wait .listMarkRead) ++
        q :: List.replicate n .download, 0, 0⟩ := by
  have hone : (Phase.wait .listMarkRead).conns = 1 := rfl
  have hzero : Phase.download.conns = 0 := rfl
  have hgo : p.waits = true → State.free ⟨main, List.replicate j (.wait .listMarkRead) ++
      p :: List.replicate n .download, 0, 0⟩ = true := by
    intro hw
    simpa [State.free, State.used, hone, hzero] using hfree hw
  simpa [ConnPool.step, hnext] using hgo

/-- The first `j` feeds have changed, and their tasks wait for a second connection. -/
theorem reaches_nested {main : Main} (hmain : main.conns = 1) (j n : ℕ) (hj : j ≤ 9)
    (h : Reaches C ⟨main, List.replicate (j + n) .download, 0, 0⟩) :
    Reaches C
      ⟨main, List.replicate j (.wait .listMarkRead) ++ List.replicate n .download, 0, 0⟩ := by
  induction j generalizing n with
  | zero => simpa using h
  | succ j ih =>
      have hlt : main.conns + (j + 0) < databaseConnLimit := by
        rw [hmain, databaseConnLimit]
        omega
      have hbefore := ih (n + 1) (by omega) (by rwa [Nat.add_right_comm] at h)
      rw [List.replicate_succ] at hbefore
      have hchanged := hbefore.step (step_feed (q := .wait .updateSubscribe) rfl fun _ => hlt)
      have hupdate := hchanged.step (step_feed (q := .use .updateSubscribe) rfl fun _ => hlt)
      have hread := hupdate.step (step_feed (q := .wait .listMarkRead) rfl fun hw => by cases hw)
      rw [List.replicate_succ', List.append_assoc]
      exact hread

/-- Nine tasks wait for a second connection. -/
theorem wedged_nested {main : Main} (hmain : main.flushing = true) (n : ℕ) :
    State.Wedged ⟨main, List.replicate 9 (.wait .listMarkRead) ++ List.replicate n .download,
      0, 0⟩ := by
  have hone : (Phase.wait .listMarkRead).conns = 1 := rfl
  have hzero : Phase.download.conns = 0 := rfl
  have hconns : main.conns = 1 := by
    cases main <;> first | rfl | cases hmain
  constructor
  · simp [State.used, hconns, hone, hzero, databaseConnLimit]
  · rfl
  · intro p hp hpos
    rcases List.mem_append.mp hp with hp | hp
    · rw [List.eq_of_mem_replicate hp]
      rfl
    · rw [List.eq_of_mem_replicate hp] at hpos
      cases hpos
  · exact hmain

/-- **When the pool can starve.**  All permits can come to be held by tasks that wait for another
permit if and only if `rss_refresh_concurrency` is at least nine and less than the number of feeds;
and the pool can come to a standstill if and only if both are at least nine. -/
theorem pool_starves_iff (C : Config) :
    ((∀ s, Reaches C s → ¬ s.Starved C) ↔
      C.rssRefreshConcurrency ≤ 8 ∨ C.feeds ≤ C.rssRefreshConcurrency) ∧
    ((∀ s, Reaches C s → ¬ s.Wedged) ↔ C.rssRefreshConcurrency ≤ 8 ∨ C.feeds ≤ 8) := by
  have hwedged : ∀ s, Reaches C s → s.Wedged → 9 ≤ C.rssRefreshConcurrency ∧ 9 ≤ C.feeds := by
    intro s hs h
    have hlen := h.le_length
    have hpermits := hs.bounded.permits
    have hdue := hs.bounded.due
    omega
  constructor
  · constructor
    · intro hnever
      by_contra hno
      obtain ⟨n, hn⟩ := Nat.exists_eq_add_of_le (show 9 ≤ C.rssRefreshConcurrency by omega)
      obtain ⟨rest, hrest⟩ := Nat.exists_eq_add_of_le
        (show C.rssRefreshConcurrency + 1 ≤ C.feeds by omega)
      have hspawned : Reaches C ⟨.spawning (rest + 1), List.replicate (9 + n) .download, 0, 0⟩ :=
        reaches_spawned (9 + n) (rest + 1) (by omega) (by omega)
      have hreach := reaches_nested rfl 9 n (Nat.le_refl 9) hspawned
      have hw : State.Wedged ⟨.spawning (rest + 1), _, 0, 0⟩ := wedged_nested rfl n
      have hfull : C.rssRefreshConcurrency ≤ (List.replicate 9 (Phase.wait .listMarkRead) ++
          List.replicate n Phase.download).length := by
        rw [List.length_append, List.length_replicate, List.length_replicate]
        exact Nat.le_of_eq hn
      exact hnever _ hreach
        ⟨hw.used, hw.holding, hw.feeds, fun _ => Or.inr ⟨Nat.succ_pos rest, hfull⟩⟩
    · intro hcond s hs h
      obtain ⟨hw, hlt⟩ := h.wedged hs.bounded
      have hnine := hwedged s hs hw
      omega
  · constructor
    · intro hnever
      by_contra hno
      -- as many tasks as there are permits and feeds, and the refresh waits for them
      obtain ⟨n, hn⟩ := Nat.exists_eq_add_of_le
        (show 9 ≤ min C.rssRefreshConcurrency C.feeds by omega)
      have hspawned := reaches_spawned (9 + n) 0 (C := C) (by omega) (by omega)
      have hjoining := hspawned.step (a := .main .go 0) rfl
      have hreach := reaches_nested rfl 9 n (Nat.le_refl 9) hjoining
      exact hnever _ hreach (wedged_nested rfl n)
    · intro hcond s hs h
      have hnine := hwedged s hs h
      omega

/-- Eleven feeds, with the default of ten tasks. -/
def elevenFeeds : Config := ⟨10, 11⟩

/-- The refresh spawns ten tasks; nine of the feeds have changed. -/
def starvingRun : List Act :=
  [.main .go 0, .main .skip 0, .main .go 0, .main .go 0, .main .go 11] ++
  (List.replicate 10 (.main .go 0) : List Act) ++
  ((List.range 9).flatMap fun k => [.feed k .go, .feed k .go, .feed k .go] : List Act)

/-- The pool is starved. -/
theorem pool_starves :
    ∃ s : State, Transition.FreeRun (step elevenFeeds) .init starvingRun s ∧
      s.Starved elevenFeeds := by
  have hexec : Transition.exec (ConnPool.step elevenFeeds) .init starvingRun =
      some ⟨.spawning 1, List.replicate 9 (.wait .listMarkRead) ++ [.download], 0, 0⟩ := by
    decide +kernel
  have hw : State.Wedged ⟨.spawning 1, _, 0, 0⟩ := wedged_nested rfl 1
  refine ⟨_, .of_exec hexec, hw.used, hw.holding, hw.feeds, fun _ => Or.inr ⟨Nat.one_pos, ?_⟩⟩
  decide

end ConnPool
