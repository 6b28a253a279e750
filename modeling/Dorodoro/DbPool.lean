/-
# The pool of database connections

`doro/src/core/db.rs`.  A call of `get_conn` takes a permit of the semaphore, then a connection of
the pool or, if there is none, a new one; dropping the wrapper puts the connection back and, as
the fields of the wrapper are dropped after that, returns the permit.

Any number of calls is under way, each in a phase of its own, and every one of them can take its
next step at any time.  The guard of the pool's mutex lives through the opening of a connection,
since it is a temporary of the `match`; nothing here depends on it, and the other calls may use
the pool meanwhile.

* `Inv` is what holds of permits and connections in every run;
* `conns_conserved` says that the connections that are open never exceed the limit, that each of
  them has one place, and that a failed opening costs nothing.
-/
import Dorodoro.Counting
import Dorodoro.Transition
import Mathlib.Data.List.Range

namespace DbPool

/-- A connection, by the order in which they were opened. -/
abbrev Connection := ℕ

/-- How far a call of `get_conn`, and then the wrapper it returned, has come. -/
inductive Phase where
  /-- In `acquire_owned`. -/
  | waiting
  /-- With a permit, in front of `pop_front`. -/
  | permitted
  /-- In `Connection::open`. -/
  | opening
  /-- The wrapper is in use. -/
  | holding (connection : Connection)
  /-- Only the permit is left to be dropped. -/
  | releasing
  | done
  deriving DecidableEq

/-- The call has a permit. -/
def Phase.permit : Phase → Bool
  | .waiting | .done => false
  | .permitted | .opening | .holding _ | .releasing => true

/-- The call opens a connection. -/
def Phase.isOpening : Phase → Bool
  | .opening => true
  | _ => false

/-- The connection of the wrapper. -/
def Phase.connection : Phase → Option Connection
  | .holding c => some c
  | _ => none

/-- `Db`, with the calls of `get_conn` so far and the number of connections opened. -/
structure Db where
  pool : List Connection
  semaphore : ℕ
  calls : List Phase
  opened : ℕ
  deriving DecidableEq

namespace Db

/-- `Db::new`. -/
def new (poolLimit : ℕ) : Db := ⟨[], poolLimit, [], 0⟩

/-- The connections in use. -/
def inUse (s : Db) : List Connection := s.calls.filterMap Phase.connection

/-- The call number `i` comes into another phase. -/
def enter (s : Db) (i : ℕ) (phase : Phase) : Db :=
  { s with calls := s.calls.modify i fun _ => phase }

/-- `pop_front`, and what the `match` on it leads to. -/
def popFront (s : Db) (i : ℕ) : Db :=
  match s.pool with
  | [] => s.enter i .opening
  | c :: rest => { s.enter i (.holding c) with pool := rest }

end Db

/-- What can happen, the number being that of the call. -/
inductive Act where
  | getConn
  | acquire (i : ℕ)
  | popFront (i : ℕ)
  | openOk (i : ℕ)
  | openErr (i : ℕ)
  | drop (i : ℕ)
  | dropPermit (i : ℕ)
  deriving DecidableEq

/-- The transition function. -/
def step (s : Db) : Act → Option Db
  | .getConn => some { s with calls := s.calls ++ [.waiting] }
  | .acquire i =>
      if s.calls[i]? = some .waiting ∧ 0 < s.semaphore then
        some { s.enter i .permitted with semaphore := s.semaphore - 1 }
      else none
  | .popFront i => if s.calls[i]? = some .permitted then some (s.popFront i) else none
  | .openOk i =>
      if s.calls[i]? = some .opening then
        some { s.enter i (.holding s.opened) with opened := s.opened + 1 }
      else none
  | .openErr i => if s.calls[i]? = some .opening then some (s.enter i .releasing) else none
  | .drop i =>
      (s.calls[i]?.bind Phase.connection).map fun c =>
        { s.enter i .releasing with pool := s.pool ++ [c] }
  | .dropPermit i =>
      if s.calls[i]? = some .releasing then
        some { s.enter i .done with semaphore := s.semaphore + 1 }
      else none

/-! ## A call comes into another phase -/

variable {s s' : Db} {i : ℕ} {old : Phase} {limit : ℕ}

theorem getElem?_enter (h : s.calls[i]? = some old) (new : Phase) :
    (s.enter i new).calls[i]? = some new := by
  show (s.calls.modify i fun _ => new)[i]? = some new
  rw [List.getElem?_modify_eq, h]
  rfl

/-- The permits and the openings after the change. -/
theorem countP_enter (h : s.calls[i]? = some old) (new : Phase) (p : Phase → Bool) :
    (s.enter i new).calls.countP p + (p old).toNat = s.calls.countP p + (p new).toNat :=
  Counting.countP_modify h (fun _ => new) p

/-- The connections in use before and after the change. -/
theorem inUse_enter (h : s.calls[i]? = some old) (new : Phase) :
    ∃ others, s.inUse.Perm (old.connection.toList ++ others) ∧
      (s.enter i new).inUse.Perm (new.connection.toList ++ others) := by
  have hcons : ∀ p : Phase, (p :: s.calls.eraseIdx i).filterMap Phase.connection =
      p.connection.toList ++ (s.calls.eraseIdx i).filterMap Phase.connection := by
    intro p
    cases p <;> rfl
  refine ⟨(s.calls.eraseIdx i).filterMap Phase.connection, ?_, ?_⟩
  · rw [← hcons]
    exact (Counting.cons_eraseIdx_perm h).symm.filterMap _
  · rw [← hcons]
    exact (Counting.cons_eraseIdx_perm_modify h fun _ => new).symm.filterMap _

/-- A call that does not get or give a connection. -/
theorem inUse_enter_of_none (h : s.calls[i]? = some old) (hold : old.connection = none)
    {new : Phase} (hnew : new.connection = none) : (s.enter i new).inUse.Perm s.inUse := by
  obtain ⟨others, hbefore, hafter⟩ := inUse_enter h new
  rw [hold] at hbefore
  rw [hnew] at hafter
  exact hafter.trans hbefore.symm

/-- A call that gets a connection. -/
theorem inUse_enter_holding (h : s.calls[i]? = some old) (hold : old.connection = none)
    (c : Connection) : (s.enter i (.holding c)).inUse.Perm (c :: s.inUse) := by
  obtain ⟨others, hbefore, hafter⟩ := inUse_enter h (.holding c)
  rw [hold] at hbefore
  exact hafter.trans (hbefore.symm.cons c)

/-- A call that gives its connection back. -/
theorem inUse_enter_releasing {c : Connection} (h : s.calls[i]? = some (.holding c)) :
    s.inUse.Perm (c :: (s.enter i .releasing).inUse) := by
  obtain ⟨others, hbefore, hafter⟩ := inUse_enter h .releasing
  exact hbefore.trans (hafter.symm.cons c)

/-- Every wrapper and every opening has a permit. -/
theorem inUse_add_opening_le (calls : List Phase) :
    (calls.filterMap Phase.connection).length + calls.countP Phase.isOpening ≤
      calls.countP Phase.permit := by
  induction calls with
  | nil => exact le_rfl
  | cons p calls ih =>
      rw [Counting.countP_cons_toNat, Counting.countP_cons_toNat, List.filterMap_cons]
      cases p <;> simp only [Phase.connection, Phase.isOpening, Phase.permit, List.length_cons,
        Bool.toNat_true, Bool.toNat_false] <;> omega

theorem mem_inUse_iff {c : Connection} : c ∈ s.inUse ↔ ∃ i : ℕ, s.calls[i]? = some (.holding c) := by
  rw [Db.inUse, List.mem_filterMap]
  constructor
  · rintro ⟨p, hp, hc⟩
    obtain ⟨i, hi⟩ := List.mem_iff_getElem?.mp hp
    cases p with
    | holding c' => exact ⟨i, by rw [hi, Option.some.inj hc]⟩
    | waiting | permitted | opening | releasing | done => cases hc
  · rintro ⟨i, hi⟩
    exact ⟨.holding c, List.mem_of_getElem? hi, rfl⟩

/-! ## The invariant -/

/-- The invariant. -/
structure Inv (limit : ℕ) (s : Db) : Prop where
  /-- Each permit is in the semaphore or with a call. -/
  permits : s.semaphore + s.calls.countP Phase.permit = limit
  /-- A connection is opened only when the pool is empty, and its place is kept from then on. -/
  within : s.pool.length + s.inUse.length + s.calls.countP Phase.isOpening ≤ limit
  /-- Each connection ever opened is in the pool or in use, and there once. -/
  owned : (s.pool ++ s.inUse).Perm (List.range s.opened)

theorem inv_new (limit : ℕ) : Inv limit (.new limit) :=
  ⟨rfl, Nat.zero_le limit, .refl _⟩

/-- The permits are conserved by a call that changes its phase. -/
theorem Inv.permits_enter (h : Inv limit s) (hi : s.calls[i]? = some old) (new : Phase) {n : ℕ}
    (hn : n + new.permit.toNat = s.semaphore + old.permit.toNat) :
    n + (s.enter i new).calls.countP Phase.permit = limit := by
  have hcount := countP_enter hi new Phase.permit
  have hbefore := h.permits
  omega

/-- A call that has and gets no connection, and does not begin to open one. -/
theorem Inv.enter (h : Inv limit s) (hi : s.calls[i]? = some old) (hold : old.connection = none)
    {new : Phase} (hnew : new.connection = none) (hopening : new.isOpening = false) {n : ℕ}
    (hn : n + new.permit.toNat = s.semaphore + old.permit.toNat) :
    Inv limit { s.enter i new with semaphore := n } := by
  have hinUse := inUse_enter_of_none hi hold hnew
  have hcount := countP_enter hi new Phase.isOpening
  refine ⟨h.permits_enter hi new hn, ?_, (hinUse.append_left s.pool).trans h.owned⟩
  have hwithin := h.within
  have hlen : (s.enter i new).inUse.length = s.inUse.length := hinUse.length_eq
  rw [hopening, Bool.toNat_false, Nat.add_zero] at hcount
  show s.pool.length + (s.enter i new).inUse.length + _ ≤ limit
  rw [hlen]
  have hle : (s.enter i new).calls.countP Phase.isOpening ≤ s.calls.countP Phase.isOpening := by
    rw [← hcount]
    exact Nat.le_add_right _ _
  exact (Nat.add_le_add_left hle _).trans hwithin

/-- **The pool is asked.**  A connection of the pool goes to the call.  If there is none, every
connection is in use, and each of them has a permit, as the call has. -/
theorem Inv.popFront (h : Inv limit s) (hi : s.calls[i]? = some .permitted) :
    Inv limit (s.popFront i) := by
  unfold Db.popFront
  split
  · next hpool =>
      have hinUse := inUse_enter_of_none hi rfl (rfl : Phase.opening.connection = none)
      have hpermits := h.permits_enter hi .opening rfl
      refine ⟨hpermits, ?_, (hinUse.append_left s.pool).trans h.owned⟩
      have hall := inUse_add_opening_le (s.enter i .opening).calls
      show s.pool.length + (s.enter i .opening).inUse.length + _ ≤ limit
      rw [hpool, List.length_nil, Nat.zero_add]
      exact hall.trans (hpermits ▸ Nat.le_add_left _ _)
  · next c rest hpool =>
      have hinUse := inUse_enter_holding hi rfl c
      have hcount := countP_enter hi (.holding c) Phase.isOpening
      refine ⟨h.permits_enter hi (.holding c) rfl, ?_, ?_⟩
      · have hwithin := h.within
        have hlen : (s.enter i (.holding c)).inUse.length = s.inUse.length + 1 := hinUse.length_eq
        have hcount : (s.enter i (.holding c)).calls.countP Phase.isOpening =
            s.calls.countP Phase.isOpening := hcount
        rw [hpool, List.length_cons] at hwithin
        show rest.length + (s.enter i (.holding c)).inUse.length + _ ≤ limit
        rw [hlen, hcount]
        omega
      · have howned := h.owned
        rw [hpool] at howned
        exact ((hinUse.append_left rest).trans List.perm_middle).trans howned

/-- **A connection is opened** in the place that was kept for it. -/
theorem Inv.openOk (h : Inv limit s) (hi : s.calls[i]? = some .opening) :
    Inv limit { s.enter i (.holding s.opened) with opened := s.opened + 1 } := by
  have hinUse := inUse_enter_holding hi rfl s.opened
  have hcount := countP_enter hi (.holding s.opened) Phase.isOpening
  refine ⟨h.permits_enter hi (.holding s.opened) rfl, ?_, ?_⟩
  · have hwithin := h.within
    have hlen : (s.enter i (.holding s.opened)).inUse.length = s.inUse.length + 1 :=
      hinUse.length_eq
    have hcount : (s.enter i (.holding s.opened)).calls.countP Phase.isOpening + 1 =
        s.calls.countP Phase.isOpening := hcount
    show s.pool.length + (s.enter i (.holding s.opened)).inUse.length +
      (s.enter i (.holding s.opened)).calls.countP Phase.isOpening ≤ limit
    omega
  · show (s.pool ++ (s.enter i (.holding s.opened)).inUse).Perm (List.range (s.opened + 1))
    rw [List.range_succ]
    have hnew := (hinUse.append_left s.pool).trans List.perm_middle
    exact (hnew.trans (h.owned.cons s.opened)).trans (List.perm_append_singleton _ _).symm

/-- **A wrapper is dropped**: the connection is back in the pool before the permit is. -/
theorem Inv.drop {c : Connection} (h : Inv limit s) (hi : s.calls[i]? = some (.holding c)) :
    Inv limit { s.enter i .releasing with pool := s.pool ++ [c] } := by
  have hinUse := inUse_enter_releasing hi
  have hcount := countP_enter hi .releasing Phase.isOpening
  refine ⟨h.permits_enter hi .releasing rfl, ?_, ?_⟩
  · have hwithin := h.within
    have hlen : s.inUse.length = (s.enter i .releasing).inUse.length + 1 := hinUse.length_eq
    have hcount : (s.enter i .releasing).calls.countP Phase.isOpening =
        s.calls.countP Phase.isOpening := hcount
    show (s.pool ++ [c]).length + (s.enter i .releasing).inUse.length +
      (s.enter i .releasing).calls.countP Phase.isOpening ≤ limit
    rw [List.length_append, List.length_singleton]
    omega
  · show (s.pool ++ [c] ++ (s.enter i .releasing).inUse).Perm (List.range s.opened)
    rw [List.append_assoc]
    exact (hinUse.append_left s.pool).symm.trans h.owned

/-- A new call. -/
theorem Inv.getConn (h : Inv limit s) : Inv limit { s with calls := s.calls ++ [.waiting] } := by
  have hcount : ∀ p : Phase → Bool, p .waiting = false →
      (s.calls ++ [Phase.waiting]).countP p = s.calls.countP p := by
    intro p hp
    rw [List.countP_append, List.countP_singleton, hp]
    rfl
  have hinUse : (s.calls ++ [Phase.waiting]).filterMap Phase.connection = s.inUse := by
    rw [List.filterMap_append]
    exact List.append_nil _
  refine ⟨?_, ?_, ?_⟩
  · show s.semaphore + (s.calls ++ [Phase.waiting]).countP Phase.permit = limit
    rw [hcount _ rfl]
    exact h.permits
  · show s.pool.length + ((s.calls ++ [Phase.waiting]).filterMap Phase.connection).length +
      (s.calls ++ [Phase.waiting]).countP Phase.isOpening ≤ limit
    rw [hcount _ rfl, hinUse]
    exact h.within
  · show (s.pool ++ (s.calls ++ [Phase.waiting]).filterMap Phase.connection).Perm _
    rw [hinUse]
    exact h.owned

/-- What `drop` does. -/
theorem step_drop (h : step s (.drop i) = some s') :
    ∃ c, s.calls[i]? = some (.holding c) ∧
      s' = { s.enter i .releasing with pool := s.pool ++ [c] } := by
  obtain ⟨c, hc, rfl⟩ := Option.map_eq_some_iff.mp h
  obtain ⟨p, hp, hpc⟩ := Option.bind_eq_some_iff.mp hc
  cases p with
  | holding c' => exact ⟨c, by rw [hp, Option.some.inj hpc], rfl⟩
  | waiting | permitted | opening | releasing | done => cases hpc

/-- **A step keeps the invariant.** -/
theorem Inv.step {a : Act} (h : Inv limit s) (hstep : step s a = some s') : Inv limit s' := by
  match a with
  | .getConn =>
      cases hstep
      exact h.getConn
  | .acquire i =>
      obtain ⟨⟨hi, hpos⟩, rfl⟩ := Transition.of_ite_eq_some hstep
      exact h.enter hi rfl rfl rfl (Nat.sub_add_cancel hpos)
  | .popFront i =>
      obtain ⟨hi, rfl⟩ := Transition.of_ite_eq_some hstep
      exact h.popFront hi
  | .openOk i =>
      obtain ⟨hi, rfl⟩ := Transition.of_ite_eq_some hstep
      exact h.openOk hi
  | .openErr i =>
      obtain ⟨hi, rfl⟩ := Transition.of_ite_eq_some hstep
      exact h.enter hi rfl rfl rfl rfl
  | .drop i =>
      obtain ⟨c, hi, rfl⟩ := step_drop hstep
      exact h.drop hi
  | .dropPermit i =>
      obtain ⟨hi, rfl⟩ := Transition.of_ite_eq_some hstep
      exact h.enter hi rfl rfl rfl rfl

theorem inv_of_run {as : List Act} (h : Transition.FreeRun step (.new limit) as s) : Inv limit s :=
  h.invariant (inv_new limit) fun _ _ _ hI _ hs => hI.step hs

/-! ## What holds in every run -/

/-- A connection that is once in a list of holders has one holder. -/
theorem eq_of_holding {c : Connection} {j : ℕ} (h : s.inUse.Nodup)
    (hi : s.calls[i]? = some (.holding c)) (hj : s.calls[j]? = some (.holding c)) : i = j := by
  have hpair := List.pairwise_iff_getElem.mp (List.pairwise_filterMap.mp h)
  obtain ⟨hilt, hi⟩ := List.getElem?_eq_some_iff.mp hi
  obtain ⟨hjlt, hj⟩ := List.getElem?_eq_some_iff.mp hj
  have hic : (s.calls[i]).connection = some c := by rw [hi]; rfl
  have hjc : (s.calls[j]).connection = some c := by rw [hj]; rfl
  rcases Nat.lt_trichotomy i j with hlt | heq | hgt
  · exact absurd rfl (hpair i j hilt hjlt hlt c hic c hjc)
  · exact heq
  · exact absurd rfl (hpair j i hjlt hilt hgt c hjc c hic)

/-- **Connections and permits are conserved.**  In every state of every run, whatever calls are
under way and whichever openings fail:
* the connections in the pool, in use and being opened are together at most `limit`;
* no connection has two holders, none that is held is in the pool, and every connection opened is
  in the pool or held;
* dropping a wrapper puts its connection into the pool;
* each permit is in the semaphore or with a call, a failed opening leaves a call that only has its
  permit to drop, and dropping it gives it back to the semaphore. -/
theorem conns_conserved (limit : ℕ) {as : List Act} {s : Db}
    (h : Transition.FreeRun step (.new limit) as s) :
    s.pool.length + s.inUse.length + s.calls.countP Phase.isOpening ≤ limit ∧
      (∀ (i j : ℕ) (c : Connection), s.calls[i]? = some (.holding c) →
        s.calls[j]? = some (.holding c) → i = j) ∧
      (∀ (i : ℕ) (c : Connection), s.calls[i]? = some (.holding c) → c ∉ s.pool) ∧ s.pool.Nodup ∧
      (∀ c < s.opened, c ∈ s.pool ∨ ∃ i : ℕ, s.calls[i]? = some (.holding c)) ∧
      (∀ (i : ℕ) (c : Connection), s.calls[i]? = some (.holding c) →
        ∃ s', step s (.drop i) = some s' ∧ s'.pool = s.pool ++ [c] ∧
          s'.calls[i]? = some .releasing) ∧
      (∀ (i : ℕ) (s' : Db), step s (.openErr i) = some s' →
        s'.calls[i]? = some .releasing ∧ s'.pool = s.pool ∧ s'.opened = s.opened) ∧
      (∀ i : ℕ, s.calls[i]? = some .releasing →
        ∃ s', step s (.dropPermit i) = some s' ∧ s'.semaphore = s.semaphore + 1) ∧
      s.semaphore + s.calls.countP Phase.permit = limit := by
  have hinv := inv_of_run h
  have hnodup : (s.pool ++ s.inUse).Nodup := hinv.owned.nodup_iff.mpr List.nodup_range
  obtain ⟨hpool, hinUse, hdisjoint⟩ := List.nodup_append.mp hnodup
  refine ⟨hinv.within, fun i j c => eq_of_holding hinUse, ?_, hpool, ?_, ?_, ?_, ?_, hinv.permits⟩
  · intro i c hi hc
    exact hdisjoint c hc c (mem_inUse_iff.mpr ⟨i, hi⟩) rfl
  · intro c hc
    have hmem : c ∈ s.pool ++ s.inUse := hinv.owned.mem_iff.mpr (List.mem_range.mpr hc)
    exact (List.mem_append.mp hmem).imp_right mem_inUse_iff.mp
  · intro i c hi
    have hstep : step s (.drop i) =
        some { s.enter i .releasing with pool := s.pool ++ [c] } := by
      rw [step, hi]
      rfl
    exact ⟨_, hstep, rfl, getElem?_enter hi .releasing⟩
  · intro i s' hs
    obtain ⟨hi, rfl⟩ := Transition.of_ite_eq_some hs
    exact ⟨getElem?_enter hi .releasing, rfl, rfl⟩
  · intro i hi
    exact ⟨_, if_pos hi, rfl⟩

/-- One place: the first opening fails and gives its permit back, the second call opens a
connection and drops it, and the third one gets it from the pool. -/
def onePlaceRun : List Act :=
  [.getConn, .acquire 0, .popFront 0, .getConn, .openErr 0, .dropPermit 0, .acquire 1, .popFront 1,
    .getConn, .openOk 1, .drop 1, .dropPermit 1, .acquire 2, .popFront 2]

/-- The third call is the only holder of the one connection. -/
theorem conns_conserved_onePlace :
    ∃ s : Db, Transition.FreeRun step (.new 1) onePlaceRun s ∧ s.opened = 1 ∧
      s.calls = [.done, .done, .holding 0] ∧
      s.pool.length + s.inUse.length + s.calls.countP Phase.isOpening ≤ 1 ∧
      ∀ j : ℕ, s.calls[j]? = some (.holding 0) → 2 = j := by
  have hrun : Transition.FreeRun step (.new 1) onePlaceRun
      ⟨[], 0, [.done, .done, .holding 0], 1⟩ := .of_exec (by decide)
  obtain ⟨hopen, hholder, -⟩ := conns_conserved 1 hrun
  exact ⟨_, hrun, rfl, rfl, hopen, fun j => hholder 2 j 0 rfl⟩

end DbPool
