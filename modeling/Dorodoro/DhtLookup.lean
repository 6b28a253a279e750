/-
# The search for peers in the DHT (`bt/dht.rs`)

`find_peers` works through a queue of nodes.  It asks up to ten at a time, and a node that answers
adds those nodes of its answer to the queue that are no farther from the resource than the least
distance that was known when it was asked.  Nobody remembers who was asked.

* `Lookup` is what a search is given, with the network as a function from addresses to answers;
* `loopRound` is one round of the loop: the environment says whether a permit is free and which
  query is done first.  Its addresses are of any type: `step` is the code's own loop, and `traced`
  the same loop with every address carrying the chain of queries through which it was found;
* `ends_of_wellFounded`: a loop ends if what its queries put into the queue is below them in a
  well-founded order;
* `Unrepeated` says that no query follows from its own answer.  Every search is then finite and
  returns, whatever the order (`terminates_of_unrepeated`).

The routing table is read once, for the first nodes; that the nodes that answer are added to it,
and the peers that are handed on, leave no trace here.
-/
import Dorodoro.RoutingTable
import Dorodoro.Worklist
import Mathlib.Data.Finite.Prod

namespace DhtLookup

open Routing (NodeId)

/-- `NodeId::distance`.  The arrays compare as the numbers do. -/
def distance (a b : NodeId) : ℕ := fromBeSlice 20 (List.zipWith (· ^^^ ·) a.bytes b.bytes)

/-- What a search is given. -/
structure Lookup where
  ownId : NodeId
  infoHash : NodeId
  expectPeers : ℕ
  /-- `find_closest_nodes`. -/
  nodes : List (NodeId × SocketAddr)
  /-- The bootstrap nodes, and what their names resolve to. -/
  bootstrapNodes : List (Option SocketAddr)
  /-- Who answers a ping answers `get_peers` with nodes and a number of peers. -/
  answers : SocketAddr → Option (List (NodeId × SocketAddr) × ℕ)

/-- A query, with the least distance when it was begun. -/
structure Query (α : Type) where
  addr : α
  minDist : ℕ
  deriving DecidableEq

/-- The variables of the loop. -/
structure State (α : Type) where
  queue : List (Option NodeId × α)
  /-- The bootstrap nodes that were not used yet. -/
  bootstrapNodes : List (Option α)
  minDist : ℕ
  count : ℕ
  futures : List (Query α)
  returned : Bool
  deriving DecidableEq

/-- How a query is done: the nodes, the least distance and the number of peers it comes back
with. -/
abbrev Ask (α : Type) := Query α → Option (List (Option NodeId × α) × ℕ × ℕ)

variable (L : Lookup)

/-- The distance of an id. -/
def Lookup.dist (id : NodeId) : ℕ := distance id L.infoHash

/-- The variables before the loop. -/
def State.init : State SocketAddr where
  queue := L.nodes.map fun node => (some node.1, node.2)
  bootstrapNodes := L.bootstrapNodes
  minDist := L.dist L.ownId
  count := 0
  futures := []
  returned := false

/-- The nodes of an answer that are near enough. -/
def Lookup.near (minDist : ℕ) (nodes : List (NodeId × SocketAddr)) : List (NodeId × SocketAddr) :=
  nodes.filter fun node => L.dist node.1 ≤ minDist

/-- `async_find_peers`: the nodes, the least distance and the number of peers. -/
def Lookup.asyncFindPeers : Ask SocketAddr := fun q =>
  (L.answers q.addr).map fun (nodes, values) =>
    ((L.near q.minDist nodes).map fun node => (some node.1, node.2),
      (L.near q.minDist nodes).foldl (fun m node => min m (L.dist node.1)) q.minDist, values)

section Loop

variable {α : Type}

/-- The next bootstrap node that can be resolved, and those after it. -/
def nextBootstrap : List (Option α) → Option α × List (Option α)
  | [] => (none, [])
  | none :: rest => nextBootstrap rest
  | some addr :: rest => (some addr, rest)

/-- An empty queue gets a bootstrap node. -/
def State.refill (s : State α) : State α :=
  if s.queue = [] then
    match nextBootstrap s.bootstrapNodes with
    | (none, rest) => { s with bootstrapNodes := rest }
    | (some addr, rest) => { s with bootstrapNodes := rest, queue := [(none, addr)] }
  else s

/-- Begin a query, or return if there is nothing left. -/
def State.launch (s : State α) : State α :=
  match s.queue with
  | node :: rest => { s with queue := rest, futures := s.futures ++ [⟨node.2, s.minDist⟩] }
  | [] => if s.futures = [] then { s with returned := true } else s

/-- A query is done. -/
def State.harvest (ask : Ask α) (expectPeers : ℕ) (s : State α) (q : Query α) : State α :=
  match ask q with
  | none => s.launch
  | some (nodes, md, find) =>
      if expectPeers ≤ s.count + find then
        -- the rest of the queue is pinged
        { s with queue := [], count := s.count + find, returned := true }
      else
        { s with queue := s.queue ++ nodes, count := s.count + find, minDist := md }.launch

/-- What the environment decides in a round. -/
structure Act where
  /-- No permit is free. -/
  full : Bool
  /-- Which query is done first. -/
  pick : ℕ
  deriving DecidableEq

/-- A round of the loop of `find_peers`. -/
def loopRound (ask : Ask α) (expectPeers : ℕ) (s : State α) (a : Act) : Option (State α) :=
  if s.returned then none
  else if (a.full ∨ s.refill.queue = []) ∧ s.refill.futures ≠ [] then
    (s.refill.futures[a.pick]?).map fun q =>
      { s.refill with futures := s.refill.futures.eraseIdx a.pick }.harvest ask expectPeers q
  else some s.refill.launch

/-- Every order of the rounds from here on is finite, and goes on until the loop has returned. -/
structure Ends (ask : Ask α) (expectPeers : ℕ) (s : State α) : Prop where
  finite : Acc (fun s' s => ∃ a, loopRound ask expectPeers s a = some s') s
  returns : ∀ (as : List Act) (s' : State α),
    Transition.FreeRun (loopRound ask expectPeers) s as s' →
      s'.returned = true ∨ ∃ a s'', loopRound ask expectPeers s' a = some s''

end Loop

/-- A round of `find_peers`. -/
def step (s : State SocketAddr) (a : Act) : Option (State SocketAddr) :=
  loopRound L.asyncFindPeers L.expectPeers s a

/-- **The search returns.** -/
def Terminates : Prop := Ends L.asyncFindPeers L.expectPeers (.init L)

/-! ## Queries that follow from others -/

/-- An address, with the queries through whose answers it came into the queue. -/
abbrev Traced := SocketAddr × List (Query SocketAddr)

/-- The query itself. -/
def Query.plain (q : Query Traced) : Query SocketAddr := ⟨q.addr.1, q.minDist⟩

/-- `async_find_peers`, with what it puts into the queue traced back.  An answer with peers brings
the search nearer to its end, and its nodes begin a new chain. -/
def Lookup.traced : Ask Traced := fun q =>
  (L.asyncFindPeers q.plain).map fun (nodes, md, find) =>
    (nodes.map fun node => (node.1, node.2, if find = 0 then q.plain :: q.addr.2 else []), md, find)

/-- The variables before the loop: nothing follows from anything. -/
def State.initTraced : State Traced where
  queue := (State.init L).queue.map fun node => (node.1, node.2, [])
  bootstrapNodes := (State.init L).bootstrapNodes.map fun addr => addr.map fun addr => (addr, [])
  minDist := (State.init L).minDist
  count := 0
  futures := []
  returned := false

/-- **The condition.**  In no order of the queries does a query follow from its own answer: an
address is not asked again, with the same least distance, by way of answers without peers. -/
def Lookup.Unrepeated : Prop :=
  ∀ (as : List Act) (s : State Traced),
    Transition.FreeRun (loopRound L.traced L.expectPeers) (.initTraced L) as s →
      ∀ q ∈ s.futures, q.plain ∉ q.addr.2

/-! ## A round -/

section Round

variable {α : Type} {ask : Ask α} {expectPeers : ℕ} {s s' : State α} {q : Query α} {a : Act}

/-- The addresses that are in the queue or asked. -/
def State.work (s : State α) : Multiset α :=
  ↑(s.queue.map Prod.snd) + ↑(s.futures.map Query.addr)

/-- The measure: peers that are missing, bootstrap nodes that are left, addresses at work, and
those of them in the queue. -/
def measure (expectPeers : ℕ) (s : State α) : ℕ × ℕ × Multiset α × ℕ :=
  (expectPeers - s.count, s.bootstrapNodes.length, s.work, s.queue.length)

/-- The first address of the queue is asked, with the present least distance. -/
theorem launch_cons {node : Option NodeId × α} {rest : List (Option NodeId × α)}
    (hqueue : s.queue = node :: rest) :
    s.launch = { s with queue := rest, futures := s.futures ++ [⟨node.2, s.minDist⟩] } := by
  unfold State.launch
  rw [hqueue]

/-- Without a queue the loop goes on only as long as queries are under way. -/
theorem launch_nil (hqueue : s.queue = []) :
    s.launch = if s.futures = [] then { s with returned := true } else s := by
  unfold State.launch
  rw [hqueue]

/-- What `launch` leaves. -/
theorem launch_cases (s : State α) :
    s.launch.count = s.count ∧ s.launch.bootstrapNodes = s.bootstrapNodes ∧
      s.launch.work = s.work ∧ s.launch.queue.length ≤ s.queue.length - 1 := by
  unfold State.launch
  split
  · next node rest hqueue =>
      refine ⟨rfl, rfl, ?_, ?_⟩
      · -- from the queue to the queries
        unfold State.work
        rw [hqueue, List.map_append, Multiset.coe_add, Multiset.coe_add, Multiset.coe_eq_coe,
          ← List.append_assoc]
        exact List.perm_append_singleton node.2 _
      · rw [hqueue]
        rfl
  · next hqueue =>
      split
      · exact ⟨rfl, rfl, rfl, by rw [hqueue]; rfl⟩
      · exact ⟨rfl, rfl, rfl, by rw [hqueue]; rfl⟩

theorem launch_lt {r : α → α → Prop} (h : s.queue ≠ []) :
    Worklist.Order r (measure expectPeers s.launch) (measure expectPeers s) := by
  obtain ⟨hcount, hbootstrap, hwork, hqueue⟩ := launch_cases s
  have hpos : 0 < s.queue.length := List.length_pos_iff.mpr h
  unfold measure
  rw [hcount, hbootstrap, hwork]
  exact .right _ (.right _ (.right _ (by omega)))

theorem nextBootstrap_length (l : List (Option α)) :
    l = [] ∨ (nextBootstrap l).2.length < l.length := by
  induction l with
  | nil => exact Or.inl rfl
  | cons addr rest ih =>
      right
      cases addr with
      | some addr => exact Nat.lt_succ_self _
      | none =>
          show (nextBootstrap rest).2.length < rest.length + 1
          rcases ih with rfl | hlt
          · exact Nat.zero_lt_succ _
          · omega

/-- A bootstrap node is used, or nothing changes. -/
theorem refill_cases (s : State α) :
    s.refill = s ∨
      s.refill.bootstrapNodes.length < s.bootstrapNodes.length ∧ s.refill.count = s.count := by
  unfold State.refill
  split
  · rcases nextBootstrap_length s.bootstrapNodes with hnil | hlt
    · left
      rw [hnil]
      show { s with bootstrapNodes := [] } = s
      rw [← hnil]
    · right
      split
      · next hnext =>
          rw [hnext] at hlt
          exact ⟨hlt, rfl⟩
      · next hnext =>
          rw [hnext] at hlt
          exact ⟨hlt, rfl⟩
  · exact Or.inl rfl

/-- A bootstrap node does not touch the queries. -/
theorem refill_futures (s : State α) :
    s.refill.futures = s.futures ∧ s.refill.minDist = s.minDist ∧ s.refill.count = s.count := by
  unfold State.refill
  split
  · split <;> exact ⟨rfl, rfl, rfl⟩
  · exact ⟨rfl, rfl, rfl⟩

/-- A round that uses a bootstrap node. -/
theorem order_of_bootstrap {r : α → α → Prop} (hcount : s.count ≤ s'.count)
    (hlt : s'.bootstrapNodes.length < s.bootstrapNodes.length) :
    Worklist.Order r (measure expectPeers s') (measure expectPeers s) := by
  have hle : expectPeers - s'.count ≤ expectPeers - s.count := Nat.sub_le_sub_left hcount _
  unfold measure
  rcases hle.lt_or_eq with hless | heq
  · exact .left _ _ hless
  · rw [heq]
    exact .right _ (.left _ _ hlt)

/-- No answer takes peers or bootstrap nodes away. -/
theorem harvest_count (ask : Ask α) (expectPeers : ℕ) (s : State α) (q : Query α) :
    s.count ≤ (s.harvest ask expectPeers q).count ∧
      (s.harvest ask expectPeers q).bootstrapNodes = s.bootstrapNodes := by
  unfold State.harvest
  split
  · obtain ⟨hcount, hbootstrap, -, -⟩ := launch_cases s
    exact ⟨hcount.ge, hbootstrap⟩
  · next nodes md find _ =>
      split
      · exact ⟨Nat.le_add_right _ _, rfl⟩
      · obtain ⟨hcount, hbootstrap, -, -⟩ := launch_cases
          { s with queue := s.queue ++ nodes, count := s.count + find, minDist := md }
        rw [hcount, hbootstrap]
        exact ⟨Nat.le_add_right _ _, rfl⟩

/-- What a query without peers puts into the queue is below it. -/
def PutsBelow (ask : Ask α) (below : α → α → Prop) (q : Query α) : Prop :=
  ∀ r ∈ ask q, r.2.2 = 0 → ∀ b ∈ r.1.map Prod.snd, below b q.addr

/-- **A query is done.**  Peers are found, or the query is replaced by nodes below it. -/
theorem harvest_lt {below : α → α → Prop} {i : ℕ} (hq : s.futures[i]? = some q)
    (hputs : PutsBelow ask below q) :
    ({ s with futures := s.futures.eraseIdx i }.harvest ask expectPeers q).returned = true ∨
      Worklist.Order below
        (measure expectPeers ({ s with futures := s.futures.eraseIdx i }.harvest ask expectPeers q))
        (measure expectPeers s) := by
  have haddr : (s.futures.map Query.addr)[i]? = some q.addr := by
    rw [List.getElem?_map, hq]
    rfl
  unfold State.harvest
  split
  · -- it does not answer
    right
    obtain ⟨hcount, hbootstrap, hwork, -⟩ :=
      launch_cases { s with futures := s.futures.eraseIdx i }
    have hbelow : ∀ b ∈ ([] : List α), below b q.addr := fun b hb => absurd hb List.not_mem_nil
    have hcut := Worklist.cutExpand_of_eraseIdx haddr hbelow ↑(s.queue.map Prod.snd)
    unfold measure
    rw [hcount, hbootstrap, hwork]
    refine .right _ (.right _ (.left _ _ ?_))
    unfold State.work
    rw [← List.eraseIdx_map]
    simpa using hcut
  · next nodes md find hasync =>
      split
      · exact Or.inl rfl
      · next hfew =>
          right
          have hfew : ¬ expectPeers ≤ s.count + find := hfew
          obtain ⟨hcount, hbootstrap, hwork, -⟩ := launch_cases
            { s with
              futures := s.futures.eraseIdx i
              queue := s.queue ++ nodes
              count := s.count + find
              minDist := md }
          unfold measure
          rw [hcount, hbootstrap, hwork]
          rcases Nat.eq_zero_or_pos find with rfl | hpos
          · refine .right _ (.right _ (.left _ _ ?_))
            have hcut := Worklist.cutExpand_of_eraseIdx haddr (hputs _ hasync rfl)
              ↑(s.queue.map Prod.snd)
            unfold State.work
            rw [← List.eraseIdx_map, List.map_append, ← Multiset.coe_add, add_assoc]
            exact hcut
          · refine .left _ _ ?_
            show expectPeers - (s.count + find) < expectPeers - s.count
            omega

/-- **A round.**  It returns, or lowers the measure. -/
theorem loopRound_lt {below : α → α → Prop} (h : ∀ q ∈ s.futures, PutsBelow ask below q)
    (hround : loopRound ask expectPeers s a = some s') :
    s'.returned = true ∨
      Worklist.Order below (measure expectPeers s') (measure expectPeers s) := by
  unfold loopRound at hround
  split at hround
  · cases hround
  · split at hround
    · obtain ⟨q, hq, rfl⟩ := Option.map_eq_some_iff.mp hround
      rcases refill_cases s with hsame | ⟨hlt, hcount⟩
      · rw [hsame] at hq ⊢
        exact harvest_lt hq (h q (List.mem_of_getElem? hq))
      · right
        obtain ⟨hle, hbootstrap⟩ := harvest_count ask expectPeers
          { s.refill with futures := s.refill.futures.eraseIdx a.pick } q
        refine order_of_bootstrap (hcount.ge.trans hle) ?_
        rw [hbootstrap]
        exact hlt
    · next hnone =>
        cases hround
        rcases refill_cases s with hsame | ⟨hlt, hcount⟩
        · rw [hsame] at hnone ⊢
          by_cases hqueue : s.queue = []
          · -- nothing is left
            left
            have hfutures : s.futures = [] := by
              by_contra hne
              exact hnone ⟨Or.inr hqueue, hne⟩
            unfold State.launch
            rw [hqueue]
            dsimp only
            rw [if_pos hfutures]
          · exact Or.inr (launch_lt hqueue)
        · right
          obtain ⟨hsame, hbootstrap, -, -⟩ := launch_cases s.refill
          refine order_of_bootstrap (hcount.ge.trans hsame.ge) ?_
          rw [hbootstrap]
          exact hlt

/-! ## Addresses of one kind -/

/-- Every address at work is of one kind, and no least distance is beyond a bound. -/
structure Everywhere (P : α → Prop) (bound : ℕ) (s : State α) : Prop where
  minDist : s.minDist ≤ bound
  queue : ∀ node ∈ s.queue, P node.2
  bootstrapNodes : ∀ addr, some addr ∈ s.bootstrapNodes → P addr
  futures : ∀ q ∈ s.futures, P q.addr ∧ q.minDist ≤ bound

variable {P : α → Prop} {bound : ℕ}

/-- The next bootstrap node and the rest are from the list. -/
theorem mem_of_nextBootstrap {addr : α} {l rest : List (Option α)} {next : Option α}
    (h : nextBootstrap l = (next, rest)) :
    (next = some addr → some addr ∈ l) ∧ (some addr ∈ rest → some addr ∈ l) := by
  induction l with
  | nil =>
      obtain ⟨rfl, rfl⟩ : none = next ∧ [] = rest := by simpa [nextBootstrap] using h
      exact ⟨fun heq => absurd heq (Option.some_ne_none addr).symm, id⟩
  | cons first l ih =>
      cases first with
      | none =>
          obtain ⟨hnext, hrest⟩ := ih h
          exact ⟨fun heq => .tail _ (hnext heq), fun hin => .tail _ (hrest hin)⟩
      | some first =>
          cases h
          exact ⟨fun heq => heq ▸ List.mem_cons_self, List.mem_cons_of_mem _⟩

theorem Everywhere.refill (h : Everywhere P bound s) : Everywhere P bound s.refill := by
  unfold State.refill
  split
  · split
    · next rest hnext =>
        refine ⟨h.minDist, h.queue, fun addr hin => ?_, h.futures⟩
        exact h.bootstrapNodes addr ((mem_of_nextBootstrap hnext).2 hin)
    · next addr rest hnext =>
        refine ⟨h.minDist, fun node hnode => ?_, fun addr' hin => ?_, h.futures⟩
        · rw [List.mem_singleton.mp hnode]
          exact h.bootstrapNodes addr ((mem_of_nextBootstrap hnext).1 rfl)
        · exact h.bootstrapNodes addr' ((mem_of_nextBootstrap hnext).2 hin)
  · exact h

theorem Everywhere.launch (h : Everywhere P bound s) : Everywhere P bound s.launch := by
  unfold State.launch
  split
  · next node rest hqueue =>
      have hmem : ∀ node' ∈ node :: rest, node' ∈ s.queue := fun node' hin => hqueue ▸ hin
      refine ⟨h.minDist, fun node' hin => h.queue node' (hmem node' (.tail _ hin)),
        h.bootstrapNodes, fun q hq => ?_⟩
      rcases List.mem_append.mp hq with hq | hq
      · exact h.futures q hq
      · rw [List.mem_singleton.mp hq]
        exact ⟨h.queue node (hmem node List.mem_cons_self), h.minDist⟩
  · split
    · exact ⟨h.minDist, h.queue, h.bootstrapNodes, h.futures⟩
    · exact h

/-- A query comes back with addresses of the kind. -/
def Yields (ask : Ask α) (P : α → Prop) (bound : ℕ) (q : Query α) : Prop :=
  ∀ r ∈ ask q, r.2.1 ≤ bound ∧ ∀ node ∈ r.1, P node.2

/-- A query that comes back with addresses of the kind keeps the state of that kind. -/
theorem Everywhere.harvest (h : Everywhere P bound s) (hyields : Yields ask P bound q) :
    Everywhere P bound (s.harvest ask expectPeers q) := by
  unfold State.harvest
  split
  · exact h.launch
  · next nodes md find hask =>
      obtain ⟨hmd, hnodes⟩ := hyields _ hask
      split
      · exact ⟨h.minDist, fun node hnode => absurd hnode List.not_mem_nil, h.bootstrapNodes,
          h.futures⟩
      · apply Everywhere.launch
        refine ⟨hmd, fun node hnode => ?_, h.bootstrapNodes, h.futures⟩
        rcases List.mem_append.mp hnode with hnode | hnode
        · exact h.queue node hnode
        · exact hnodes node hnode

/-- **A round.** -/
theorem Everywhere.loopRound (h : Everywhere P bound s)
    (hyields : ∀ q ∈ s.futures, P q.addr → q.minDist ≤ bound → Yields ask P bound q)
    (hround : DhtLookup.loopRound ask expectPeers s a = some s') : Everywhere P bound s' := by
  have hrefill := h.refill
  unfold DhtLookup.loopRound at hround
  split at hround
  · cases hround
  · split at hround
    · obtain ⟨q, hq, rfl⟩ := Option.map_eq_some_iff.mp hround
      have hmem : q ∈ s.futures := (refill_futures s).1 ▸ List.mem_of_getElem? hq
      obtain ⟨hP, hbound⟩ := h.futures q hmem
      refine Everywhere.harvest ?_ (hyields q hmem hP hbound)
      refine ⟨hrefill.minDist, hrefill.queue, hrefill.bootstrapNodes, fun q' hq' => ?_⟩
      exact hrefill.futures q' (List.mem_of_mem_eraseIdx hq')
    · cases hround
      exact hrefill.launch

/-- **Every run.** -/
theorem Everywhere.of_run {s₀ : State α} (hinit : Everywhere P bound s₀)
    (hyields : ∀ as s, Transition.FreeRun (DhtLookup.loopRound ask expectPeers) s₀ as s →
      ∀ q ∈ s.futures, P q.addr → q.minDist ≤ bound → Yields ask P bound q)
    {as : List Act} (hrun : Transition.FreeRun (DhtLookup.loopRound ask expectPeers) s₀ as s) :
    Everywhere P bound s := by
  induction hrun with
  | refl => exact hinit
  | tail hrun _ hround ih => exact ih.loopRound (hyields _ _ hrun) hround

/-! ## The end of the loop -/

/-- A query is done when no permit is free or the queue is empty. -/
theorem loopRound_of_harvest (hrunning : s.returned = false)
    (hwait : (a.full ∨ s.refill.queue = []) ∧ s.refill.futures ≠ [])
    (hq : s.refill.futures[a.pick]? = some q) :
    loopRound ask expectPeers s a =
      some ({ s.refill with futures := s.refill.futures.eraseIdx a.pick }.harvest ask expectPeers
        q) := by
  unfold loopRound
  rw [if_neg (Bool.eq_false_iff.mp hrunning), if_pos hwait, hq]
  rfl

/-- Otherwise the next query is begun. -/
theorem loopRound_of_launch (hrunning : s.returned = false)
    (hlaunch : ¬ ((a.full ∨ s.refill.queue = []) ∧ s.refill.futures ≠ [])) :
    loopRound ask expectPeers s a = some s.refill.launch := by
  unfold loopRound
  rw [if_neg (Bool.eq_false_iff.mp hrunning), if_neg hlaunch]

/-- What has not returned goes on. -/
theorem exists_loopRound (h : s.returned = false) :
    ∃ a s', loopRound ask expectPeers s a = some s' := by
  by_cases hwait : s.refill.queue = [] ∧ s.refill.futures ≠ []
  · obtain ⟨q, rest, hfutures⟩ := List.exists_cons_of_ne_nil hwait.2
    have hfirst : s.refill.futures[0]? = some q := by rw [hfutures, List.getElem?_cons_zero]
    exact ⟨⟨false, 0⟩, _, loopRound_of_harvest h ⟨Or.inr hwait.1, hwait.2⟩ hfirst⟩
  · refine ⟨⟨false, 0⟩, _, loopRound_of_launch h ?_⟩
    rintro ⟨hfull | hqueue, hfutures⟩
    · exact Bool.false_ne_true hfull
    · exact hwait ⟨hqueue, hfutures⟩

theorem loopRound_of_returned (h : s.returned = true) : loopRound ask expectPeers s a = none := by
  unfold loopRound
  rw [if_pos h]

/-- **The loop ends**, if what a query of any run puts into the queue is below it. -/
theorem ends_of_wellFounded {below : α → α → Prop} (hwf : WellFounded below)
    (hbelow : ∀ (as : List Act) (s' : State α),
      Transition.FreeRun (loopRound ask expectPeers) s as s' →
        ∀ q ∈ s'.futures, PutsBelow ask below q) :
    Ends ask expectPeers s := by
  constructor
  · refine Worklist.acc_of_measure (Worklist.order_wellFounded hwf) (measure expectPeers)
      (fun s' => ∃ as, Transition.FreeRun (loopRound ask expectPeers) s as s')
      (fun s' => s'.returned = true) ?_ ?_ ⟨[], .refl⟩
    · rintro s' s'' hreturned ⟨a, hround⟩
      rw [loopRound_of_returned hreturned] at hround
      cases hround
    · rintro s' s'' ⟨as, hrun⟩ ⟨a, hround⟩
      exact ⟨⟨_, hrun.tail trivial hround⟩, loopRound_lt (hbelow as s' hrun) hround⟩
  · intro as s' _
    cases hreturned : s'.returned with
    | true => exact Or.inl rfl
    | false => exact Or.inr (exists_loopRound hreturned)

end Round

/-! ## Traced searches -/

/-- The variables without the chains. -/
def State.plain (s : State Traced) : State SocketAddr where
  queue := s.queue.map fun node => (node.1, node.2.1)
  bootstrapNodes := s.bootstrapNodes.map fun addr => addr.map Prod.fst
  minDist := s.minDist
  count := s.count
  futures := s.futures.map Query.plain
  returned := s.returned

variable {L : Lookup} {s s' : State Traced} {q : Query Traced} {a : Act}

theorem nextBootstrap_map {α β : Type} (f : α → β) (l : List (Option α)) :
    nextBootstrap (l.map fun addr => addr.map f) =
      ((nextBootstrap l).1.map f, (nextBootstrap l).2.map fun addr => addr.map f) := by
  induction l with
  | nil => rfl
  | cons addr rest ih =>
      cases addr with
      | none => exact ih
      | some addr => rfl

theorem plain_refill (s : State Traced) : s.plain.refill = s.refill.plain := by
  obtain ⟨queue, bootstrapNodes, minDist, count, futures, returned⟩ := s
  cases queue with
  | cons node rest => rfl
  | nil =>
      have hnext := nextBootstrap_map Prod.fst bootstrapNodes
      simp only [State.refill, State.plain, List.map_nil, if_true]
      rw [hnext]
      rcases nextBootstrap bootstrapNodes with ⟨_ | addr, rest⟩ <;> rfl

theorem plain_launch (s : State Traced) : s.plain.launch = s.launch.plain := by
  obtain ⟨queue, bootstrapNodes, minDist, count, futures, returned⟩ := s
  cases queue with
  | cons node rest => simp [State.launch, State.plain, Query.plain]
  | nil => cases futures <;> rfl

/-- What a traced query comes back with, without the chains. -/
theorem asyncFindPeers_plain (q : Query Traced) : L.asyncFindPeers q.plain =
    (L.traced q).map fun r => (r.1.map fun node => (node.1, node.2.1), r.2) := by
  unfold Lookup.traced
  rw [Option.map_map]
  rcases L.asyncFindPeers q.plain with _ | ⟨nodes, md, find⟩
  · rfl
  · simp [Function.comp_def]

/-- An answer is merged alike with and without the chains. -/
theorem plain_harvest (s : State Traced) (q : Query Traced) :
    s.plain.harvest L.asyncFindPeers L.expectPeers q.plain =
      (s.harvest L.traced L.expectPeers q).plain := by
  unfold State.harvest
  rw [asyncFindPeers_plain]
  rcases L.traced q with _ | ⟨nodes, md, find⟩
  · exact plain_launch s
  · dsimp only [Option.map_some]
    by_cases henough : L.expectPeers ≤ s.count + find
    · rw [if_pos henough]
      exact if_pos henough
    · rw [if_neg henough, ← plain_launch]
      refine (if_neg henough).trans ?_
      simp [State.plain]

/-- **A round of the search** is a round of the traced one. -/
theorem plain_loopRound (s : State Traced) (a : Act) :
    loopRound L.asyncFindPeers L.expectPeers s.plain a =
      (loopRound L.traced L.expectPeers s a).map State.plain := by
  unfold loopRound
  rw [plain_refill]
  have hwait : (a.full ∨ s.refill.plain.queue = []) ∧ s.refill.plain.futures ≠ [] ↔
      (a.full ∨ s.refill.queue = []) ∧ s.refill.futures ≠ [] := by
    simp [State.plain]
  have hreturned : s.plain.returned = s.returned := rfl
  rw [hreturned]
  split_ifs with hret h₁ h₂ h₂
  · rfl
  · have hget : s.refill.plain.futures[a.pick]? = (s.refill.futures[a.pick]?).map Query.plain :=
      List.getElem?_map
    rw [hget, Option.map_map, Option.map_map]
    congr 1
    funext q
    show State.harvest _ _ _ _ = _
    rw [Function.comp_apply, ← plain_harvest]
    simp [State.plain, List.eraseIdx_map]
  · exact absurd (hwait.mp h₁) h₂
  · exact absurd (hwait.mpr h₂) h₁
  · rw [plain_launch]
    rfl

theorem plain_initTraced (L : Lookup) : (State.initTraced L).plain = State.init L := by
  have hbootstrap : ((L.bootstrapNodes.map fun addr => addr.map fun addr => (addr, ([] :
      List (Query SocketAddr)))).map fun addr => addr.map Prod.fst) = L.bootstrapNodes := by
    simp [Function.comp_def]
  simp [State.plain, State.initTraced, State.init, Function.comp_def]

/-- If the traced search ends, so does the search. -/
theorem terminates_of_traced (h : Ends L.traced L.expectPeers (.initTraced L)) : Terminates L := by
  constructor
  · rw [← plain_initTraced L]
    refine Acc.of_fibration State.plain ?_ h.finite
    rintro s s' ⟨a, hround⟩
    rw [plain_loopRound] at hround
    obtain ⟨t, ht, rfl⟩ := Option.map_eq_some_iff.mp hround
    exact ⟨t, ⟨a, ht⟩, rfl⟩
  · intro as s _
    cases hreturned : s.returned with
    | true => exact Or.inl rfl
    | false => exact Or.inr (exists_loopRound hreturned)

/-! ## Chains of queries -/

/-- The queries that can be answered, with a least distance that can come about. -/
def Lookup.Answered (L : Lookup) : Set (Query SocketAddr) :=
  {q | (L.answers q.addr).isSome ∧ q.minDist ≤ L.dist L.ownId}

/-- A chain of different queries that were answered. -/
structure Lookup.Chain (L : Lookup) (l : List (Query SocketAddr)) : Prop where
  nodup : l.Nodup
  answered : ∀ q ∈ l, q ∈ L.Answered

/-- There are finitely many queries of finitely many addresses. -/
theorem queries_finite {A : Set SocketAddr} (hA : A.Finite) (bound : ℕ) :
    {q : Query SocketAddr | q.addr ∈ A ∧ q.minDist ≤ bound}.Finite := by
  have hpairs : (A ×ˢ Set.Iic bound).Finite := Set.Finite.prod hA (Set.finite_Iic _)
  have himage := hpairs.image fun p => (⟨p.1, p.2⟩ : Query SocketAddr)
  refine himage.subset fun q hq => ?_
  exact ⟨(q.addr, q.minDist), ⟨hq.1, hq.2⟩, rfl⟩

/-- In a finite network finitely many queries can be answered. -/
theorem answered_finite (hfinite : {a | (L.answers a).isSome}.Finite) : L.Answered.Finite :=
  queries_finite hfinite _

/-- There are not more of them than queries that can be answered. -/
theorem Lookup.Chain.length_le {l : List (Query SocketAddr)} (h : L.Chain l)
    (hfinite : L.Answered.Finite) : l.length ≤ hfinite.toFinset.card := by
  rw [← List.toFinset_card_of_nodup h.nodup]
  apply Finset.card_le_card
  intro q hq
  exact hfinite.mem_toFinset.mpr (h.answered q (List.mem_toFinset.mp hq))

theorem Lookup.chain_nil (L : Lookup) : L.Chain [] :=
  ⟨List.nodup_nil, fun _ hq => absurd hq List.not_mem_nil⟩

/-- The first addresses are of a kind that needs no chain. -/
theorem everywhere_initTraced {P : Traced → Prop} (h : ∀ addr, P (addr, [])) :
    Everywhere P (L.dist L.ownId) (.initTraced L) := by
  refine ⟨le_rfl, fun node hnode => ?_, fun addr haddr => ?_, fun q hq => ?_⟩
  · obtain ⟨node', -, rfl⟩ := List.mem_map.mp hnode
    exact h _
  · obtain ⟨addr', -, heq⟩ := List.mem_map.mp haddr
    obtain ⟨addr'', -, rfl⟩ := Option.map_eq_some_iff.mp heq
    exact h _
  · exact absurd hq List.not_mem_nil

/-- What a query comes back with: no greater distance, and addresses of its answer. -/
theorem asyncFindPeers_cases {q : Query SocketAddr}
    {r : List (Option NodeId × SocketAddr) × ℕ × ℕ} (h : L.asyncFindPeers q = some r) :
    r.2.1 ≤ q.minDist ∧ ∃ answer, L.answers q.addr = some (answer, r.2.2) ∧
      ∀ node ∈ r.1, node.2 ∈ answer.map Prod.snd := by
  obtain ⟨⟨answer, values⟩, hanswer, rfl⟩ := Option.map_eq_some_iff.mp h
  refine ⟨(Counting.foldl_min_le_iff _ _).mpr (Or.inl le_rfl), answer, hanswer,
    fun node hnode => ?_⟩
  obtain ⟨node', hnode', rfl⟩ := List.mem_map.mp hnode
  exact List.mem_map_of_mem (List.mem_of_mem_filter hnode')

/-- In a traced search the addresses also follow from the query. -/
theorem traced_cases {r : List (Option NodeId × Traced) × ℕ × ℕ} (h : L.traced q = some r) :
    r.2.1 ≤ q.minDist ∧ ∃ answer, L.answers q.addr.1 = some (answer, r.2.2) ∧
      ∀ node ∈ r.1, node.2.1 ∈ answer.map Prod.snd ∧
        node.2.2 = if r.2.2 = 0 then q.plain :: q.addr.2 else [] := by
  obtain ⟨⟨nodes, md, find⟩, hasync, rfl⟩ := Option.map_eq_some_iff.mp h
  obtain ⟨hmd, answer, hanswer, hnodes⟩ := asyncFindPeers_cases hasync
  refine ⟨hmd, answer, hanswer, fun node hnode => ?_⟩
  obtain ⟨node', hnode', rfl⟩ := List.mem_map.mp hnode
  exact ⟨hnodes node' hnode', rfl⟩

/-- A query that does not follow from itself makes its chain longer. -/
theorem chain_of_traced (hq : L.Chain q.addr.2 ∧ q.minDist ≤ L.dist L.ownId)
    (hfresh : q.plain ∉ q.addr.2) {r : List (Option NodeId × Traced) × ℕ × ℕ}
    (h : L.traced q = some r) : ∀ node ∈ r.1, L.Chain node.2.2 := by
  obtain ⟨-, answer, hanswer, hnodes⟩ := traced_cases h
  have hanswers : (L.answers q.addr.1).isSome = true := by
    rw [hanswer]
    rfl
  intro node hnode
  rw [(hnodes node hnode).2]
  split
  · refine ⟨List.nodup_cons.mpr ⟨hfresh, hq.1.nodup⟩, fun q' hq' => ?_⟩
    rcases List.mem_cons.mp hq' with rfl | hq'
    · exact ⟨hanswers, hq.2⟩
    · exact hq.1.answered q' hq'
  · exact L.chain_nil

/-- **Every run**: the addresses carry chains. -/
theorem chain_of_run (hunrepeated : L.Unrepeated) {as : List Act}
    (hrun : Transition.FreeRun (loopRound L.traced L.expectPeers) (.initTraced L) as s) :
    Everywhere (fun addr => L.Chain addr.2) (L.dist L.ownId) s := by
  refine (everywhere_initTraced fun _ => L.chain_nil).of_run (fun as s hrun q hq hchain hle => ?_)
    hrun
  intro r hr
  exact ⟨(traced_cases hr).1.trans hle,
    chain_of_traced ⟨hchain, hle⟩ (hunrepeated as s hrun q hq) hr⟩

/-- **No query follows from its own answer**: then the search returns in every finite network, in
every order of its queries. -/
theorem terminates_of_unrepeated (L : Lookup) (hfinite : {a | (L.answers a).isSome}.Finite)
    (hunrepeated : L.Unrepeated) : Terminates L := by
  have hanswered := answered_finite hfinite
  -- chains grow, and not beyond all queries
  have hwf : WellFounded fun b a : Traced =>
      a.2.length < b.2.length ∧ b.2.length ≤ hanswered.toFinset.card := by
    refine Subrelation.wf ?_ (InvImage.wf
      (fun a : Traced => hanswered.toFinset.card - a.2.length) wellFounded_lt)
    rintro b a ⟨hlt, hle⟩
    show hanswered.toFinset.card - b.2.length < hanswered.toFinset.card - a.2.length
    omega
  refine terminates_of_traced (ends_of_wellFounded hwf fun as s hrun q hq r hr hnone b hb => ?_)
  have hinv := chain_of_run hunrepeated hrun
  obtain ⟨node, hnode, rfl⟩ := List.mem_map.mp hb
  have hchain := chain_of_traced (hinv.futures q hq) (hunrepeated as s hrun q hq) hr node hnode
  obtain ⟨-, answer, -, hnodes⟩ := traced_cases hr
  refine ⟨?_, hchain.length_le hanswered⟩
  rw [(hnodes node hnode).2, if_pos hnone]
  exact Nat.lt_succ_self _

/-- An id with a number as its last byte. -/
def idOf (n : UInt8) : NodeId := ⟨List.replicate 19 0 ++ [n], rfl⟩

/-- A node that lists another one, which answers with nothing. -/
def twoNodes : Lookup where
  ownId := idOf 255
  infoHash := idOf 0
  expectPeers := 25
  nodes := [(idOf 2, .v4 1 1)]
  bootstrapNodes := []
  answers := fun addr =>
    if addr = .v4 1 1 then some ([(idOf 1, .v4 2 2)], 0)
    else if addr = .v4 2 2 then some ([], 0)
    else none

/-- The first node is asked first, and the second one in consequence. -/
def InOrder (addr : Traced) : Prop :=
  (addr.1 = .v4 1 1 → addr.2 = []) ∧ ∀ q ∈ addr.2, q.addr = .v4 1 1

/-- No query of this search follows from its own answer. -/
theorem twoNodes_unrepeated : twoNodes.Unrepeated := by
  intro as s hrun q hq hin
  have hinv : Everywhere InOrder (twoNodes.dist twoNodes.ownId) s := by
    refine (everywhere_initTraced fun addr => ?_).of_run (fun _ _ _ q _ hq hle => ?_) hrun
    · exact ⟨fun _ => rfl, fun q hq => absurd hq List.not_mem_nil⟩
    · intro r hr
      obtain ⟨hmd, answer, hanswer, hnodes⟩ := traced_cases hr
      refine ⟨hmd.trans hle, fun node hnode => ?_⟩
      obtain ⟨hlisted, htrace⟩ := hnodes node hnode
      simp only [twoNodes] at hanswer
      split_ifs at hanswer with h₁ h₂
      · obtain ⟨rfl, hnone⟩ : _ = answer ∧ 0 = r.2.2 := by
          simpa only [Option.some.injEq, Prod.mk.injEq] using hanswer
        rw [if_pos hnone.symm] at htrace
        have haddr : node.2.1 = .v4 2 2 := List.mem_singleton.mp hlisted
        refine ⟨fun h => absurd (haddr.symm.trans h) (by decide), fun q' hq' => ?_⟩
        rw [htrace] at hq'
        rcases List.mem_cons.mp hq' with rfl | hq'
        · exact h₁
        · exact hq.2 q' hq'
      · obtain ⟨rfl, -⟩ : _ = answer ∧ 0 = r.2.2 := by
          simpa only [Option.some.injEq, Prod.mk.injEq] using hanswer
        exact absurd hlisted List.not_mem_nil
  obtain ⟨hfirst, hchain⟩ := (hinv.futures q hq).1
  have haddr : q.addr.1 = .v4 1 1 := hchain _ hin
  rw [hfirst haddr] at hin
  exact absurd hin List.not_mem_nil

theorem twoNodes_finite : {addr | (twoNodes.answers addr).isSome}.Finite := by
  refine Set.Finite.subset (Set.toFinite {.v4 1 1, .v4 2 2}) ?_
  intro addr hsome
  have hsome : (twoNodes.answers addr).isSome = true := hsome
  simp only [twoNodes] at hsome
  split_ifs at hsome with h₁ h₂
  · exact Or.inl h₁
  · exact Or.inr h₂
  · cases hsome

/-! ## A search without an end -/

/-- The state of a search that asks one node, with nothing in its queue. -/
def asking (addr : SocketAddr) (m : ℕ) : State SocketAddr :=
  ⟨[], [], m, 0, [⟨addr, m⟩], false⟩

/-- The only node lists itself: it is asked again. -/
theorem step_asking {addr : SocketAddr} {id : NodeId} {m : ℕ} (hexpect : 0 < L.expectPeers)
    (hanswers : L.answers addr = some ([(id, addr)], 0)) (hnear : L.dist id ≤ m) :
    step L (asking addr m) ⟨false, 0⟩ = some (asking addr (L.dist id)) := by
  have hasync : L.asyncFindPeers ⟨addr, m⟩ = some ([(some id, addr)], L.dist id, 0) := by
    simp [Lookup.asyncFindPeers, Lookup.near, hanswers, hnear]
  have hfew : ¬ L.expectPeers ≤ 0 := Nat.not_le.mpr hexpect
  have hround : step L (asking addr m) ⟨false, 0⟩ =
      some (State.harvest L.asyncFindPeers L.expectPeers ⟨[], [], m, 0, [], false⟩ ⟨addr, m⟩) := rfl
  rw [hround]
  unfold State.harvest
  rw [hasync]
  dsimp only
  rw [if_neg hfew]
  rfl

/-- **Who lists itself is asked for ever.**  The only node that is known lists itself and no
peers. -/
theorem never_returns_of_self {addr : SocketAddr} {id id₀ : NodeId}
    (hnodes : L.nodes = [(id₀, addr)]) (hbootstrap : L.bootstrapNodes = [])
    (hexpect : 0 < L.expectPeers)
    (hanswers : L.answers addr = some ([(id, addr)], 0)) (hnear : L.dist id ≤ L.dist L.ownId) :
    ¬ Terminates L := by
  rintro ⟨hacc, -⟩
  have hfirst : step L (.init L) ⟨false, 0⟩ = some (asking addr (L.dist L.ownId)) := by
    simp [step, loopRound, State.init, State.refill, State.launch, asking, hnodes, hbootstrap]
  have hagain := step_asking hexpect hanswers (le_refl (L.dist id))
  exact Worklist.not_acc_of_self ⟨_, hagain⟩
    ((hacc.inv ⟨_, hfirst⟩).inv ⟨_, step_asking hexpect hanswers hnear⟩)

/-- A node that lists itself. -/
def selfListing : Lookup where
  ownId := idOf 255
  infoHash := idOf 0
  expectPeers := 25
  nodes := [(idOf 1, .v4 1 1)]
  bootstrapNodes := []
  answers := fun addr => if addr = .v4 1 1 then some ([(idOf 1, .v4 1 1)], 0) else none

theorem selfListing_finite : {addr | (selfListing.answers addr).isSome}.Finite := by
  refine Set.Finite.subset (Set.finite_singleton (.v4 1 1)) ?_
  intro addr hsome
  have hsome : (selfListing.answers addr).isSome = true := hsome
  simp only [selfListing] at hsome
  split_ifs at hsome with h
  · exact h
  · cases hsome

/-- The search does not return. -/
theorem selfListing_never_returns :
    {addr | (selfListing.answers addr).isSome}.Finite ∧ ¬ Terminates selfListing :=
  ⟨selfListing_finite, never_returns_of_self rfl rfl (by decide) rfl (by decide)⟩

end DhtLookup
