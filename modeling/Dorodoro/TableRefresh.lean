/-
# Refreshing the routing table (`bt/dht.rs`)

`refresh_routing_table` takes the first bucket that has not changed for too long, sets its
`lastchange`, asks the node nearest to a random id of the bucket for its nodes and adds what it
answers, until there is no such bucket or nobody to ask.  The lock of the table is given back while
the loop waits, and the searches for peers (`check_add_node`) add and mark nodes in between.

* `State` is the table and where the loop is, `Act` a round's first half, its second half, or an
  operation of another task;
* `Looked` says what the first half comes to;
* `RoutingTable.old` counts the buckets that have not changed since the loop was begun.  No
  operation makes more of them (`old_step`), and a round has one less;
* `refresh_sound`: within one interval the loop is over after so many rounds, whatever is answered
  and whatever the other tasks do.
-/
import Dorodoro.ClosestNodes
import Dorodoro.RefreshTarget

open Routing BoundedHeap Transition

namespace TableRefresh

/-! ## The loop -/

/-- `Node::new`. -/
def newNode (id : NodeId) (addr : SocketAddr) (now : ℕ) : Node := ⟨id, addr, now, true⟩

/-- Where `refresh_routing_table` is. -/
inductive Phase where
  /-- At the top of the loop. -/
  | looking
  /-- `get_peers` is sent. -/
  | asking (target : NodeId) (addr : SocketAddr)
  | done
  deriving DecidableEq

/-- The table, the loop, and how many buckets it has refreshed. -/
structure State where
  table : RoutingTable
  phase : Phase
  rounds : ℕ

/-- Who has the lock. -/
inductive Act where
  /-- The loop, in front of `get_peers`: the clock when a bucket is looked at and when it is
  updated, and the random numbers of `random_node`. -/
  | look (now : ℕ → ℕ) (changed : ℕ) (fill : ℕ → UInt8) (low : UInt8 → UInt8)
  /-- The loop, with the nodes that were sent; no answer is no node. -/
  | answer (nodes : List (NodeId × SocketAddr)) (seen : ℕ → ℕ) (now : ℕ → ℕ → ℕ)
  /-- Another task. -/
  | other (op : Op)

/-- The first half of a round. -/
def look (H : MaxHeap NodeWithDistance.le) (s : State) (now : ℕ → ℕ) (changed : ℕ)
    (fill : ℕ → UInt8) (low : UInt8 → UInt8) : Option State :=
  match s.table.nextRefreshBucket now with
  | none => some { s with phase := .done }
  | some index => do
      let T := s.table.modifyBucket index (Bucket.updateLastchange changed)
      let bucket ← T.buckets[index]?
      let target ← bucket.randomNode fill (low (Bitmap.bitmapOffset bucket.prefixLen).2)
      match (T.findClosestNodes H target 1).head? with
      | some node => some ⟨T, .asking target node.addr, s.rounds + 1⟩
      -- nobody is known
      | none => some ⟨T, .done, s.rounds + 1⟩

/-- The second half of a round. -/
def addNodes : (ℕ → ℕ) → (ℕ → ℕ → ℕ) → RoutingTable → List (NodeId × SocketAddr) →
    Option RoutingTable
  | _, _, T, [] => some T
  | seen, now, T, node :: nodes => do
      let (_, T) ← T.addNode (now 0) (newNode node.1 node.2 (seen 0))
      addNodes (fun i => seen (i + 1)) (fun i => now (i + 1)) T nodes

/-- The transition function. -/
def step (H : MaxHeap NodeWithDistance.le) (s : State) : Act → Option State
  | .look now changed fill low =>
      match s.phase with
      | .looking => look H s now changed fill low
      | _ => none
  | .answer nodes seen now =>
      match s.phase with
      | .asking _ _ => (addNodes seen now s.table nodes).map fun T => ⟨T, .looking, s.rounds⟩
      | _ => none
  | .other op => (Routing.step s.table op).map fun T => { s with table := T }

/-- The clock readings of an operation are not before `t`. -/
def After (t : ℕ) : Op → Prop
  | .addNode _ now => ∀ i, t ≤ now i
  | .markNodeResponded _ now => t ≤ now
  | .markNodeUnresponsive _ => True
  | .nextRefreshBucket _ => True
  | .updateLastchange _ now => t ≤ now

/-- What an act reads off the clock, in the interval from `t` on, and draws. -/
def Allowed (t : ℕ) : Act → Prop
  | .look now changed _ low =>
      (∀ i, now i ≤ t + refreshInterval) ∧ t ≤ changed ∧ ∀ offset, 0 < offset → low offset < offset
  | .answer _ _ now => ∀ i j, t ≤ now i j
  | .other op => After t op

/-- The act is the turn of the loop, or of another task. -/
def Turn (s : State) : Act → Prop
  | .look .. => s.phase = .looking
  | .answer .. => ∃ target addr, s.phase = .asking target addr
  | .other _ => True

/-! ## What a look comes to -/

/-- What the first half of a round comes to. -/
inductive Looked (s : State) (now : ℕ → ℕ) (changed : ℕ) : State → Prop where
  /-- Every bucket has changed lately. -/
  | fresh (h : ∀ (i : ℕ) (b : Bucket), s.table.buckets[i]? = some b →
      now i - b.lastchange ≤ refreshInterval) : Looked s now changed { s with phase := .done }
  /-- There is nobody to ask. -/
  | empty {index : ℕ} {b : Bucket} (hb : s.table.buckets[index]? = some b)
      (hold : refreshInterval < now index - b.lastchange) (hnone : s.table.nodes = []) :
      Looked s now changed
        ⟨s.table.modifyBucket index (Bucket.updateLastchange changed), .done, s.rounds + 1⟩
  /-- Of all nodes the nearest to an id of the bucket is asked for it. -/
  | asks {index : ℕ} {b : Bucket} {target : NodeId} {node : Node}
      (hb : s.table.buckets[index]? = some b) (hold : refreshInterval < now index - b.lastchange)
      (htarget : b.contains target = some true) (hnode : node ∈ s.table.nodes)
      (hnearest : ∀ n ∈ s.table.nodes, node.key target ≤ n.key target) :
      Looked s now changed
        ⟨s.table.modifyBucket index (Bucket.updateLastchange changed),
          .asking target node.addr, s.rounds + 1⟩

section Look

variable {H : MaxHeap NodeWithDistance.le} {s : State} {T : RoutingTable} {now : ℕ → ℕ}
  {changed index : ℕ}

theorem nextRefreshBucket_eq_none (h : T.nextRefreshBucket now = none) (i : ℕ) (b : Bucket)
    (hb : T.buckets[i]? = some b) : now i - b.lastchange ≤ refreshInterval := by
  have hnone := Option.map_eq_none_iff.mp h
  have hmem : (b, i) ∈ T.buckets.zipIdx := List.mk_mem_zipIdx_iff_getElem?.mpr hb
  have hnot := List.find?_eq_none.mp hnone _ hmem
  exact Nat.not_lt.mp fun hlt => hnot (decide_eq_true hlt)

theorem nextRefreshBucket_eq_some (h : T.nextRefreshBucket now = some index) :
    ∃ b, T.buckets[index]? = some b ∧ refreshInterval < now index - b.lastchange := by
  obtain ⟨⟨b, i⟩, hfind, rfl⟩ := Option.map_eq_some_iff.mp h
  have hmem := List.mem_of_find?_eq_some hfind
  have hold : decide (refreshInterval < now i - b.lastchange) = true :=
    List.find?_some
      (p := fun x : Bucket × ℕ => decide (refreshInterval < now x.2 - x.1.lastchange)) hfind
  exact ⟨b, List.mk_mem_zipIdx_iff_getElem?.mp hmem, of_decide_eq_true hold⟩

/-- A change of `lastchange` leaves the nodes alone. -/
theorem nodes_updateLastchange (T : RoutingTable) (index changed : ℕ) :
    (T.modifyBucket index (Bucket.updateLastchange changed)).nodes = T.nodes := by
  have hsame : ∀ (l : List Bucket) (i : ℕ),
      (l.modify i (Bucket.updateLastchange changed)).flatMap Bucket.nodes =
        l.flatMap Bucket.nodes := by
    intro l
    induction l with
    | nil => intro i; rw [List.modify_nil]
    | cons b l ih =>
        intro i
        match i with
        | 0 => rfl
        | i + 1 => rw [List.modify_succ_cons, List.flatMap_cons, List.flatMap_cons, ih i]
  exact hsame T.buckets index

/-- **The first half of a round** does not panic. -/
theorem look_looked (hinv : s.table.Inv) (now : ℕ → ℕ) (changed : ℕ) (fill : ℕ → UInt8) {low : UInt8 → UInt8}
    (hlow : ∀ offset, 0 < offset → low offset < offset) :
    ∃ s', look H s now changed fill low = some s' ∧ Looked s now changed s' := by
  unfold look
  match hnext : s.table.nextRefreshBucket now with
  | none => exact ⟨_, rfl, .fresh (nextRefreshBucket_eq_none hnext)⟩
  | some index =>
      obtain ⟨b, hb, hold⟩ := nextRefreshBucket_eq_some hnext
      have hlen := (Partition.inv hinv b (List.mem_of_getElem? hb)).prefixLen_lt
      have hat : (s.table.modifyBucket index (Bucket.updateLastchange changed)).buckets[index]? =
          some (b.updateLastchange changed) := by
        show (s.table.buckets.modify index _)[index]? = _
        rw [List.getElem?_modify_eq, hb]
        rfl
      have hoffset : 0 < (Bitmap.bitmapOffset b.prefixLen).2 := by
        rw [UInt8.lt_iff_toNat_lt, Bitmap.toNat_mask]
        exact Nat.two_pow_pos _
      have hindex : (Bitmap.bitmapOffset b.prefixLen).1 < 20 := show b.prefixLen / 8 < 20 by omega
      obtain ⟨target, htarget⟩ : ∃ target, (b.updateLastchange changed).randomNode fill
          (low (Bitmap.bitmapOffset b.prefixLen).2) = some target := ⟨_, if_pos hindex⟩
      have hcontains := ((Bucket.drawn_iff_contains hlen).mp ⟨fill, _, hlow _ hoffset, htarget⟩).1
      obtain ⟨l, ⟨hperm, hasc⟩, hclosest⟩ := RoutingTable.exists_sort H
        (s.table.modifyBucket index (Bucket.updateLastchange changed)) target 1
      rw [nodes_updateLastchange] at hperm
      show ∃ s', ((s.table.modifyBucket index _).buckets[index]?.bind fun bucket =>
        (bucket.randomNode _ _).bind fun target => _) = _ ∧ _
      rw [hat, Option.bind_some]
      show ∃ s', (((b.updateLastchange changed).randomNode fill
        (low (Bitmap.bitmapOffset b.prefixLen).2)).bind fun target => _) = _ ∧ _
      rw [htarget, Option.bind_some, hclosest]
      match l with
      | [] => exact ⟨_, rfl, .empty hb hold (List.nil_perm.mp hperm)⟩
      | node :: l =>
          refine ⟨_, rfl, .asks hb hold hcontains (hperm.mem_iff.mp List.mem_cons_self) ?_⟩
          intro n hn
          rcases List.mem_cons.mp (hperm.mem_iff.mpr hn) with rfl | hn
          · exact le_rfl
          · exact List.rel_of_pairwise_cons hasc hn

end Look

/-! ## Buckets that have not changed -/

/-- The buckets that have not changed since `t`. -/
def old (t : ℕ) (T : RoutingTable) : ℕ := T.buckets.countP fun b => decide (b.lastchange < t)

section Old

variable {t : ℕ} {T T' : RoutingTable} {b : Bucket} {index : ℕ} {now : ℕ → ℕ}

/-- A bucket may be changed. -/
theorem old_modifyBucket_le {f : Bucket → Bucket}
    (hf : ∀ b, T.buckets[index]? = some b → (f b).lastchange < t → b.lastchange < t) :
    old t (T.modifyBucket index f) ≤ old t T := by
  match hb : T.buckets[index]? with
  | none =>
      show (T.buckets.modify index f).countP _ ≤ _
      rw [List.modify_eq_self (List.getElem?_eq_none_iff.mp hb)]
      exact le_rfl
  | some b =>
      have hcount := Counting.countP_modify hb f fun b => decide (b.lastchange < t)
      have hle : (decide ((f b).lastchange < t)).toNat ≤ (decide (b.lastchange < t)).toNat :=
        Bool.toNat_le_toNat fun h => decide_eq_true (hf b hb (of_decide_eq_true h))
      show (T.buckets.modify index f).countP _ ≤ T.buckets.countP _
      omega

/-- A bucket that has not changed is refreshed. -/
theorem old_updateLastchange {changed : ℕ} (hb : T.buckets[index]? = some b)
    (hold : b.lastchange < t) (hchanged : t ≤ changed) :
    old t (T.modifyBucket index (Bucket.updateLastchange changed)) + 1 = old t T := by
  have hcount := Counting.countP_modify hb (Bucket.updateLastchange changed) fun b =>
    decide (b.lastchange < t)
  have hnew : ¬ (b.updateLastchange changed).lastchange < t := Nat.not_lt.mpr hchanged
  rw [decide_eq_true hold, decide_eq_false hnew] at hcount
  exact hcount

theorem lastchange_addNode (b : Bucket) (now : ℕ → ℕ) (node : Node) :
    (b.addNode now node).2.lastchange = now 0 ∨ (b.addNode now node).2 = b := by
  obtain ⟨pos, n, -, -, h⟩ | ⟨-, -, h⟩ | ⟨pos, -, -, -, -, h⟩ | ⟨-, -, -, h⟩ :=
    b.addNode_cases now node
  · exact Or.inl (by rw [h])
  · exact Or.inl (by rw [h])
  · exact Or.inl (by rw [h])
  · exact Or.inr (by rw [h])

/-- The halves of a bucket are new. -/
theorem redistribute_lastchange {nodes : List Node} : ∀ {now : ℕ → ℕ} {b₀ b₁ c₀ c₁ : Bucket},
    redistribute now nodes b₀ b₁ = some (c₀, c₁) → (∀ i, t ≤ now i) → t ≤ b₀.lastchange →
    t ≤ b₁.lastchange → t ≤ c₀.lastchange ∧ t ≤ c₁.lastchange := by
  have hadd : ∀ {b : Bucket} {now : ℕ → ℕ} (node : Node), (∀ i, t ≤ now i) → t ≤ b.lastchange →
      t ≤ (b.addNode now node).2.lastchange := by
    intro b now node hnow hb
    rcases lastchange_addNode b now node with h | h
    · rw [h]
      exact hnow 0
    · rwa [h]
  induction nodes with
  | nil =>
      intro now b₀ b₁ c₀ c₁ h _ h₀ h₁
      obtain ⟨rfl, rfl⟩ := Prod.mk.inj (Option.some.inj h)
      exact ⟨h₀, h₁⟩
  | cons node nodes ih =>
      intro now b₀ b₁ c₀ c₁ h hnow h₀ h₁
      rw [redistribute] at h
      obtain ⟨inside, -, h⟩ := Option.bind_eq_some_iff.mp h
      split at h
      · exact ih h (fun i => hnow (i + 16)) (hadd node hnow h₀) h₁
      · exact ih h (fun i => hnow (i + 16)) h₀ (hadd node hnow h₁)

theorem old_splitBucket_le (h : T.splitBucket now index = some T') (hnow : ∀ i, t ≤ now i) :
    old t T' ≤ old t T := by
  obtain ⟨bucket, -, h⟩ := Option.bind_eq_some_iff.mp h
  obtain ⟨⟨b₀, b₁⟩, hsplit, h⟩ := Option.bind_eq_some_iff.mp h
  obtain ⟨⟨c₀, c₁⟩, hredistribute, h⟩ := Option.bind_eq_some_iff.mp h
  obtain ⟨own₀, -, h⟩ := Option.bind_eq_some_iff.mp h
  obtain ⟨own₁, -, h⟩ := Option.bind_eq_some_iff.mp h
  obtain rfl := Option.some.inj h
  obtain ⟨-, hhalves⟩ := Transition.of_ite_eq_some hsplit
  obtain ⟨rfl, rfl⟩ := Prod.mk.inj hhalves
  obtain ⟨h₀, h₁⟩ := redistribute_lastchange hredistribute (fun i => hnow (i + 2)) (hnow 0) (hnow 1)
  show (T.buckets.eraseIdx index ++ [{ c₀ with canSplit := own₀ },
    { c₁ with canSplit := own₁ }]).countP _ ≤ _
  rw [List.countP_append, List.countP_cons_of_neg (by simpa using h₀),
    List.countP_cons_of_neg (by simpa using h₁), List.countP_nil, Nat.add_zero]
  exact (List.eraseIdx_sublist _ _).countP_le

theorem old_insertNode_le {node : Node} {r : AddResult × ℕ × RoutingTable}
    (h : T.insertNode now node = some r) (hnow : ∀ i, t ≤ now i) : old t r.2.2 ≤ old t T := by
  obtain ⟨index, -, h⟩ := Option.bind_eq_some_iff.mp h
  obtain ⟨bucket, hbucket, h⟩ := Option.bind_eq_some_iff.mp h
  obtain rfl := Option.some.inj h
  apply old_modifyBucket_le
  intro b hb hlt
  obtain rfl := Option.some.inj (hbucket.symm.trans hb)
  rcases lastchange_addNode bucket now node with hchange | hchange
  · rw [hchange] at hlt
    exact absurd hlt (Nat.not_lt.mpr (hnow 0))
  · rwa [hchange] at hlt

theorem old_added_le (isSuccess : Bool) {changed : ℕ} (hchanged : t ≤ changed) :
    old t (T.added changed isSuccess index).2 ≤ old t T := by
  rcases isSuccess with _ | _
  · exact le_rfl
  · exact old_modifyBucket_le fun b _ hlt => absurd hlt (Nat.not_lt.mpr hchanged)

theorem old_addNode_le {node : Node} {r : Bool × RoutingTable} (h : T.addNode now node = some r)
    (hnow : ∀ i, t ≤ now i) : old t r.2 ≤ old t T := by
  unfold RoutingTable.addNode at h
  split at h
  · obtain rfl := Option.some.inj h
    exact le_rfl
  · obtain ⟨⟨result, index, T₁⟩, hinsert, h⟩ := Option.bind_eq_some_iff.mp h
    have h₁ := old_insertNode_le hinsert fun i => hnow (i + 1)
    dsimp only at h h₁
    split at h
    · obtain ⟨bucket, -, h⟩ := Option.bind_eq_some_iff.mp h
      split at h
      · obtain ⟨T₂, hsplit, h⟩ := Option.bind_eq_some_iff.mp h
        obtain ⟨⟨result', index', T₃⟩, hinsert', h⟩ := Option.bind_eq_some_iff.mp h
        obtain rfl := Option.some.inj h
        have h₂ := old_splitBucket_le hsplit fun i => hnow (i + 200)
        have h₃ := old_insertNode_le hinsert' fun i => hnow (i + 100)
        exact (old_added_le _ (hnow 0)).trans (h₃.trans (h₂.trans h₁))
      · obtain rfl := Option.some.inj h
        exact (old_added_le _ (hnow 0)).trans h₁
    · obtain rfl := Option.some.inj h
      exact (old_added_le _ (hnow 0)).trans h₁

/-- **No operation makes more of them.** -/
theorem old_step {op : Op} (h : Routing.step T op = some T') (hop : After t op) :
    old t T' ≤ old t T := by
  match op with
  | .addNode node now =>
      obtain ⟨r, hadd, rfl⟩ := Option.map_eq_some_iff.mp h
      exact old_addNode_le hadd hop
  | .markNodeResponded id now =>
      obtain ⟨found, -, h⟩ := Option.bind_eq_some_iff.mp h
      match found with
      | none => exact (Option.some.inj h) ▸ le_rfl
      | some index =>
          obtain rfl := Option.some.inj h
          apply old_modifyBucket_le
          intro b _ hlt
          split at hlt <;> exact hlt
  | .markNodeUnresponsive id =>
      obtain ⟨found, -, h⟩ := Option.bind_eq_some_iff.mp h
      match found with
      | none => exact (Option.some.inj h) ▸ le_rfl
      | some index =>
          obtain rfl := Option.some.inj h
          apply old_modifyBucket_le
          intro b _ hlt
          split at hlt <;> exact hlt
  | .nextRefreshBucket now => exact (Option.some.inj h) ▸ le_rfl
  | .updateLastchange index now =>
      obtain rfl := Option.some.inj h
      exact old_modifyBucket_le fun b _ hlt => absurd hlt (Nat.not_lt.mpr hop)

end Old

/-! ## The run of the loop -/

section Run

variable {H : MaxHeap NodeWithDistance.le} {t : ℕ} {s s' : State} {a : Act}

/-- The nodes of an answer are operations on the table. -/
theorem addNodes_spec {nodes : List (NodeId × SocketAddr)} : ∀ (seen : ℕ → ℕ) {now : ℕ → ℕ → ℕ}
    {T : RoutingTable}, T.Inv → (∀ i j, t ≤ now i j) →
    ∃ T', addNodes seen now T nodes = some T' ∧ T'.Inv ∧ old t T' ≤ old t T := by
  induction nodes with
  | nil => exact fun _ {_ T} h _ => ⟨T, rfl, h, le_rfl⟩
  | cons node nodes ih =>
      intro seen now T h hnow
      obtain ⟨r, hadd, -, hinv⟩ := h.addNode (now 0) (newNode node.1 node.2 (seen 0))
      obtain ⟨T', heq, hinv', hle⟩ := ih (fun i => seen (i + 1)) hinv fun i => hnow (i + 1)
      refine ⟨T', ?_, hinv', hle.trans (old_addNode_le hadd (hnow 0))⟩
      rw [addNodes, hadd]
      exact heq

/-- **An act** whose turn it is does not panic; a bucket that is refreshed is one less. -/
theorem step_spec (h : s.table.Inv) (hallowed : Allowed t a) (hturn : Turn s a) :
    ∃ s', step H s a = some s' ∧ s'.table.Inv ∧
      s'.rounds + old t s'.table ≤ s.rounds + old t s.table := by
  match a with
  | .look now changed fill low =>
      obtain ⟨hnow, hchanged, hlow⟩ := hallowed
      have hphase : s.phase = .looking := hturn
      obtain ⟨s', hlook, hlooked⟩ := look_looked (H := H) h now changed fill hlow
      have hstep : step H s (.look now changed fill low) = some s' := by
        unfold step
        dsimp only
        rw [hphase]
        exact hlook
      refine ⟨s', hstep, ?_⟩
      -- what is refreshed now has not changed since the loop was begun
      have hcount : ∀ {index b}, s.table.buckets[index]? = some b →
          refreshInterval < now index - b.lastchange →
          old t (s.table.modifyBucket index (Bucket.updateLastchange changed)) + 1 =
            old t s.table := by
        intro index b hb hold
        have hlate := hnow index
        exact old_updateLastchange hb (by omega) hchanged
      match hlooked with
      | .fresh _ => exact ⟨h, le_rfl⟩
      | .empty hb hold _ =>
          have hone := hcount hb hold
          exact ⟨h.updateLastchange _ _, by dsimp only; omega⟩
      | .asks hb hold _ _ _ =>
          have hone := hcount hb hold
          exact ⟨h.updateLastchange _ _, by dsimp only; omega⟩
  | .answer nodes seen now =>
      obtain ⟨target, addr, hphase⟩ := hturn
      obtain ⟨T', hadd, hinv, hle⟩ := addNodes_spec seen h hallowed
      refine ⟨⟨T', .looking, s.rounds⟩, ?_, hinv, Nat.add_le_add_left hle _⟩
      unfold step
      dsimp only
      rw [hphase]
      dsimp only
      rw [hadd]
      rfl
  | .other op =>
      obtain ⟨T', hop, -, hinv⟩ := h.step op
      refine ⟨{ s with table := T' }, ?_, hinv, Nat.add_le_add_left (old_step hop hallowed) _⟩
      show (Routing.step s.table op).map _ = _
      rw [hop]
      rfl

/-- An act that was taken had its turn. -/
theorem turn_of_step (h : step H s a = some s') : Turn s a := by
  match a with
  | .look now changed fill low =>
      unfold step at h
      dsimp only at h
      split at h
      · next hphase => exact hphase
      · cases h
  | .answer nodes seen now =>
      unfold step at h
      dsimp only at h
      split at h
      · next hphase => exact ⟨_, _, hphase⟩
      · cases h
  | .other op => exact trivial

/-- **The loop refreshes every bucket once.**  From any table that comes about by the operations,
when the loop is begun at the time `t` and its clock stays within an interval: whatever is answered
and whatever the other tasks do, nothing panics, the table stays well-formed, and no more buckets
are refreshed than had not changed before `t`.  Each look asks the node nearest to an id of a bucket
that is due, and the loop only ends when no bucket is due or no node is known. -/
theorem refresh_sound (H : MaxHeap NodeWithDistance.le) {ownId : NodeId} {created t : ℕ}
    {ops : List Op} {T : RoutingTable} {as : List Act} {s : State}
    (hT : exec Routing.step (RoutingTable.new ownId created) ops = some T)
    (hrun : Run (step H) (fun _ => Allowed t) ⟨T, .looking, 0⟩ as s) :
    s.table.WellFormed ∧ s.rounds + old t s.table ≤ old t T ∧
      (∀ a, Allowed t a → Turn s a → (step H s a).isSome) ∧
      ∀ now changed fill low s', Allowed t (.look now changed fill low) →
        step H s (.look now changed fill low) = some s' → Looked s now changed s' := by
  have hinv : s.table.Inv ∧ s.rounds + old t s.table ≤ old t T := by
    refine hrun.invariant (I := fun s => s.table.Inv ∧ s.rounds + old t s.table ≤ old t T) ?_ ?_
    · obtain ⟨T', hexec, -, hinv⟩ := (RoutingTable.inv_new ownId created).exec ops
      obtain rfl := Option.some.inj (hT.symm.trans hexec)
      exact ⟨hinv, (Nat.zero_add _).le⟩
    · rintro s a s' ⟨hinv, hle⟩ hallowed hstep
      obtain ⟨s'', hstep', hinv', hle'⟩ := step_spec hinv hallowed (turn_of_step hstep)
      obtain rfl := Option.some.inj (hstep.symm.trans hstep')
      exact ⟨hinv', hle'.trans hle⟩
  refine ⟨hinv.1.wellFormed, hinv.2, ?_, ?_⟩
  · intro a hallowed hturn
    obtain ⟨s', hstep, -⟩ := step_spec (H := H) hinv.1 hallowed hturn
    rw [hstep]
    rfl
  · intro now changed fill low s' hallowed hstep
    obtain ⟨s'', hlook, hlooked⟩ := look_looked (H := H) hinv.1 now changed fill hallowed.2.2
    have hphase : s.phase = .looking := turn_of_step hstep
    unfold step at hstep
    dsimp only at hstep
    rw [hphase] at hstep
    obtain rfl := Option.some.inj (hstep.symm.trans hlook)
    exact hlooked

end Run

/-- A node that was seen at the time 0. -/
def oldNode : Node := newNode upperId (.v4 0x7f000001 6881) 0

/-- The table of the own id 0 with this node. -/
def oldTable : RoutingTable := ⟨.zero, [⟨.zero, 0, [oldNode], 0, true⟩]⟩

/-- A look at the time 1000. -/
def lateLook : Act := .look (fun _ => 1000) 1000 (fun _ => 0) (fun _ => 0)

/-- One bucket is due, one node is asked, and the loop is over. -/
theorem refresh_sound_once :
    ∃ s, FreeRun (step (MaxHeap.ofList NodeWithDistance.le)) ⟨oldTable, .looking, 0⟩
        [lateLook, .answer [] (fun _ => 1000) (fun _ _ => 1000), lateLook] s ∧
      (s.phase, s.rounds) = (.done, 1) ∧ s.rounds + old 1000 s.table ≤ old 1000 oldTable := by
  have hT : exec Routing.step (RoutingTable.new .zero 0) [.addNode oldNode fun _ => 0] =
      some oldTable := by rfl
  have hexec : (exec (step (MaxHeap.ofList NodeWithDistance.le)) ⟨oldTable, .looking, 0⟩
      [lateLook, .answer [] (fun _ => 1000) (fun _ _ => 1000), lateLook]).map
        (fun s => (s.phase, s.rounds)) = some (.done, 1) := by decide +kernel
  obtain ⟨s, hs, hview⟩ := Option.map_eq_some_iff.mp hexec
  have hrun : Run (step (MaxHeap.ofList NodeWithDistance.le)) (fun _ => Allowed 1000)
      ⟨oldTable, .looking, 0⟩
      [lateLook, .answer [] (fun _ => 1000) (fun _ _ => 1000), lateLook] s := by
    refine Run.of_exec_guard hs fun _ a ha => ?_
    have hlook : Allowed 1000 lateLook :=
      ⟨fun _ => Nat.le_add_right 1000 _, Nat.le_refl 1000, fun _ h => h⟩
    rcases List.mem_cons.mp ha with rfl | ha
    · exact hlook
    · rcases List.mem_cons.mp ha with rfl | ha
      · exact fun _ _ => Nat.le_refl 1000
      · obtain rfl := List.mem_singleton.mp ha
        exact hlook
  exact ⟨s, .of_exec hs, hview, (refresh_sound _ hT hrun).2.1⟩

end TableRefresh
