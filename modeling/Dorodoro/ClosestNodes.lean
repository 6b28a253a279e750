/-
# The nodes nearest to an id (`bt/dht/routing.rs`)

`find_closest_nodes` walks through all buckets with a max-heap of at most `count` nodes, compared
by their distance to the target and then by their ids, both as arrays of bytes.

* `NodeWithDistance`, its `cmp` and `RoutingTable.findClosestNodes` follow the source; the heap of
  the standard library is any `MaxHeap` of that order;
* `Node.key` is the distance as a 160-bit number, with the id after it;
* `findClosestNodes_eq`: the result is the beginning of a full sort by this key.
-/
import Dorodoro.BoundedHeap
import Dorodoro.RoutingTable
import Mathlib.Data.Prod.Lex

/-! ## Arrays of bytes as numbers -/

theorem fromBeSlice_cons (b : UInt8) {l : Bytes} {n : ℕ} (h : l.length = n) :
    fromBeSlice (n + 1) (b :: l) = 2 ^ (8 * n) * b.toNat + fromBeSlice n l := by
  induction l using List.reverseRecOn generalizing n with
  | nil =>
      subst h
      simp [fromBeSlice]
  | append_singleton l c ih =>
      obtain ⟨m, rfl⟩ : ∃ m, n = m + 1 := ⟨l.length, by simpa using h.symm⟩
      have hl : l.length = m := by simpa using h
      have hpow : 2 ^ (8 * (m + 1)) = 2 ^ (8 * m) * 256 := by rw [Nat.mul_succ, pow_add]; rfl
      rw [← List.cons_append, fromBeSlice_concat (b :: l) c (m + 1) (by simp [hl]), ih hl,
        fromBeSlice_concat l c m hl, hpow]
      ring

theorem fromBeSlice_lt_two_pow {l : Bytes} {n : ℕ} (h : l.length = n) :
    fromBeSlice n l < 2 ^ (8 * n) := by
  rw [pow_mul]
  exact fromBeSlice_lt l n h

/-- Induction over two arrays of one length. -/
theorem sameLength_rule {P : ℕ → Bytes → Bytes → Prop} (hnil : P 0 [] [])
    (hcons : ∀ {n a b} (x y : UInt8), a.length = n → b.length = n → P n a b →
      P (n + 1) (x :: a) (y :: b)) {n : ℕ} :
    ∀ {a b : Bytes}, a.length = n → b.length = n → P n a b := by
  induction n with
  | zero =>
      intro a b ha hb
      rw [List.length_eq_zero_iff.mp ha, List.length_eq_zero_iff.mp hb]
      exact hnil
  | succ n ih =>
      rintro (_ | ⟨x, a⟩) (_ | ⟨y, b⟩) ha hb
      · cases ha
      · cases ha
      · cases hb
      have ha : a.length = n := by simpa using ha
      have hb : b.length = n := by simpa using hb
      exact hcons x y ha hb (ih ha hb)

/-- The xor of two arrays is the xor of the numbers. -/
theorem fromBeSlice_zipWith_xor {n : ℕ} {a b : Bytes} (ha : a.length = n) (hb : b.length = n) :
    fromBeSlice n (List.zipWith (· ^^^ ·) a b) = fromBeSlice n a ^^^ fromBeSlice n b := by
  refine sameLength_rule (P := fun n a b => fromBeSlice n (List.zipWith (· ^^^ ·) a b) =
    fromBeSlice n a ^^^ fromBeSlice n b) rfl ?_ ha hb
  intro n a b x y ha hb ih
  have hz : (List.zipWith (· ^^^ ·) a b).length = n := by simp [ha, hb]
  rw [List.zipWith_cons_cons, fromBeSlice_cons _ hz, fromBeSlice_cons _ ha,
    fromBeSlice_cons _ hb, UInt8.toNat_xor]
  apply Nat.eq_of_testBit_eq
  intro i
  rw [Nat.testBit_xor, Nat.testBit_two_pow_mul_add _ (fromBeSlice_lt_two_pow hz),
    Nat.testBit_two_pow_mul_add _ (fromBeSlice_lt_two_pow ha),
    Nat.testBit_two_pow_mul_add _ (fromBeSlice_lt_two_pow hb), ih]
  split
  · rw [Nat.testBit_xor]
  · rw [Nat.testBit_xor]

theorem fromBeSlice_injective {a b : Bytes} {n : ℕ} (ha : a.length = n) (hb : b.length = n)
    (h : fromBeSlice n a = fromBeSlice n b) : a = b := by
  rw [← toBeBytes_fromBeSlice a n ha, h, toBeBytes_fromBeSlice b n hb]

theorem compare_toNat (x y : UInt8) : compare x y = compare x.toNat y.toNat := by
  show compareOfLessAndEq x y = compareOfLessAndEq x.toNat y.toNat
  simp only [compareOfLessAndEq, UInt8.lt_iff_toNat_lt, UInt8.toNat_inj]

/-- With a number in front the rest decides between equals only. -/
theorem compare_two_pow_mul_add {k x y u v : ℕ} (hu : u < 2 ^ k) (hv : v < 2 ^ k) :
    compare (2 ^ k * x + u) (2 ^ k * y + v) = (compare x y).then (compare u v) := by
  rcases Nat.lt_trichotomy x y with h | rfl | h
  · have hmul : 2 ^ k * (x + 1) ≤ 2 ^ k * y := Nat.mul_le_mul_left _ h
    rw [Nat.compare_eq_lt.mpr h, Nat.compare_eq_lt.mpr (by rw [Nat.mul_succ] at hmul; omega)]
    rfl
  · rw [Nat.compare_eq_eq.mpr rfl, Ordering.eq_then]
    rcases Nat.lt_trichotomy u v with h | rfl | h
    · rw [Nat.compare_eq_lt.mpr h, Nat.compare_eq_lt.mpr (by omega)]
    · rw [Nat.compare_eq_eq.mpr rfl, Nat.compare_eq_eq.mpr rfl]
    · rw [Nat.compare_eq_gt.mpr h, Nat.compare_eq_gt.mpr (by omega)]
  · have hmul : 2 ^ k * (y + 1) ≤ 2 ^ k * x := Nat.mul_le_mul_left _ h
    rw [Nat.compare_eq_gt.mpr h, Nat.compare_eq_gt.mpr (by rw [Nat.mul_succ] at hmul; omega)]
    rfl

/-- Arrays of one length compare as the numbers do. -/
theorem compare_fromBeSlice {n : ℕ} {a b : Bytes} (ha : a.length = n) (hb : b.length = n) :
    compare a b = compare (fromBeSlice n a) (fromBeSlice n b) := by
  refine sameLength_rule (P := fun n a b =>
    compare a b = compare (fromBeSlice n a) (fromBeSlice n b)) rfl ?_ ha hb
  intro n a b x y ha hb ih
  rw [fromBeSlice_cons _ ha, fromBeSlice_cons _ hb,
    compare_two_pow_mul_add (fromBeSlice_lt_two_pow ha) (fromBeSlice_lt_two_pow hb),
    ← compare_toNat, ← ih]
  exact List.compare_cons_cons

namespace Routing

open BoundedHeap

/-! ## The algorithm -/

/-- `NodeId::distance`. -/
def NodeId.distance (a b : NodeId) : {d : Bytes // d.length = 20} :=
  ⟨List.zipWith (· ^^^ ·) a.bytes b.bytes, by simp [a.length_bytes, b.length_bytes]⟩

/-- `NodeWithDistance`. -/
structure NodeWithDistance where
  node : Node
  distance : {d : Bytes // d.length = 20}

/-- `NodeWithDistance::cmp`. -/
def NodeWithDistance.cmp (a b : NodeWithDistance) : Ordering :=
  (compare a.distance.1 b.distance.1).then (compare a.node.id.bytes b.node.id.bytes)

/-- The order of the heap. -/
def NodeWithDistance.le (a b : NodeWithDistance) : Prop := (a.cmp b).isLE = true

/-- `RoutingTable::find_closest_nodes`.  That the heap is created with room for `count` nodes
changes nothing as long as there is so much memory. -/
def RoutingTable.findClosestNodes (H : MaxHeap NodeWithDistance.le) (T : RoutingTable)
    (targetId : NodeId) (count : ℕ) : List Node :=
  if count = 0 then []
  else
    let heap := T.buckets.foldl (fun heap bucket =>
      bucket.nodes.foldl (fun heap node =>
        let heap := H.push heap ⟨node, node.id.distance targetId⟩
        if count < H.len heap then H.pop heap else heap) heap) H.new
    (H.intoSortedVec heap).map NodeWithDistance.node

/-! ## The order -/

/-- An id as a 160-bit number. -/
def NodeId.toNat (id : NodeId) : ℕ := fromBeSlice 20 id.bytes

/-- What the nodes are to be sorted by: the distance to the target, then the id. -/
def NodeId.key (targetId id : NodeId) : ℕ ×ₗ ℕ := toLex (id.toNat ^^^ targetId.toNat, id.toNat)

/-- The key of a node. -/
def Node.key (targetId : NodeId) (n : Node) : ℕ ×ₗ ℕ := NodeId.key targetId n.id

/-- All nodes of the table, sorted. -/
def RoutingTable.sortedNodes (T : RoutingTable) (targetId : NodeId) : List Node :=
  T.nodes.insertionSort fun a b => a.key targetId ≤ b.key targetId

theorem NodeId.toNat_injective {a b : NodeId} (h : a.toNat = b.toNat) : a = b := by
  obtain ⟨x, hx⟩ := a
  obtain ⟨y, hy⟩ := b
  have hxy : x = y := fromBeSlice_injective hx hy h
  subst hxy
  rfl

theorem NodeId.fromBeSlice_distance (a b : NodeId) :
    fromBeSlice 20 (a.distance b).1 = a.toNat ^^^ b.toNat :=
  fromBeSlice_zipWith_xor a.length_bytes b.length_bytes

theorem NodeId.key_injective {targetId a b : NodeId} (h : key targetId a = key targetId b) : a = b :=
  toNat_injective (Prod.mk.inj (toLex.injective h)).2

/-- What `cmp` compares, as numbers. -/
def NodeWithDistance.key (a : NodeWithDistance) : ℕ ×ₗ ℕ :=
  toLex (fromBeSlice 20 a.distance.1, a.node.id.toNat)

theorem NodeWithDistance.le_iff (a b : NodeWithDistance) : a.le b ↔ a.key ≤ b.key := by
  rw [le, cmp, compare_fromBeSlice a.distance.2 b.distance.2,
    compare_fromBeSlice a.node.id.length_bytes b.node.id.length_bytes]
  show _ ↔ toLex _ ≤ toLex _
  rw [Prod.Lex.toLex_le_toLex]
  show _ ↔ fromBeSlice 20 a.distance.1 < fromBeSlice 20 b.distance.1 ∨
    fromBeSlice 20 a.distance.1 = fromBeSlice 20 b.distance.1 ∧ a.node.id.toNat ≤ b.node.id.toNat
  rcases Nat.lt_trichotomy (fromBeSlice 20 a.distance.1) (fromBeSlice 20 b.distance.1) with
    h | h | h
  · rw [Nat.compare_eq_lt.mpr h]
    exact ⟨fun _ => Or.inl h, fun _ => rfl⟩
  · rw [h, Nat.compare_eq_eq.mpr rfl, Ordering.eq_then, Nat.isLE_compare]
    exact ⟨fun hle => Or.inr ⟨rfl, hle⟩, fun hor => hor.elim (by omega) And.right⟩
  · rw [Nat.compare_eq_gt.mpr h]
    exact ⟨nofun, fun hor => by omega⟩

instance : DecidableRel NodeWithDistance.le := fun a b =>
  inferInstanceAs (Decidable ((a.cmp b).isLE = true))

instance : Std.Total NodeWithDistance.le where
  total a b := by
    rw [NodeWithDistance.le_iff, NodeWithDistance.le_iff]
    exact le_total _ _

instance : IsTrans NodeWithDistance NodeWithDistance.le where
  trans a b c := by
    rw [NodeWithDistance.le_iff, NodeWithDistance.le_iff, NodeWithDistance.le_iff]
    exact le_trans

/-! ## The result -/

variable (H : MaxHeap NodeWithDistance.le) (T : RoutingTable) (targetId : NodeId)

/-- A node with its distance to the target. -/
def Node.withDistance (targetId : NodeId) (n : Node) : NodeWithDistance :=
  ⟨n, n.id.distance targetId⟩

theorem Node.key_withDistance (n : Node) : (n.withDistance targetId).key = n.key targetId := by
  rw [NodeWithDistance.key, withDistance, NodeId.fromBeSlice_distance, key, NodeId.key]

/-- The two loops are one over all nodes. -/
theorem RoutingTable.findClosestNodes_of_pos {count : ℕ} (hpos : 0 < count) :
    T.findClosestNodes H targetId count =
      (H.intoSortedVec ((T.nodes.map (Node.withDistance targetId)).foldl
        (H.offer count) H.new)).map NodeWithDistance.node := by
  have hloop : (fun (heap : H.Heap) (bucket : Bucket) =>
        (bucket.nodes.map (Node.withDistance targetId)).foldl (H.offer count) heap) =
      fun heap bucket => bucket.nodes.foldl (fun heap node =>
        H.offer count heap (node.withDistance targetId)) heap := by
    funext heap bucket
    rw [List.foldl_map]
  rw [findClosestNodes, if_neg hpos.ne', nodes, List.map_flatMap, List.foldl_flatMap, hloop]
  rfl

/-- A list of all nodes, sorted by the key. -/
structure RoutingTable.Sort (l : List Node) : Prop where
  perm : l.Perm T.nodes
  ascending : l.Pairwise fun a b => a.key targetId ≤ b.key targetId

theorem RoutingTable.sort_sortedNodes : T.Sort targetId (T.sortedNodes targetId) where
  perm := List.perm_insertionSort _ _
  ascending :=
    List.pairwise_insertionSort (fun a b : Node => a.key targetId ≤ b.key targetId) _

variable {T targetId}

/-- The ids of any two sorts are the same. -/
theorem RoutingTable.Sort.map_id_eq {l l' : List Node} (h : T.Sort targetId l)
    (h' : T.Sort targetId l') : l.map Node.id = l'.map Node.id := by
  have hasc : (l.map Node.id).Pairwise fun a b => NodeId.key targetId a ≤ NodeId.key targetId b :=
    List.pairwise_map.mpr h.ascending
  refine List.Perm.eq_of_pairwise ?_ hasc (List.pairwise_map.mpr h'.ascending)
    ((h.perm.trans h'.perm.symm).map Node.id)
  intro a b _ _ hab hba
  exact NodeId.key_injective (le_antisymm hab hba)

/-- When no two nodes have the same id, any two sorts are the same. -/
theorem RoutingTable.Sort.eq {l l' : List Node} (h : T.Sort targetId l) (h' : T.Sort targetId l')
    (hnodup : (T.nodes.map Node.id).Nodup) : l = l' := by
  refine (h.perm.trans h'.perm.symm).eq_of_pairwise (fun a b ha hb hab hba => ?_)
    h.ascending h'.ascending
  exact List.inj_on_of_nodup_map hnodup (h.perm.mem_iff.mp ha) (h'.perm.mem_iff.mp hb)
    (NodeId.key_injective (le_antisymm hab hba))

/-- The heap finds the beginning of a sort. -/
theorem RoutingTable.exists_sort (T : RoutingTable) (targetId : NodeId) (count : ℕ) :
    ∃ l, T.Sort targetId l ∧ T.findClosestNodes H targetId count = l.take count := by
  rcases Nat.eq_zero_or_pos count with rfl | hpos
  · exact ⟨_, T.sort_sortedNodes targetId, rfl⟩
  · obtain ⟨l, hperm, hasc, heq⟩ := H.smallest_eq count (T.nodes.map (Node.withDistance targetId))
    have hback : (T.nodes.map (Node.withDistance targetId)).map NodeWithDistance.node = T.nodes := by
      rw [List.map_map]
      exact List.map_id _
    -- what is in the list has its distance to the target with it
    have hkey : ∀ a ∈ l, a.key = a.node.key targetId := by
      intro a ha
      obtain ⟨n, -, rfl⟩ := List.mem_map.mp (hperm.mem_iff.mp ha)
      exact n.key_withDistance targetId
    refine ⟨l.map NodeWithDistance.node, ⟨?_, ?_⟩, ?_⟩
    · exact (hperm.map _).trans (List.Perm.of_eq hback)
    · refine List.pairwise_map.mpr (hasc.imp_of_mem fun {a b} ha hb hab => ?_)
      rw [← hkey a ha, ← hkey b hb]
      exact (NodeWithDistance.le_iff a b).mp hab
    · rw [T.findClosestNodes_of_pos H targetId hpos, heq, List.map_take]

variable (T targetId)

/-- **The nearest nodes.**  The result is the beginning of a list of all nodes that is sorted by
distance and id.  Its ids are those of `sortedNodes`, and when no two nodes of the table have the
same id it is `sortedNodes`. -/
theorem findClosestNodes_eq (count : ℕ) :
    ∃ l : List Node, l.Perm T.nodes ∧ (l.Pairwise fun a b => a.key targetId ≤ b.key targetId) ∧
      T.findClosestNodes H targetId count = l.take count ∧
      l.map Node.id = (T.sortedNodes targetId).map Node.id ∧
      ((T.nodes.map Node.id).Nodup → l = T.sortedNodes targetId) := by
  obtain ⟨l, hsort, heq⟩ := T.exists_sort H targetId count
  have hsorted := T.sort_sortedNodes targetId
  exact ⟨l, hsort.perm, hsort.ascending, heq, hsort.map_id_eq hsorted, hsort.eq hsorted⟩

/-- A node whose id is a number. -/
def nodeOf (n : ℕ) : Node :=
  ⟨⟨toBeBytes 20 n, length_toBeBytes 20 n⟩, .v4 0x7f000001 6881, 0, true⟩

/-- Three nodes in two buckets. -/
def threeNodes : RoutingTable :=
  ⟨.zero, [⟨.zero, 1, [nodeOf 5, nodeOf 2], 0, true⟩, ⟨.zero, 1, [nodeOf 3], 0, true⟩]⟩

/-- The two nodes nearest to 1 have the distances 2 and 3. -/
theorem findClosestNodes_eq_threeNodes :
    threeNodes.findClosestNodes (MaxHeap.ofList NodeWithDistance.le) (nodeOf 1).id 2 =
        [nodeOf 3, nodeOf 2] ∧
      (threeNodes.sortedNodes (nodeOf 1).id).take 2 = [nodeOf 3, nodeOf 2] := by
  have hfound : threeNodes.findClosestNodes (MaxHeap.ofList NodeWithDistance.le) (nodeOf 1).id 2 =
      [nodeOf 3, nodeOf 2] := by decide +kernel
  obtain ⟨l, -, -, htake, -, hsorted⟩ :=
    findClosestNodes_eq (MaxHeap.ofList NodeWithDistance.le) threeNodes (nodeOf 1).id 2
  refine ⟨hfound, ?_⟩
  rw [← hsorted (by decide), ← htake, hfound]

variable {T}

/-- In a table that came about by its operations there is one sort. -/
theorem RoutingTable.Inv.findClosestNodes_eq_take (h : T.Inv) (count : ℕ) :
    T.findClosestNodes H targetId count = (T.sortedNodes targetId).take count := by
  obtain ⟨l, hsort, heq⟩ := T.exists_sort H targetId count
  rw [heq, hsort.eq (T.sort_sortedNodes targetId) h.nodup_ids]

end Routing
