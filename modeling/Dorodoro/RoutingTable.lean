/-
# The DHT routing table (`bt/dht/routing.rs`)

Buckets of nodes by prefixes of 160-bit ids.  The table starts with one bucket for all ids;
a full bucket that contains the own id is split in two.

* `NodeId`, `Node`, `Bucket` and `RoutingTable` follow the source; a result `none` is a panic
  (an index out of range, or no bucket for an id);
* every function that reads the clock is given the readings, one number for each call of
  `now_secs`;
* `Bucket.covers` is `Bucket::contains` without its index checks, and `Bucket.Inv`,
  `RoutingTable.Inv` are the invariants, of one bucket and of the table;
* `routingTable_sound`: after any sequence of operations no call has panicked, the invariant
  holds, and a split loses no node.
-/
import Dorodoro.Bitmap
import Dorodoro.Bytes
import Dorodoro.Counting
import Dorodoro.Transition
import Mathlib.Data.List.Nodup
import Mathlib.Data.Fintype.Card

open Bitmap Counting Transition

namespace Routing

/-! ## Ids and nodes -/

/-- `NodeId`. -/
structure NodeId where
  bytes : Bytes
  length_bytes : bytes.length = 20
  deriving DecidableEq

theorem length_zeroBytes : (List.replicate 20 (0 : UInt8)).length = 20 := rfl

/-- `NodeId([0; 20])`. -/
def NodeId.zero : NodeId := ⟨List.replicate 20 0, length_zeroBytes⟩

/-- `NodeId::bit`. -/
def NodeId.bit (id : NodeId) (index : ℕ) : Option UInt8 :=
  id.bytes[(bitmapOffset index).1]?.map (· &&& (bitmapOffset index).2)

/-- An id with one bit set. -/
def NodeId.setBit (id : NodeId) (index : ℕ) : NodeId :=
  ⟨set id.bytes index, by rw [length_set, id.length_bytes]⟩

/-- An id with one bit cleared. -/
def NodeId.clearBit (id : NodeId) (index : ℕ) : NodeId :=
  ⟨clear id.bytes index, by rw [length_clear, id.length_bytes]⟩

/-- `Node`; times are in seconds. -/
structure Node where
  id : NodeId
  addr : SocketAddr
  lastSeen : ℕ
  responsed : Bool
  deriving DecidableEq

/-- `Node::touch`. -/
def Node.touch (n : Node) (now : ℕ) : Node := { n with lastSeen := now, responsed := true }

/-! ## Buckets -/

/-- `K_BUCKET_SIZE`. -/
def kBucketSize : ℕ := 8

/-- `REFRESH_INTERVAL`. -/
def refreshInterval : ℕ := 900

/-- `AddResult`. -/
inductive AddResult where
  | added
  | updated
  | replacedStale
  | bucketFull (node : Node)
  deriving DecidableEq

/-- `AddResult::is_success`. -/
def AddResult.isSuccess : AddResult → Bool
  | bucketFull _ => false
  | _ => true

/-- `Bucket`. -/
structure Bucket where
  prefixId : NodeId
  prefixLen : ℕ
  nodes : List Node
  lastchange : ℕ
  canSplit : Bool
  deriving DecidableEq

/-- `Bucket::new`. -/
def Bucket.new (prefixId : NodeId) (prefixLen : ℕ) (canSplit : Bool) (now : ℕ) : Bucket :=
  ⟨prefixId, prefixLen, [], now, canSplit⟩

/-- `Bucket::update_lastchange`. -/
def Bucket.updateLastchange (now : ℕ) (b : Bucket) : Bucket := { b with lastchange := now }

/-- The loop of `Bucket::contains`, for `k` more bits from `i` on. -/
def containsLoop (prefixId id : NodeId) : ℕ → ℕ → Option Bool
  | 0, _ => some true
  | k + 1, i => do
      let a ← prefixId.bit i
      let b ← id.bit i
      if a ≠ b then some false else containsLoop prefixId id k (i + 1)

/-- `Bucket::contains`. -/
def Bucket.contains (b : Bucket) (id : NodeId) : Option Bool :=
  containsLoop b.prefixId id b.prefixLen 0

/-- `Bucket::is_full`. -/
def Bucket.isFull (b : Bucket) : Bool := decide (kBucketSize ≤ b.nodes.length)

/-- The position of a node in a bucket. -/
def Bucket.position (b : Bucket) (id : NodeId) : Option ℕ := b.nodes.findIdx? fun n => n.id = id

/-- `Bucket::move_to_end`. -/
def moveToEnd (nodes : List Node) (pos : ℕ) : List Node :=
  match nodes[pos]? with
  | some node => nodes.eraseIdx pos ++ [node]
  | none => nodes

/-- `Bucket::pop_stale_node`; `now i` is the time when the `i`-th node is looked at. -/
def Bucket.popStaleNode (now : ℕ → ℕ) (b : Bucket) : Option ℕ :=
  (b.nodes.zipIdx.find? fun x =>
    !x.1.responsed && decide (refreshInterval < now x.2 - x.1.lastSeen)).map Prod.snd

/-- `Bucket::add_node`. -/
def Bucket.addNode (now : ℕ → ℕ) (b : Bucket) (node : Node) : AddResult × Bucket :=
  match b.position node.id with
  | some pos =>
      (.updated, { b with nodes := moveToEnd (b.nodes.set pos node) pos, lastchange := now 0 })
  | none =>
      if !b.isFull then (.added, { b with nodes := b.nodes ++ [node], lastchange := now 0 })
      else
        match b.popStaleNode fun i => now (i + 1) with
        | some pos =>
            (.replacedStale, { b with nodes := b.nodes.eraseIdx pos ++ [node], lastchange := now 0 })
        | none => (.bucketFull node, b)

/-- `Bucket::random_node`: `fill` are the bytes of `fill_bytes`, `low` the result of
`random_range(..offset)`. -/
def Bucket.randomNode (fill : ℕ → UInt8) (low : UInt8) (b : Bucket) : Option NodeId :=
  let (index, offset) := bitmapOffset b.prefixLen
  if index < 20 then
    some ⟨(List.range 20).map fun j =>
      if j < index then b.prefixId.bytes.getD j 0
      else if j = index then (b.prefixId.bytes.getD j 0 &&& (255 - (offset - 1))) ||| low
      else fill j, by simp⟩
  else none

/-- `Bucket::split`. -/
def Bucket.split (now : ℕ → ℕ) (b : Bucket) : Option (Bucket × Bucket) :=
  if (bitmapOffset b.prefixLen).1 < 20 then
    some (.new (b.prefixId.clearBit b.prefixLen) (b.prefixLen + 1) b.canSplit (now 0),
      .new (b.prefixId.setBit b.prefixLen) (b.prefixLen + 1) b.canSplit (now 1))
  else none

/-! ## The table -/

/-- `RoutingTable`. -/
structure RoutingTable where
  ownId : NodeId
  buckets : List Bucket

/-- `RoutingTable::new`. -/
def RoutingTable.new (ownId : NodeId) (now : ℕ) : RoutingTable :=
  ⟨ownId, [.new .zero 0 true now]⟩

/-- The nodes of all buckets. -/
def RoutingTable.nodes (T : RoutingTable) : List Node := T.buckets.flatMap Bucket.nodes

/-- The search of `find_bucket_for_node`, from bucket `i` on. -/
def findBucketLoop (id : NodeId) : List Bucket → ℕ → Option (Option ℕ)
  | [], _ => some none
  | b :: bs, i => do
      if ← b.contains id then some (some i) else findBucketLoop id bs (i + 1)

/-- `RoutingTable::find_bucket_for_node`. -/
def RoutingTable.findBucketForNode (T : RoutingTable) (id : NodeId) : Option (Option ℕ) :=
  findBucketLoop id T.buckets 0

/-- `RoutingTable::find_or_create_bucket`. -/
def RoutingTable.findOrCreateBucket (T : RoutingTable) (id : NodeId) : Option ℕ :=
  (T.findBucketForNode id).join

/-- Change one bucket. -/
def RoutingTable.modifyBucket (T : RoutingTable) (index : ℕ) (f : Bucket → Bucket) :
    RoutingTable :=
  { T with buckets := T.buckets.modify index f }

/-- The loop of `split_bucket` that hands out the nodes. -/
def redistribute : (ℕ → ℕ) → List Node → Bucket → Bucket → Option (Bucket × Bucket)
  | _, [], b₀, b₁ => some (b₀, b₁)
  | now, node :: nodes, b₀, b₁ => do
      if ← b₀.contains node.id then
        redistribute (fun i => now (i + 16)) nodes (b₀.addNode now node).2 b₁
      else redistribute (fun i => now (i + 16)) nodes b₀ (b₁.addNode now node).2

/-- `RoutingTable::split_bucket`. -/
def RoutingTable.splitBucket (now : ℕ → ℕ) (T : RoutingTable) (index : ℕ) :
    Option RoutingTable := do
  let bucket ← T.buckets[index]?
  let (b₀, b₁) ← bucket.split now
  let (b₀, b₁) ← redistribute (fun i => now (i + 2)) bucket.nodes b₀ b₁
  let own₀ ← b₀.contains T.ownId
  let own₁ ← b₁.contains T.ownId
  some { T with
    buckets := T.buckets.eraseIdx index ++
      [{ b₀ with canSplit := own₀ }, { b₁ with canSplit := own₁ }] }

/-- The insertion into the bucket for the node, and the bucket's index. -/
def RoutingTable.insertNode (now : ℕ → ℕ) (T : RoutingTable) (node : Node) :
    Option (AddResult × ℕ × RoutingTable) := do
  let index ← T.findOrCreateBucket node.id
  let bucket ← T.buckets[index]?
  let r := bucket.addNode now node
  some (r.1, index, T.modifyBucket index fun _ => r.2)

/-- The end of `RoutingTable::add_node`: a success updates `lastchange` of the bucket. -/
def RoutingTable.added (now : ℕ) (T : RoutingTable) (isSuccess : Bool) (index : ℕ) :
    Bool × RoutingTable :=
  (isSuccess, if isSuccess then T.modifyBucket index (Bucket.updateLastchange now) else T)

/-- `RoutingTable::add_node`. -/
def RoutingTable.addNode (now : ℕ → ℕ) (T : RoutingTable) (node : Node) :
    Option (Bool × RoutingTable) :=
  if node.id = T.ownId then some (false, T)
  else do
    let (result, index, T) ← T.insertNode (fun i => now (i + 1)) node
    match result with
    | .bucketFull node => do
        let bucket ← T.buckets[index]?
        -- one split, and one more attempt
        if bucket.canSplit then do
          let T ← T.splitBucket (fun i => now (i + 200)) index
          let (result, index, T) ← T.insertNode (fun i => now (i + 100)) node
          some (T.added (now 0) result.isSuccess index)
        else some (T.added (now 0) false index)
    | result => some (T.added (now 0) result.isSuccess index)

/-- `RoutingTable::next_refresh_bucket`; `now i` is the time when bucket `i` is looked at. -/
def RoutingTable.nextRefreshBucket (now : ℕ → ℕ) (T : RoutingTable) : Option ℕ :=
  (T.buckets.zipIdx.find? fun x =>
    decide (refreshInterval < now x.2 - x.1.lastchange)).map Prod.snd

/-- `RoutingTable::mark_node_responded`. -/
def RoutingTable.markNodeResponded (now : ℕ) (T : RoutingTable) (id : NodeId) :
    Option RoutingTable := do
  match ← T.findBucketForNode id with
  | some index =>
      some (T.modifyBucket index fun b =>
        match b.position id with
        | some pos => { b with nodes := moveToEnd (b.nodes.modify pos (·.touch now)) pos }
        | none => b)
  | none => some T

/-- `RoutingTable::mark_node_unresponsive`. -/
def RoutingTable.markNodeUnresponsive (T : RoutingTable) (id : NodeId) :
    Option RoutingTable := do
  match ← T.findBucketForNode id with
  | some index =>
      some (T.modifyBucket index fun b =>
        match b.position id with
        | some pos => { b with nodes := b.nodes.modify pos ({ · with responsed := false }) }
        | none => b)
  | none => some T

/-- The operations on a table.  `update_lastchange` is called on a bucket that
`next_refresh_bucket` returned; here it may be any bucket. -/
inductive Op where
  | addNode (node : Node) (now : ℕ → ℕ)
  | markNodeResponded (id : NodeId) (now : ℕ)
  | markNodeUnresponsive (id : NodeId)
  | nextRefreshBucket (now : ℕ → ℕ)
  | updateLastchange (index now : ℕ)

/-- One operation. -/
def step (T : RoutingTable) : Op → Option RoutingTable
  | .addNode node now => (T.addNode now node).map Prod.snd
  | .markNodeResponded id now => T.markNodeResponded now id
  | .markNodeUnresponsive id => T.markNodeUnresponsive id
  | .nextRefreshBucket now => let _ := T.nextRefreshBucket now; some T
  | .updateLastchange index now => some (T.modifyBucket index (Bucket.updateLastchange now))

/-! ## Ids and prefixes -/

theorem NodeId.ext_get {x y : NodeId} (h : ∀ i < 160, get x.bytes i = get y.bytes i) : x = y := by
  obtain ⟨a, ha⟩ := x
  obtain ⟨b, hb⟩ := y
  have hab : a = b := Bitmap.ext_get (by omega) (by rwa [ha])
  subst hab
  rfl

/-- `NodeId::bit` tells the bits of two ids apart. -/
theorem NodeId.bit_eq_iff (x y : NodeId) {i : ℕ} (hi : i < 160) :
    ∃ a b, x.bit i = some a ∧ y.bit i = some b ∧ (a = b ↔ get x.bytes i = get y.bytes i) := by
  have hx : i / 8 < x.bytes.length := by rw [x.length_bytes]; omega
  have hy : i / 8 < y.bytes.length := by rw [y.length_bytes]; omega
  refine ⟨x.bytes[i / 8] &&& (bitmapOffset i).2, y.bytes[i / 8] &&& (bitmapOffset i).2, ?_, ?_, ?_⟩
  · rw [bit, show (bitmapOffset i).1 = i / 8 from rfl, List.getElem?_eq_getElem hx]
    rfl
  · rw [bit, show (bitmapOffset i).1 = i / 8 from rfl, List.getElem?_eq_getElem hy]
    rfl
  · have hbit : ∀ c : UInt8, (c &&& (bitmapOffset i).2).toNat =
        (c.toNat.testBit (7 - i % 8)).toNat * 2 ^ (7 - i % 8) := by
      intro c
      rw [UInt8.toNat_and, toNat_mask, Nat.and_two_pow]
    rw [get_eq, get_eq, List.getElem?_eq_getElem hx, List.getElem?_eq_getElem hy,
      ← UInt8.toNat_inj, hbit, hbit, Nat.mul_left_inj (by positivity)]
    simp only [Option.any_some]
    cases x.bytes[i / 8].toNat.testBit (7 - i % 8) <;>
      cases y.bytes[i / 8].toNat.testBit (7 - i % 8) <;> decide

/-- The first bits of an id are those of the prefix. -/
def Bucket.covers (b : Bucket) (id : NodeId) : Bool :=
  (List.range b.prefixLen).all fun i => get b.prefixId.bytes i == get id.bytes i

theorem Bucket.covers_iff {b : Bucket} {id : NodeId} :
    b.covers id = true ↔ ∀ i < b.prefixLen, get b.prefixId.bytes i = get id.bytes i := by
  simp [covers]

theorem containsLoop_eq (x y : NodeId) {k : ℕ} : ∀ {i : ℕ}, i + k ≤ 160 →
    containsLoop x y k i =
      some ((List.range k).all fun j => get x.bytes (i + j) == get y.bytes (i + j)) := by
  induction k with
  | zero => intro i _; rfl
  | succ k ih =>
      intro i hi
      obtain ⟨a, b, ha, hb, hab⟩ := x.bit_eq_iff y (i := i) (by omega)
      have hrest : ((List.range (k + 1)).all fun j => get x.bytes (i + j) == get y.bytes (i + j)) =
          ((get x.bytes i == get y.bytes i) &&
            (List.range k).all fun j => get x.bytes (i + 1 + j) == get y.bytes (i + 1 + j)) := by
        rw [List.range_succ_eq_map, List.all_cons, List.all_map]
        congr 2
        funext j
        simp only [Function.comp]
        rw [Nat.add_assoc, Nat.add_comm 1 j]
      rw [containsLoop, ha, hb, hrest]
      simp only [Option.bind_eq_bind, Option.bind_some]
      by_cases heq : a = b
      · rw [if_neg (not_not.mpr heq), ih (by omega), hab.mp heq]
        simp
      · have hne : get x.bytes i ≠ get y.bytes i := fun h => heq (hab.mpr h)
        rw [if_pos heq, beq_eq_false_iff_ne.mpr hne, Bool.false_and]

/-- **`Bucket::contains`** does not panic on a prefix of at most 160 bits. -/
theorem Bucket.contains_eq {b : Bucket} (h : b.prefixLen ≤ 160) (id : NodeId) :
    b.contains id = some (b.covers id) := by
  rw [contains, containsLoop_eq _ _ (by omega)]
  simp only [Nat.zero_add]
  rfl

theorem findBucketLoop_eq (id : NodeId) : ∀ {bs : List Bucket} {i : ℕ},
    (∀ b ∈ bs, b.prefixLen ≤ 160) →
    findBucketLoop id bs i = some ((bs.findIdx? (·.covers id)).map (· + i)) := by
  intro bs
  induction bs with
  | nil => intro i _; rfl
  | cons b bs ih =>
      intro i h
      rw [findBucketLoop, Bucket.contains_eq (h b List.mem_cons_self), List.findIdx?_cons]
      simp only [Option.bind_eq_bind, Option.bind_some]
      cases b.covers id with
      | true => simp
      | false =>
          rw [if_neg (by decide), ih fun b' hb' => h b' (List.mem_cons_of_mem b hb')]
          simp only [Bool.false_eq_true, if_false, Option.map_map]
          congr 2
          funext j
          simp only [Function.comp]
          omega

/-! ## One bucket -/

/-- The ids of a bucket. -/
def Bucket.ids (b : Bucket) : List NodeId := b.nodes.map Node.id

/-- The invariant of one bucket of the table of `own`. -/
structure Bucket.Inv (own : NodeId) (b : Bucket) : Prop where
  prefixLen_lt : b.prefixLen < 160
  placed : ∀ id ∈ b.ids, b.covers id = true
  nodup : b.ids.Nodup
  own_notMem : own ∉ b.ids
  length_le : b.ids.length ≤ kBucketSize
  canSplit_eq : b.canSplit = b.covers own

section OneBucket

variable {own : NodeId} {b b' : Bucket} {now : ℕ → ℕ} {node : Node}

/-- `SameRange b b'`: the buckets differ in their nodes only. -/
structure SameRange (b b' : Bucket) : Prop where
  prefixId_eq : b'.prefixId = b.prefixId
  prefixLen_eq : b'.prefixLen = b.prefixLen
  canSplit_eq : b'.canSplit = b.canSplit

theorem SameRange.covers_eq (h : SameRange b b') : b'.covers = b.covers := by
  funext id
  rw [Bucket.covers, Bucket.covers, h.prefixId_eq, h.prefixLen_eq]

theorem SameRange.trans {b'' : Bucket} (h : SameRange b b') (h' : SameRange b' b'') :
    SameRange b b'' :=
  ⟨h'.prefixId_eq.trans h.prefixId_eq, h'.prefixLen_eq.trans h.prefixLen_eq,
    h'.canSplit_eq.trans h.canSplit_eq⟩

/-- The ids decide. -/
theorem Bucket.Inv.of_ids (h : b.Inv own) (hr : SameRange b b')
    (hids : ∀ id ∈ b'.ids, id ∈ b.ids ∨ (b.covers id = true ∧ id ≠ own)) (hnd : b'.ids.Nodup)
    (hlen : b'.ids.length ≤ kBucketSize) : b'.Inv own where
  prefixLen_lt := hr.prefixLen_eq ▸ h.prefixLen_lt
  placed := by
    intro id hid
    rw [hr.covers_eq]
    exact (hids id hid).elim (h.placed id) And.left
  nodup := hnd
  own_notMem := fun hown => (hids own hown).elim h.own_notMem fun hnew => hnew.2 rfl
  length_le := hlen
  canSplit_eq := by rw [hr.canSplit_eq, hr.covers_eq, h.canSplit_eq]

theorem Bucket.Inv.of_perm (h : b.Inv own) (hr : SameRange b b') (hp : b'.ids.Perm b.ids) :
    b'.Inv own :=
  h.of_ids hr (fun _ hid => Or.inl (hp.mem_iff.mp hid)) (hp.nodup_iff.mpr h.nodup)
    (hp.length_eq ▸ h.length_le)

/-- A new id is appended to some of the old ones. -/
theorem Bucket.Inv.concat (h : b.Inv own) (hr : SameRange b b') (xs : List NodeId) {id : NodeId}
    (hids : b'.ids = xs ++ [id]) (hsub : xs.Sublist b.ids) (hnew : id ∉ b.ids)
    (hc : b.covers id = true) (ho : id ≠ own) (hlen : xs.length < kBucketSize) : b'.Inv own := by
  refine h.of_ids hr ?_ ?_ ?_
  · intro x hx
    rw [hids, List.mem_append, List.mem_singleton] at hx
    rcases hx with hx | rfl
    · exact Or.inl (hsub.subset hx)
    · exact Or.inr ⟨hc, ho⟩
  · rw [hids, List.nodup_append]
    refine ⟨hsub.nodup h.nodup, List.nodup_singleton id, ?_⟩
    rintro x hx y hy rfl
    rw [List.mem_singleton] at hy
    exact hnew (hy ▸ hsub.subset hx)
  · rw [hids, List.length_append, List.length_singleton]
    exact hlen

theorem moveToEnd_perm (nodes : List Node) (pos : ℕ) : (moveToEnd nodes pos).Perm nodes := by
  unfold moveToEnd
  split
  · next node hnode =>
      obtain ⟨hlt, rfl⟩ := List.getElem?_eq_some_iff.mp hnode
      exact (List.perm_append_singleton _ _).trans (List.getElem_cons_eraseIdx_perm hlt)
  · exact List.Perm.refl _

theorem Bucket.position_eq_some {id : NodeId} {pos : ℕ} (h : b.position id = some pos) :
    ∃ n, b.nodes[pos]? = some n ∧ n.id = id := by
  rw [position, List.findIdx?_eq_some_iff_getElem] at h
  obtain ⟨hlt, hid, -⟩ := h
  exact ⟨b.nodes[pos], List.getElem?_eq_getElem hlt, by simpa using hid⟩

theorem Bucket.position_eq_none {id : NodeId} (h : b.position id = none) : id ∉ b.ids := by
  rw [position, List.findIdx?_eq_none_iff] at h
  rintro hmem
  obtain ⟨n, hn, rfl⟩ := List.mem_map.mp hmem
  simpa using h n hn

/-- Changing a node without its id changes no id. -/
theorem map_id_modify {nodes : List Node} {pos : ℕ} {f : Node → Node}
    (hf : ∀ n, nodes[pos]? = some n → (f n).id = n.id) :
    (nodes.modify pos f).map Node.id = nodes.map Node.id := by
  apply List.ext_getElem?
  intro k
  rw [List.getElem?_map, List.getElem?_map, List.getElem?_modify]
  by_cases hk : pos = k
  · subst hk
    cases hn : nodes[pos]? with
    | none => rfl
    | some n => simp [hf n hn]
  · cases nodes[k]? <;> simp [hk]

theorem Bucket.popStaleNode_lt {pos : ℕ} (h : b.popStaleNode now = some pos) :
    pos < b.nodes.length := by
  obtain ⟨x, hx, rfl⟩ := Option.map_eq_some_iff.mp h
  have hmem := List.mem_of_find?_eq_some hx
  have hlt := (List.mem_zipIdx hmem).2.1
  omega

/-- Everything `Bucket::add_node` can do. -/
theorem Bucket.addNode_cases (b : Bucket) (now : ℕ → ℕ) (node : Node) :
    (∃ pos n, b.nodes[pos]? = some n ∧ n.id = node.id ∧
      b.addNode now node = (.updated, { b with
        nodes := moveToEnd (b.nodes.set pos node) pos, lastchange := now 0 })) ∨
    (node.id ∉ b.ids ∧ b.nodes.length < kBucketSize ∧
      b.addNode now node = (.added, { b with nodes := b.nodes ++ [node], lastchange := now 0 })) ∨
    (∃ pos, node.id ∉ b.ids ∧ kBucketSize ≤ b.nodes.length ∧ pos < b.nodes.length ∧
      b.popStaleNode (fun i => now (i + 1)) = some pos ∧
      b.addNode now node = (.replacedStale, { b with
        nodes := b.nodes.eraseIdx pos ++ [node], lastchange := now 0 })) ∨
    (node.id ∉ b.ids ∧ kBucketSize ≤ b.nodes.length ∧
      b.popStaleNode (fun i => now (i + 1)) = none ∧
      b.addNode now node = (.bucketFull node, b)) := by
  cases hpos : b.position node.id with
  | some pos =>
      obtain ⟨n, hn, hid⟩ := position_eq_some hpos
      exact Or.inl ⟨pos, n, hn, hid, by rw [addNode, hpos]⟩
  | none =>
      have hnew := position_eq_none hpos
      by_cases hfull : kBucketSize ≤ b.nodes.length
      · have hf : (!b.isFull) = false := by simp [isFull, hfull]
        cases hstale : b.popStaleNode fun i => now (i + 1) with
        | some pos =>
            refine Or.inr (Or.inr (Or.inl ⟨pos, hnew, hfull, popStaleNode_lt hstale, rfl, ?_⟩))
            rw [addNode, hpos, hf, hstale]
            rfl
        | none =>
            refine Or.inr (Or.inr (Or.inr ⟨hnew, hfull, rfl, ?_⟩))
            rw [addNode, hpos, hf, hstale]
            rfl
      · have hf : (!b.isFull) = true := by simp [isFull, hfull]
        refine Or.inr (Or.inl ⟨hnew, by omega, ?_⟩)
        rw [addNode, hpos, hf]
        rfl

theorem Bucket.addNode_sameRange : SameRange b (b.addNode now node).2 := by
  obtain ⟨pos, n, -, -, h⟩ | ⟨-, -, h⟩ | ⟨pos, -, -, -, -, h⟩ | ⟨-, -, -, h⟩ :=
    b.addNode_cases now node <;> rw [h] <;> exact ⟨rfl, rfl, rfl⟩

/-- `Bucket::add_node` keeps the invariant of its bucket. -/
theorem Bucket.Inv.addNode (h : b.Inv own) (hc : b.covers node.id = true) (ho : node.id ≠ own) :
    (b.addNode now node).2.Inv own := by
  have hr : SameRange b (b.addNode now node).2 := addNode_sameRange
  obtain ⟨pos, n, hn, hid, heq⟩ | ⟨hnew, hlt, heq⟩ | ⟨pos, hnew, -, hlt, -, heq⟩ | ⟨-, -, -, heq⟩ :=
    b.addNode_cases now node
  · rw [heq] at hr ⊢
    refine h.of_perm hr (((moveToEnd_perm _ pos).map Node.id).trans (List.Perm.of_eq ?_))
    rw [List.set_eq_modify]
    exact map_id_modify fun n' hn' => by rw [hn] at hn'; cases hn'; exact hid.symm
  · rw [heq] at hr ⊢
    refine h.concat hr b.ids ?_ (List.Sublist.refl _) hnew hc ho ?_
    · simp [Bucket.ids]
    · rwa [Bucket.ids, List.length_map]
  · rw [heq] at hr ⊢
    refine h.concat hr (b.ids.eraseIdx pos) ?_ (List.eraseIdx_sublist _ _) hnew hc ho ?_
    · simp [Bucket.ids, List.eraseIdx_map]
    · have hle := h.length_le
      have hpos : pos < b.ids.length := by rwa [Bucket.ids, List.length_map]
      rw [List.length_eraseIdx_of_lt hpos]
      omega
  · rw [heq]
    exact h

/-- More than two ids have fewer than 159 first bits in common. -/
theorem Bucket.Inv.prefixLen_succ_lt (h : b.Inv own) (hlen : 2 < b.nodes.length) :
    b.prefixLen + 1 < 160 := by
  by_contra hge
  have hlast : b.prefixLen = 159 := by have := h.prefixLen_lt; omega
  -- the ids of the bucket can differ in the last bit only
  have hinj : ∀ x ∈ b.ids, ∀ y ∈ b.ids, get x.bytes 159 = get y.bytes 159 → x = y := by
    intro x hx y hy hxy
    apply NodeId.ext_get
    intro i hi
    by_cases hi' : i = 159
    · rw [hi', hxy]
    · rw [← covers_iff.mp (h.placed x hx) i (by omega),
        ← covers_iff.mp (h.placed y hy) i (by omega)]
  have hcard := (h.nodup.map_on hinj).length_le_card
  rw [List.length_map, ids, List.length_map, Fintype.card_bool] at hcard
  omega

end OneBucket

/-! ## Splitting a bucket -/

/-- `Split own b b₀ b₁`: the two buckets are the halves of `b` and hold its nodes. -/
structure Split (own : NodeId) (b b₀ b₁ : Bucket) : Prop where
  prefixLen₀ : b₀.prefixLen = b.prefixLen + 1
  prefixLen₁ : b₁.prefixLen = b.prefixLen + 1
  covers₀ : ∀ id, b₀.covers id = (b.covers id && !get id.bytes b.prefixLen)
  covers₁ : ∀ id, b₁.covers id = (b.covers id && get id.bytes b.prefixLen)
  canSplit₀ : b₀.canSplit = b₀.covers own
  canSplit₁ : b₁.canSplit = b₁.covers own
  nodes₀ : b₀.nodes = b.nodes.filter fun n => b₀.covers n.id
  nodes₁ : b₁.nodes = b.nodes.filter fun n => !b₀.covers n.id

section Splitting

variable {own : NodeId} {b b₀ b₁ : Bucket} {T : RoutingTable}

/-- **Splitting loses no node.** -/
theorem Split.perm (h : Split own b b₀ b₁) : (b₀.nodes ++ b₁.nodes).Perm b.nodes := by
  rw [h.nodes₀, h.nodes₁]
  exact List.filter_append_perm _ _

/-- An id of the bucket is in one of the halves. -/
theorem Split.covers_add (h : Split own b b₀ b₁) (id : NodeId) :
    (b₀.covers id).toNat + (b₁.covers id).toNat = (b.covers id).toNat := by
  rw [h.covers₀, h.covers₁]
  cases b.covers id <;> cases get id.bytes b.prefixLen <;> rfl

/-- Some of the nodes in a smaller bucket. -/
theorem Bucket.Inv.of_filter {b' : Bucket} (h : b.Inv own) {p : Node → Bool}
    (hlen : b'.prefixLen < 160) (hnodes : b'.nodes = b.nodes.filter p)
    (hc : ∀ n, b.covers n.id = true → p n = true → b'.covers n.id = true)
    (hs : b'.canSplit = b'.covers own) : b'.Inv own := by
  have hsub : b'.ids.Sublist b.ids := by
    rw [ids, hnodes]
    exact List.Sublist.map Node.id List.filter_sublist
  refine ⟨hlen, ?_, hsub.nodup h.nodup, fun ho => h.own_notMem (hsub.subset ho),
    hsub.length_le.trans h.length_le, hs⟩
  intro id hid
  obtain ⟨n, hn, rfl⟩ := List.mem_map.mp hid
  rw [hnodes, List.mem_filter] at hn
  exact hc n (h.placed n.id (List.mem_map_of_mem hn.1)) hn.2

/-- The halves of a bucket keep the invariant. -/
theorem Split.inv (h : Split own b b₀ b₁) (hb : b.Inv own) (hlen : b.prefixLen + 1 < 160) :
    b₀.Inv own ∧ b₁.Inv own := by
  constructor
  · exact hb.of_filter (h.prefixLen₀ ▸ hlen) h.nodes₀ (fun _ _ hn => hn) h.canSplit₀
  · refine hb.of_filter (h.prefixLen₁ ▸ hlen) h.nodes₁ (fun n hcov hn => ?_) h.canSplit₁
    rw [h.covers₀] at hn
    rw [h.covers₁, hcov]
    simpa [hcov] using hn

/-- One more bit. -/
theorem Bucket.covers_succ {b' : Bucket} (hlen : b'.prefixLen = b.prefixLen + 1)
    (h : ∀ i < b.prefixLen, get b'.prefixId.bytes i = get b.prefixId.bytes i) (id : NodeId) :
    b'.covers id =
      (b.covers id && (get b'.prefixId.bytes b.prefixLen == get id.bytes b.prefixLen)) := by
  rw [Bool.eq_iff_iff, Bool.and_eq_true, covers_iff, covers_iff, beq_iff_eq, hlen,
    Nat.forall_lt_succ_right]
  constructor
  · rintro ⟨hlow, hlast⟩
    exact ⟨fun i hi => (h i hi).symm.trans (hlow i hi), hlast⟩
  · rintro ⟨hlow, hlast⟩
    exact ⟨fun i hi => (h i hi).trans (hlow i hi), hlast⟩

theorem Bucket.covers_clearBit (b : Bucket) (c : Bool) (t : ℕ) (id : NodeId) :
    (Bucket.new (b.prefixId.clearBit b.prefixLen) (b.prefixLen + 1) c t).covers id =
      (b.covers id && !get id.bytes b.prefixLen) := by
  rw [covers_succ (b := b) rfl]
  · simp [Bucket.new, NodeId.clearBit, get_clear]
  · intro i hi
    simp [Bucket.new, NodeId.clearBit, get_clear, show b.prefixLen ≠ i by omega]

theorem Bucket.covers_setBit (h : b.prefixLen < 160) (c : Bool) (t : ℕ) (id : NodeId) :
    (Bucket.new (b.prefixId.setBit b.prefixLen) (b.prefixLen + 1) c t).covers id =
      (b.covers id && get id.bytes b.prefixLen) := by
  rw [covers_succ (b := b) rfl]
  · have hlt : b.prefixLen < 8 * b.prefixId.bytes.length := by
      rw [b.prefixId.length_bytes]
      exact h
    simp [Bucket.new, NodeId.setBit, get_set, hlt]
  · intro i hi
    simp [Bucket.new, NodeId.setBit, get_set, show b.prefixLen ≠ i by omega]

/-- A new node in a bucket with room. -/
theorem Bucket.addNode_of_notMem (now : ℕ → ℕ) {node : Node} (hnew : node.id ∉ b.ids)
    (hlen : b.nodes.length < kBucketSize) : (b.addNode now node).2.nodes = b.nodes ++ [node] := by
  obtain ⟨pos, n, hn, hid, -⟩ | ⟨-, -, h⟩ | ⟨pos, -, hfull, -⟩ | ⟨-, hfull, -⟩ :=
    b.addNode_cases now node
  · exact absurd (hid ▸ List.mem_map_of_mem (List.mem_of_getElem? hn)) hnew
  · rw [h]
  · omega
  · omega

/-- **The loop of `split_bucket`** gives every node to the half that covers it. -/
theorem redistribute_eq {nodes : List Node} : ∀ (now : ℕ → ℕ) (b₀ b₁ : Bucket),
    b₀.prefixLen ≤ 160 → (b₀.ids ++ nodes.map Node.id).Nodup →
    (b₁.ids ++ nodes.map Node.id).Nodup → b₀.nodes.length + nodes.length ≤ kBucketSize →
    b₁.nodes.length + nodes.length ≤ kBucketSize →
    ∃ c₀ c₁, redistribute now nodes b₀ b₁ = some (c₀, c₁) ∧ SameRange b₀ c₀ ∧ SameRange b₁ c₁ ∧
      c₀.nodes = b₀.nodes ++ (nodes.filter fun n => b₀.covers n.id) ∧
      c₁.nodes = b₁.nodes ++ (nodes.filter fun n => !b₀.covers n.id) := by
  induction nodes with
  | nil =>
      intro now b₀ b₁ _ _ _ _ _
      exact ⟨b₀, b₁, rfl, ⟨rfl, rfl, rfl⟩, ⟨rfl, rfl, rfl⟩, (List.append_nil _).symm,
        (List.append_nil _).symm⟩
  | cons node nodes ih =>
      intro now b₀ b₁ hlen hnd₀ hnd₁ hroom₀ hroom₁
      have hnotMem : ∀ {c : Bucket}, (c.ids ++ (node :: nodes).map Node.id).Nodup →
          node.id ∉ c.ids := by
        intro c hnd hmem
        exact (List.nodup_append.mp hnd).2.2 _ hmem _ List.mem_cons_self rfl
      have hrest : ∀ {c : Bucket}, (c.ids ++ (node :: nodes).map Node.id).Nodup →
          (c.ids ++ nodes.map Node.id).Nodup := by
        intro c hnd
        exact List.Sublist.nodup ((List.Sublist.refl _).append (List.sublist_cons_self _ _)) hnd
      rw [List.length_cons] at hroom₀ hroom₁
      rw [redistribute, Bucket.contains_eq hlen]
      simp only [Option.bind_eq_bind, Option.bind_some]
      -- the node goes to the half that covers it, which has room for it
      cases hcov : b₀.covers node.id with
      | true =>
          have hadd := Bucket.addNode_of_notMem now (hnotMem hnd₀) (by omega)
          have hr : SameRange b₀ (b₀.addNode now node).2 := Bucket.addNode_sameRange
          obtain ⟨c₀, c₁, heq, hr₀, hr₁, h₀, h₁⟩ := ih
            (fun i => now (i + 16)) (b₀.addNode now node).2 b₁ (hr.prefixLen_eq ▸ hlen)
            (by simpa [Bucket.ids, hadd] using hnd₀) (hrest hnd₁)
            (by rw [hadd, List.length_append, List.length_singleton]; omega) (by omega)
          refine ⟨c₀, c₁, heq, hr.trans hr₀, hr₁, ?_, ?_⟩
          · rw [h₀, hadd, hr.covers_eq, List.filter_cons_of_pos (by simp [hcov]), List.append_assoc]
            rfl
          · rw [h₁, hr.covers_eq, List.filter_cons_of_neg (by simp [hcov])]
      | false =>
          have hadd := Bucket.addNode_of_notMem now (hnotMem hnd₁) (by omega)
          have hr : SameRange b₁ (b₁.addNode now node).2 := Bucket.addNode_sameRange
          obtain ⟨c₀, c₁, heq, hr₀, hr₁, h₀, h₁⟩ := ih
            (fun i => now (i + 16)) b₀ (b₁.addNode now node).2 hlen (hrest hnd₀)
            (by simpa [Bucket.ids, hadd] using hnd₁) (by omega)
            (by rw [hadd, List.length_append, List.length_singleton]; omega)
          refine ⟨c₀, c₁, heq, hr₀, hr.trans hr₁, ?_, ?_⟩
          · rw [h₀, List.filter_cons_of_neg (by simp [hcov])]
          · rw [h₁, hadd, List.filter_cons_of_pos (by simp [hcov]), List.append_assoc]
            rfl

/-- **`split_bucket`** replaces a bucket by its halves. -/
theorem RoutingTable.splitBucket_eq (now : ℕ → ℕ) {index : ℕ} (hb : T.buckets[index]? = some b)
    (h : b.Inv T.ownId) :
    ∃ b₀ b₁, Split T.ownId b b₀ b₁ ∧ T.splitBucket now index =
      some { T with buckets := T.buckets.eraseIdx index ++ [b₀, b₁] } := by
  have hlt := h.prefixLen_lt
  have hsplit : b.split now = some
      (.new (b.prefixId.clearBit b.prefixLen) (b.prefixLen + 1) b.canSplit (now 0),
        .new (b.prefixId.setBit b.prefixLen) (b.prefixLen + 1) b.canSplit (now 1)) := by
    rw [Bucket.split, if_pos]
    show b.prefixLen / 8 < 20
    omega
  -- the halves start empty, so each has room for all nodes
  have hroom : b.nodes.length ≤ kBucketSize := by simpa [Bucket.ids] using h.length_le
  obtain ⟨c₀, c₁, heq, hr₀, hr₁, hnodes₀, hnodes₁⟩ := redistribute_eq (fun i => now (i + 2))
    (.new (b.prefixId.clearBit b.prefixLen) (b.prefixLen + 1) b.canSplit (now 0))
    (.new (b.prefixId.setBit b.prefixLen) (b.prefixLen + 1) b.canSplit (now 1))
    (show b.prefixLen + 1 ≤ 160 by omega) h.nodup h.nodup
    (by simpa [Bucket.new] using hroom) (by simpa [Bucket.new] using hroom)
  have hlen₀ : c₀.prefixLen = b.prefixLen + 1 := hr₀.prefixLen_eq
  have hlen₁ : c₁.prefixLen = b.prefixLen + 1 := hr₁.prefixLen_eq
  refine ⟨{ c₀ with canSplit := c₀.covers T.ownId }, { c₁ with canSplit := c₁.covers T.ownId },
    ⟨hlen₀, hlen₁, fun id => ?_, fun id => ?_, rfl, rfl, ?_, ?_⟩, ?_⟩
  · show c₀.covers id = _
    rw [hr₀.covers_eq, Bucket.covers_clearBit]
  · show c₁.covers id = _
    rw [hr₁.covers_eq, Bucket.covers_setBit hlt]
  · show c₀.nodes = b.nodes.filter fun n => c₀.covers n.id
    rw [hnodes₀, hr₀.covers_eq]
    rfl
  · show c₁.nodes = b.nodes.filter fun n => !c₀.covers n.id
    rw [hnodes₁, hr₀.covers_eq]
    rfl
  · rw [splitBucket, hb]
    simp only [Option.bind_eq_bind, Option.bind_some, hsplit, heq]
    rw [Bucket.contains_eq (by omega), Bucket.contains_eq (by omega)]
    rfl

end Splitting

/-! ## The whole table -/

/-- The invariant of the buckets of the table of `own`: they part the ids. -/
structure Partition (own : NodeId) (bs : List Bucket) : Prop where
  covered : ∀ id, bs.countP (·.covers id) = 1
  inv : ∀ b ∈ bs, b.Inv own

/-- The invariant of the table. -/
def RoutingTable.Inv (T : RoutingTable) : Prop := Partition T.ownId T.buckets

section Table

variable {own : NodeId} {b b' b₀ b₁ : Bucket} {bs bs' : List Bucket} {T : RoutingTable}

/-- The order of the buckets does not matter. -/
theorem Partition.of_perm (h : Partition own bs) (hp : bs'.Perm bs) : Partition own bs' where
  covered := fun id => (hp.countP_eq _).trans (h.covered id)
  inv := fun b hb => h.inv b (hp.mem_iff.mp hb)

/-- A bucket may be replaced by one for the same ids. -/
theorem Partition.cons_of_sameRange (h : Partition own (b :: bs)) (hr : SameRange b b')
    (hb : b'.Inv own) : Partition own (b' :: bs) where
  covered := by
    intro id
    have hid := h.covered id
    rw [List.countP_cons] at hid ⊢
    rwa [hr.covers_eq]
  inv := List.forall_mem_cons.mpr ⟨hb, (List.forall_mem_cons.mp h.inv).2⟩

/-- A bucket may be replaced by its halves. -/
theorem Partition.cons_of_split (h : Partition own (b :: bs)) (hs : Split own b b₀ b₁)
    (hlen : b.prefixLen + 1 < 160) : Partition own (b₀ :: b₁ :: bs) where
  covered := by
    intro id
    have hid := h.covered id
    have hadd := hs.covers_add id
    rw [List.countP_cons] at hid
    rw [List.countP_cons, List.countP_cons, ← hid]
    cases hb : b.covers id <;> cases hb₀ : b₀.covers id <;> cases hb₁ : b₁.covers id <;>
      simp_all
  inv := by
    obtain ⟨hb, hbs⟩ := List.forall_mem_cons.mp h.inv
    obtain ⟨h₀, h₁⟩ := hs.inv hb hlen
    exact List.forall_mem_cons.mpr ⟨h₀, List.forall_mem_cons.mpr ⟨h₁, hbs⟩⟩

/-- **Changing one bucket** keeps the invariant if the bucket keeps its own. -/
theorem RoutingTable.Inv.modifyBucket (h : T.Inv) {index : ℕ} {f : Bucket → Bucket}
    (hf : ∀ b, T.buckets[index]? = some b → SameRange b (f b) ∧ (f b).Inv T.ownId) :
    (T.modifyBucket index f).Inv := by
  show Partition T.ownId (T.buckets.modify index f)
  cases hb : T.buckets[index]? with
  | none =>
      rw [List.modify_eq_self (List.getElem?_eq_none_iff.mp hb)]
      exact h
  | some b =>
      obtain ⟨hr, hinv⟩ := hf b hb
      have hold := Partition.of_perm h (cons_eraseIdx_perm hb)
      exact (hold.cons_of_sameRange hr hinv).of_perm (cons_eraseIdx_perm_modify hb f).symm

/-- **Every id has its bucket.** -/
theorem RoutingTable.Inv.find (h : T.Inv) (id : NodeId) :
    ∃ index b, T.findBucketForNode id = some (some index) ∧ T.buckets[index]? = some b ∧
      b.covers id = true := by
  have hlen : ∀ b ∈ T.buckets, b.prefixLen ≤ 160 :=
    fun b hb => (Partition.inv h b hb).prefixLen_lt.le
  have hsome : (T.buckets.findIdx? (·.covers id)).isSome = true := by
    rw [List.findIdx?_isSome, List.any_eq_true]
    have hpos : 0 < T.buckets.countP (·.covers id) := by
      rw [Partition.covered h id]
      exact Nat.one_pos
    obtain ⟨b, hb, hcov⟩ := List.countP_pos_iff.mp hpos
    exact ⟨b, hb, hcov⟩
  obtain ⟨index, hindex⟩ := Option.isSome_iff_exists.mp hsome
  obtain ⟨hlt, hcov, -⟩ := List.findIdx?_eq_some_iff_getElem.mp hindex
  refine ⟨index, T.buckets[index], ?_, List.getElem?_eq_getElem hlt, hcov⟩
  rw [findBucketForNode, findBucketLoop_eq id hlen, hindex]
  rfl

/-- **The insertion** into the bucket for the node. -/
theorem RoutingTable.Inv.insertNode (h : T.Inv) (now : ℕ → ℕ) {node : Node}
    (ho : node.id ≠ T.ownId) :
    ∃ index b, T.buckets[index]? = some b ∧ b.covers node.id = true ∧ T.insertNode now node =
        some ((b.addNode now node).1, index, T.modifyBucket index fun _ => (b.addNode now node).2) ∧
      (T.modifyBucket index fun _ => (b.addNode now node).2).Inv := by
  obtain ⟨index, b, hfind, hb, hcov⟩ := h.find node.id
  refine ⟨index, b, hb, hcov, ?_, ?_⟩
  · rw [RoutingTable.insertNode, findOrCreateBucket, hfind]
    simp only [Option.join_some, Option.bind_eq_bind, Option.bind_some, hb]
  · refine h.modifyBucket fun b' hb' => ?_
    rw [hb, Option.some.injEq] at hb'
    subst hb'
    have hinv := Partition.inv h b (List.mem_of_getElem? hb)
    exact ⟨Bucket.addNode_sameRange, hinv.addNode hcov ho⟩

/-- A change of `lastchange` only. -/
theorem RoutingTable.Inv.updateLastchange (h : T.Inv) (index t : ℕ) :
    (T.modifyBucket index (Bucket.updateLastchange t)).Inv := by
  refine h.modifyBucket fun b hb => ?_
  have hinv := Partition.inv h b (List.mem_of_getElem? hb)
  have hr : SameRange b (b.updateLastchange t) := ⟨rfl, rfl, rfl⟩
  exact ⟨hr, hinv.of_perm hr (List.Perm.refl _)⟩

theorem RoutingTable.Inv.added (h : T.Inv) (t : ℕ) (isSuccess : Bool) (index : ℕ) :
    (T.added t isSuccess index).2.Inv := by
  cases isSuccess with
  | false => exact h
  | true => exact h.updateLastchange index t

@[simp] theorem RoutingTable.added_ownId (t : ℕ) (isSuccess : Bool) (index : ℕ) :
    (T.added t isSuccess index).2.ownId = T.ownId := by
  cases isSuccess <;> rfl

/-- Splitting a bucket of more than two nodes keeps the invariant. -/
theorem RoutingTable.Inv.splitBucket (h : T.Inv) (now : ℕ → ℕ) {index : ℕ}
    (hb : T.buckets[index]? = some b) (hlen : 2 < b.nodes.length) :
    ∃ T', T.splitBucket now index = some T' ∧ T'.ownId = T.ownId ∧ T'.Inv := by
  have hinv := Partition.inv h b (List.mem_of_getElem? hb)
  obtain ⟨b₀, b₁, hs, heq⟩ := splitBucket_eq now hb hinv
  refine ⟨_, heq, rfl, ?_⟩
  have hold := Partition.of_perm h (cons_eraseIdx_perm hb)
  exact (hold.cons_of_split hs (hinv.prefixLen_succ_lt hlen)).of_perm List.perm_append_comm

/-- **`RoutingTable::add_node`** does not panic and keeps the invariant. -/
theorem RoutingTable.Inv.addNode (h : T.Inv) (now : ℕ → ℕ) (node : Node) :
    ∃ r, T.addNode now node = some r ∧ r.2.ownId = T.ownId ∧ r.2.Inv := by
  unfold RoutingTable.addNode
  split
  · exact ⟨_, rfl, rfl, h⟩
  · next ho =>
      obtain ⟨index, b, hb, -, heq, hinv⟩ := h.insertNode (fun i => now (i + 1)) ho
      simp only [heq, Option.bind_eq_bind, Option.bind_some]
      obtain ⟨pos, n, -, -, hadd⟩ | ⟨-, -, hadd⟩ | ⟨pos, -, -, -, -, hadd⟩ | ⟨-, hfull, -, hadd⟩ :=
        b.addNode_cases (fun i => now (i + 1)) node
      · rw [hadd] at hinv ⊢
        exact ⟨_, rfl, rfl, hinv.updateLastchange index (now 0)⟩
      · rw [hadd] at hinv ⊢
        exact ⟨_, rfl, rfl, hinv.updateLastchange index (now 0)⟩
      · rw [hadd] at hinv ⊢
        exact ⟨_, rfl, rfl, hinv.updateLastchange index (now 0)⟩
      · rw [hadd] at hinv ⊢
        -- the bucket is full, and is written back as it was
        have hat : (T.modifyBucket index fun _ => b).buckets[index]? = some b := by
          show (T.buckets.modify index fun _ => b)[index]? = some b
          rw [List.getElem?_modify_eq, hb]
          rfl
        simp only [hat, Option.bind_some]
        split
        · obtain ⟨T', hsplit, hown, hT'⟩ := hinv.splitBucket (fun i => now (i + 200)) hat
            (lt_of_lt_of_le (by decide) hfull)
          have ho' : node.id ≠ T'.ownId := by rwa [hown]
          obtain ⟨index', b', -, -, heq', hinv'⟩ := hT'.insertNode (fun i => now (i + 100)) ho'
          simp only [hsplit, heq', Option.bind_some]
          refine ⟨_, rfl, ?_, hinv'.added _ _ _⟩
          rw [added_ownId]
          exact hown
        · exact ⟨_, rfl, rfl, hinv⟩

/-- A change of one node that keeps its id. -/
theorem RoutingTable.Inv.modifyNode (h : T.Inv) (index : ℕ) (id : NodeId)
    {g : List Node → ℕ → List Node}
    (hg : ∀ (nodes : List Node) pos, ((g nodes pos).map Node.id).Perm (nodes.map Node.id)) :
    (T.modifyBucket index fun b =>
      match b.position id with
      | some pos => { b with nodes := g b.nodes pos }
      | none => b).Inv := by
  refine h.modifyBucket fun b hb => ?_
  have hinv := Partition.inv h b (List.mem_of_getElem? hb)
  split
  · next pos _ =>
      have hr : SameRange b { b with nodes := g b.nodes pos } := ⟨rfl, rfl, rfl⟩
      exact ⟨hr, hinv.of_perm hr (hg b.nodes pos)⟩
  · exact ⟨⟨rfl, rfl, rfl⟩, hinv⟩

/-- `mark_node_responded` does not panic and keeps the invariant. -/
theorem RoutingTable.Inv.markNodeResponded (h : T.Inv) (id : NodeId) (t : ℕ) :
    ∃ T', T.markNodeResponded t id = some T' ∧ T'.ownId = T.ownId ∧ T'.Inv := by
  obtain ⟨index, b, hfind, -, -⟩ := h.find id
  rw [RoutingTable.markNodeResponded, hfind]
  simp only [Option.bind_eq_bind, Option.bind_some]
  refine ⟨_, rfl, rfl, ?_⟩
  refine h.modifyNode index id (g := fun nodes pos => moveToEnd (nodes.modify pos (·.touch t)) pos)
    fun nodes pos => ?_
  refine ((moveToEnd_perm _ pos).map Node.id).trans (List.Perm.of_eq ?_)
  exact map_id_modify fun _ _ => rfl

/-- `mark_node_unresponsive` does not panic and keeps the invariant. -/
theorem RoutingTable.Inv.markNodeUnresponsive (h : T.Inv) (id : NodeId) :
    ∃ T', T.markNodeUnresponsive id = some T' ∧ T'.ownId = T.ownId ∧ T'.Inv := by
  obtain ⟨index, b, hfind, -, -⟩ := h.find id
  rw [RoutingTable.markNodeUnresponsive, hfind]
  simp only [Option.bind_eq_bind, Option.bind_some]
  refine ⟨_, rfl, rfl, ?_⟩
  refine h.modifyNode index id
    (g := fun nodes pos => nodes.modify pos ({ · with responsed := false })) fun nodes pos => ?_
  exact List.Perm.of_eq (map_id_modify fun _ _ => rfl)

theorem RoutingTable.inv_new (own : NodeId) (t : ℕ) : (RoutingTable.new own t).Inv where
  covered := fun _ => rfl
  inv := by
    intro b hb
    obtain rfl := List.mem_singleton.mp hb
    exact ⟨show 0 < 160 by decide, fun id hid => absurd hid List.not_mem_nil, List.nodup_nil,
      List.not_mem_nil, Nat.zero_le _, rfl⟩

/-- **One operation** does not panic and keeps the invariant. -/
theorem RoutingTable.Inv.step (h : T.Inv) (op : Op) :
    ∃ T', step T op = some T' ∧ T'.ownId = T.ownId ∧ T'.Inv := by
  cases op with
  | addNode node now =>
      obtain ⟨r, heq, hown, hinv⟩ := h.addNode now node
      exact ⟨r.2, by rw [Routing.step, heq]; rfl, hown, hinv⟩
  | markNodeResponded id now => exact h.markNodeResponded id now
  | markNodeUnresponsive id => exact h.markNodeUnresponsive id
  | nextRefreshBucket now => exact ⟨T, rfl, rfl, h⟩
  | updateLastchange index now => exact ⟨_, rfl, rfl, h.updateLastchange index now⟩

/-- **Any sequence of operations** runs through and keeps the invariant. -/
theorem RoutingTable.Inv.exec (h : T.Inv) (ops : List Op) :
    ∃ T', Transition.exec Routing.step T ops = some T' ∧ T'.ownId = T.ownId ∧ T'.Inv := by
  induction ops generalizing T with
  | nil => exact ⟨T, rfl, rfl, h⟩
  | cons op ops ih =>
      obtain ⟨T₁, hstep, hown, hinv⟩ := h.step op
      obtain ⟨T', hexec, hown', hinv'⟩ := ih hinv
      exact ⟨T', by rw [exec_cons, hstep]; exact hexec, hown'.trans hown, hinv'⟩

/-! ## What the invariant gives -/

/-- What the table guarantees, in the words of the source. -/
structure RoutingTable.WellFormed (T : RoutingTable) : Prop where
  /-- Every id is contained in one bucket. -/
  contained : ∀ id, T.buckets.countP (fun b => b.contains id == some true) = 1
  /-- `find_or_create_bucket` does not panic. -/
  found : ∀ id, (T.findOrCreateBucket id).isSome = true
  placed : ∀ b ∈ T.buckets, ∀ n ∈ b.nodes, b.contains n.id = some true
  nodup : (T.nodes.map Node.id).Nodup
  own_notMem : T.ownId ∉ T.nodes.map Node.id
  capacity : ∀ b ∈ T.buckets, b.nodes.length ≤ 8
  one_canSplit : T.buckets.countP (·.canSplit) = 1
  canSplit_iff : ∀ b ∈ T.buckets, b.canSplit = true ↔ b.contains T.ownId = some true
  prefixLen_lt : ∀ b ∈ T.buckets, b.prefixLen < 160
  /-- `random_node` does not index out of range. -/
  randomNode : ∀ b ∈ T.buckets, ∀ fill low, (b.randomNode fill low).isSome = true
  /-- `split_bucket` does not panic and loses no node. -/
  split : ∀ index < T.buckets.length, ∀ now,
    ∃ T', T.splitBucket now index = some T' ∧ T'.nodes.Perm T.nodes

/-- Two buckets have no id in common. -/
theorem Partition.pairwise (h : Partition own bs) :
    bs.Pairwise fun b b' => ∀ id, b.covers id = true → b'.covers id = false := by
  rw [List.pairwise_iff_forall_sublist]
  intro b b' hsub id hb
  by_contra hb'
  have hle := hsub.countP_le (p := fun c => c.covers id)
  rw [h.covered id] at hle
  simp [hb, hb'] at hle

theorem RoutingTable.Inv.nodup_ids (h : T.Inv) : (T.nodes.map Node.id).Nodup := by
  rw [nodes, List.map_flatMap, List.nodup_flatMap]
  refine ⟨fun b hb => (Partition.inv h b hb).nodup, (Partition.pairwise h).imp_of_mem ?_⟩
  intro b b' hb hb' hdisj id hid hid'
  have hcov := (Partition.inv h b hb).placed id hid
  have hcov' := (Partition.inv h b' hb').placed id hid'
  rw [hdisj id hcov] at hcov'
  exact Bool.false_ne_true hcov'

/-- A split of any bucket keeps all nodes. -/
theorem RoutingTable.Inv.splitBucket_perm (h : T.Inv) {index : ℕ} (hlt : index < T.buckets.length)
    (now : ℕ → ℕ) : ∃ T', T.splitBucket now index = some T' ∧ T'.nodes.Perm T.nodes := by
  have hb := List.getElem?_eq_getElem hlt
  have hinv := Partition.inv h _ (List.mem_of_getElem? hb)
  obtain ⟨b₀, b₁, hs, heq⟩ := splitBucket_eq now hb hinv
  refine ⟨_, heq, ?_⟩
  calc (T.buckets.eraseIdx index ++ [b₀, b₁]).flatMap Bucket.nodes
      _ = (T.buckets.eraseIdx index).flatMap Bucket.nodes ++ (b₀.nodes ++ b₁.nodes) := by simp
      _ |>.Perm ((T.buckets.eraseIdx index).flatMap Bucket.nodes ++ T.buckets[index].nodes) :=
        hs.perm.append_left _
      _ |>.Perm ((T.buckets[index] :: T.buckets.eraseIdx index).flatMap Bucket.nodes) :=
        List.perm_append_comm
      _ |>.Perm (T.buckets.flatMap Bucket.nodes) := (cons_eraseIdx_perm hb).flatMap_right _

theorem RoutingTable.Inv.wellFormed (h : T.Inv) : T.WellFormed := by
  have hcont : ∀ b ∈ T.buckets, ∀ id, b.contains id = some (b.covers id) :=
    fun b hb id => Bucket.contains_eq (Partition.inv h b hb).prefixLen_lt.le id
  refine ⟨fun id => ?_, fun id => ?_, fun b hb n hn => ?_, h.nodup_ids, fun ho => ?_,
    fun b hb => ?_, ?_, fun b hb => ?_, fun b hb => (Partition.inv h b hb).prefixLen_lt,
    fun b hb fill low => ?_, fun index hlt now => h.splitBucket_perm hlt now⟩
  · rw [← Partition.covered h id]
    exact List.countP_congr fun b hb => by simp [hcont b hb id]
  · obtain ⟨index, b, hfind, -, -⟩ := h.find id
    rw [findOrCreateBucket, hfind]
    rfl
  · rw [hcont b hb, (Partition.inv h b hb).placed n.id (List.mem_map_of_mem hn)]
  · obtain ⟨n, hn, hid⟩ := List.mem_map.mp ho
    obtain ⟨b, hb, hn⟩ := List.mem_flatMap.mp hn
    exact (Partition.inv h b hb).own_notMem (hid ▸ List.mem_map_of_mem hn)
  · simpa [Bucket.ids, kBucketSize] using (Partition.inv h b hb).length_le
  · rw [← Partition.covered h T.ownId]
    exact List.countP_congr fun b hb => by rw [(Partition.inv h b hb).canSplit_eq]
  · rw [(Partition.inv h b hb).canSplit_eq, hcont b hb, Option.some.injEq]
  · have hlt := (Partition.inv h b hb).prefixLen_lt
    have hindex : (bitmapOffset b.prefixLen).1 < 20 := show b.prefixLen / 8 < 20 by omega
    simp [Bucket.randomNode, hindex]

end Table

/-- **The routing table is sound.**  From a new table, every sequence of operations, with any
nodes and any readings of the clock, runs through without a panic, and the table it leads to is
well-formed. -/
theorem routingTable_sound (ownId : NodeId) (now : ℕ) (ops : List Op) :
    ∃ T, exec step (RoutingTable.new ownId now) ops = some T ∧ T.ownId = ownId ∧ T.WellFormed := by
  obtain ⟨T, hexec, hown, hinv⟩ := (RoutingTable.inv_new ownId now).exec ops
  exact ⟨T, hexec, hown, hinv.wellFormed⟩

end Routing
