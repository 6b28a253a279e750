/-
# Nodes that the routing table refuses

When `RoutingTable::add_node` (`bt/dht/routing.rs`) returns `false`.  The bucket for the node is
then full and has been split at most once.

* `RoutingTable.bucketOf` is the bucket for an id; with the invariant it is the one that covers
  the id (`RoutingTable.Inv.bucketOf_eq_some_iff`);
* `Bucket.Rejects`: what it takes for `Bucket::add_node` to return `BucketFull`;
* `Split.half`: what falls on the side of an id;
* `refusedOnlyIfNeeded_iff`: `add_node` refuses a node only when it must if and only if the
  one split it makes is enough.
-/
import Dorodoro.RoutingTable

open Bitmap Transition

namespace Routing

/-! ## The bucket for an id -/

/-- The bucket that `find_or_create_bucket` returns. -/
def RoutingTable.bucketOf (T : RoutingTable) (id : NodeId) : Option Bucket :=
  (T.findOrCreateBucket id).bind fun index => T.buckets[index]?

section BucketOf

variable {own : NodeId} {b b' : Bucket} {bs : List Bucket} {T : RoutingTable} {id : NodeId}

/-- One bucket covers an id. -/
theorem Partition.eq_of_covers (h : Partition own bs) (hb : b ∈ bs) (hb' : b' ∈ bs)
    (hc : b.covers id = true) (hc' : b'.covers id = true) : b = b' := by
  have hlen : (bs.filter (·.covers id)).length = 1 := by
    rw [← List.countP_eq_length_filter, h.covered id]
  obtain ⟨c, hone⟩ := List.length_eq_one_iff.mp hlen
  have hmem : b ∈ bs.filter (·.covers id) := List.mem_filter.mpr ⟨hb, hc⟩
  have hmem' : b' ∈ bs.filter (·.covers id) := List.mem_filter.mpr ⟨hb', hc'⟩
  rw [hone, List.mem_singleton] at hmem hmem'
  rw [hmem, hmem']

theorem RoutingTable.Inv.bucketOf_eq_some_iff (h : T.Inv) :
    T.bucketOf id = some b ↔ b ∈ T.buckets ∧ b.covers id = true := by
  obtain ⟨index, c, hfind, hc, hcov⟩ := h.find id
  have hof : T.bucketOf id = some c := by
    rw [bucketOf, findOrCreateBucket, hfind]
    exact hc
  rw [hof, Option.some_inj]
  have hmem := List.mem_of_getElem? hc
  constructor
  · rintro rfl
    exact ⟨hmem, hcov⟩
  · rintro ⟨hb, hcov'⟩
    exact Partition.eq_of_covers h hmem hb hcov hcov'

/-- The bucket at a place of the table that covers the id. -/
theorem RoutingTable.Inv.bucketOf_of_getElem? (h : T.Inv) {index : ℕ}
    (hb : T.buckets[index]? = some b) (hc : b.covers id = true) : T.bucketOf id = some b :=
  h.bucketOf_eq_some_iff.mpr ⟨List.mem_of_getElem? hb, hc⟩

theorem RoutingTable.getElem?_modifyBucket {index : ℕ} (f : Bucket → Bucket)
    (hb : T.buckets[index]? = some b) : (T.modifyBucket index f).buckets[index]? = some (f b) := by
  show (T.buckets.modify index f)[index]? = some (f b)
  rw [List.getElem?_modify_eq, hb]
  rfl

end BucketOf

/-! ## A bucket that rejects a node -/

/-- The node is unresponsive, and was last seen too long ago. -/
def Node.Stale (t : ℕ) (n : Node) : Prop :=
  n.responsed = false ∧ refreshInterval < t - n.lastSeen

/-- No node of the bucket is stale when it is looked at. -/
def Bucket.Fresh (now : ℕ → ℕ) (b : Bucket) : Prop :=
  ∀ (i : ℕ) (n : Node), b.nodes[i]? = some n → ¬ n.Stale (now i)

/-- The bucket is full of other nodes, none of which is stale. -/
structure Bucket.Rejects (now : ℕ → ℕ) (b : Bucket) (node : Node) : Prop where
  notMem : node.id ∉ b.ids
  full : kBucketSize ≤ b.nodes.length
  fresh : b.Fresh fun i => now (i + 1)

section Rejects

variable {own : NodeId} {b : Bucket} {now : ℕ → ℕ} {node : Node}

theorem Bucket.popStaleNode_eq_none_iff : b.popStaleNode now = none ↔ b.Fresh now := by
  rw [popStaleNode, Option.map_eq_none_iff, List.find?_eq_none]
  constructor
  · intro h i n hn hstale
    have hmem : (n, i) ∈ b.nodes.zipIdx := by
      rw [List.mem_zipIdx_iff_getElem?]
      exact hn
    apply h (n, i) hmem
    simp [hstale.1, hstale.2]
  · rintro h ⟨n, i⟩ hmem hstale
    rw [List.mem_zipIdx_iff_getElem?] at hmem
    rw [Bool.and_eq_true, Bool.not_eq_true', decide_eq_true_eq] at hstale
    exact h i n hmem hstale

/-- A bucket that rejects the node stays as it is. -/
theorem Bucket.Rejects.addNode_eq (h : b.Rejects now node) :
    b.addNode now node = (.bucketFull node, b) := by
  have hstale := popStaleNode_eq_none_iff.mpr h.fresh
  have hfull := h.full
  obtain ⟨pos, n, hn, hid, -⟩ | ⟨-, hlt, -⟩ | ⟨pos, -, -, -, hpos, -⟩ | ⟨-, -, -, heq⟩ :=
    b.addNode_cases now node
  · exact absurd (hid ▸ List.mem_map_of_mem (List.mem_of_getElem? hn)) h.notMem
  · omega
  · rw [hstale] at hpos
    cases hpos
  · exact heq

/-- A bucket that does not reject the node holds it afterwards. -/
theorem Bucket.addNode_of_not_rejects (h : ¬ b.Rejects now node) :
    (b.addNode now node).1.isSuccess = true ∧ node ∈ (b.addNode now node).2.nodes := by
  obtain ⟨pos, n, hn, -, heq⟩ | ⟨-, -, heq⟩ | ⟨pos, -, -, -, -, heq⟩ | ⟨hnew, hfull, hstale, -⟩ :=
    b.addNode_cases now node
  · rw [heq]
    refine ⟨rfl, (moveToEnd_perm _ pos).mem_iff.mpr ?_⟩
    obtain ⟨hlt, -⟩ := List.getElem?_eq_some_iff.mp hn
    exact List.mem_set hlt node
  · rw [heq]
    exact ⟨rfl, List.mem_append_right _ List.mem_cons_self⟩
  · rw [heq]
    exact ⟨rfl, List.mem_append_right _ List.mem_cons_self⟩
  · exact absurd ⟨hnew, hfull, popStaleNode_eq_none_iff.mp hstale⟩ h

end Rejects

/-! ## One split -/

/-- The id is on the side of another one at the next bit of the bucket. -/
def Bucket.SameSide (b : Bucket) (id id' : NodeId) : Prop :=
  get id.bytes b.prefixLen = get id'.bytes b.prefixLen

instance (b : Bucket) (id id' : NodeId) : Decidable (b.SameSide id id') :=
  inferInstanceAs (Decidable (_ = _))

section Half

variable {own : NodeId} {b b₀ b₁ : Bucket} {id : NodeId}

/-- **The half on the side of an id** holds the nodes on this side. -/
theorem Split.half (h : Split own b b₀ b₁) (hb : b.Inv own) (hc : b.covers id = true) :
    ∃ c, (c = b₀ ∨ c = b₁) ∧ c.covers id = true ∧
      c.nodes = b.nodes.filter (fun n => b.SameSide n.id id) ∧
      (c.canSplit = true ↔ b.canSplit = true ∧ b.SameSide own id) := by
  have hplaced : ∀ n ∈ b.nodes, b.covers n.id = true :=
    fun n hn => hb.placed n.id (List.mem_map_of_mem hn)
  cases hside : get id.bytes b.prefixLen with
  | false =>
      refine ⟨b₀, Or.inl rfl, by rw [h.covers₀, hc, hside]; rfl, ?_, ?_⟩
      · rw [h.nodes₀]
        refine List.filter_congr fun n hn => ?_
        rw [h.covers₀, hplaced n hn]
        simp [Bucket.SameSide, hside]
      · rw [h.canSplit₀, h.covers₀, hb.canSplit_eq, Bucket.SameSide, hside]
        simp
  | true =>
      refine ⟨b₁, Or.inr rfl, by rw [h.covers₁, hc, hside]; rfl, ?_, ?_⟩
      · rw [h.nodes₁]
        refine List.filter_congr fun n hn => ?_
        rw [h.covers₀, hplaced n hn]
        simp [Bucket.SameSide, hside]
      · rw [h.canSplit₁, h.covers₁, hb.canSplit_eq, Bucket.SameSide, hside]
        simp

end Half

/-! ## `add_node` -/

section AddNode

variable {T : RoutingTable} {now : ℕ → ℕ} {node : Node}

/-- The node is stored in its bucket. -/
def RoutingTable.Stores (T : RoutingTable) (node : Node) : Prop :=
  ∃ b, T.bucketOf node.id = some b ∧ node ∈ b.nodes

/-- An insertion that is not rejected stores the node. -/
theorem RoutingTable.Inv.insertNode_stores (h : T.Inv) (ho : node.id ≠ T.ownId) {b : Bucket}
    (hof : T.bucketOf node.id = some b) (hb : ¬ b.Rejects now node) :
    ∃ result index T', T.insertNode now node = some (result, index, T') ∧
      result.isSuccess = true ∧ ∀ t, (T'.added t true index).2.Stores node := by
  obtain ⟨index, b', hb', hc, heq, hinv⟩ := h.insertNode now ho
  obtain rfl : b' = b := Option.some.inj ((h.bucketOf_of_getElem? hb' hc).symm.trans hof)
  obtain ⟨hsuccess, hmem⟩ := Bucket.addNode_of_not_rejects hb
  refine ⟨_, index, _, heq, hsuccess, fun t => ?_⟩
  have hat := getElem?_modifyBucket (fun _ => (b'.addNode now node).2) hb'
  have hlast := getElem?_modifyBucket (Bucket.updateLastchange t) hat
  have hcov : ((b'.addNode now node).2.updateLastchange t).covers node.id = true := by
    have hr : SameRange b' (b'.addNode now node).2 := Bucket.addNode_sameRange
    show (b'.addNode now node).2.covers node.id = true
    rwa [hr.covers_eq]
  exact ⟨_, (hinv.added t true index).bucketOf_of_getElem? hlast hcov, hmem⟩

/-- An insertion that is rejected leaves the bucket as it is. -/
theorem RoutingTable.Inv.insertNode_rejected (h : T.Inv) (ho : node.id ≠ T.ownId) {b : Bucket}
    (hof : T.bucketOf node.id = some b) (hb : b.Rejects now node) :
    ∃ index T', T.insertNode now node = some (.bucketFull node, index, T') ∧
      T'.Inv ∧ T'.ownId = T.ownId ∧ T'.buckets.length = T.buckets.length ∧
      T'.buckets[index]? = some b ∧ b.covers node.id = true := by
  obtain ⟨index, b', hb', hc, heq, hinv⟩ := h.insertNode now ho
  obtain rfl : b' = b := Option.some.inj ((h.bucketOf_of_getElem? hb' hc).symm.trans hof)
  rw [hb.addNode_eq] at heq hinv
  exact ⟨index, _, heq, hinv, rfl, List.length_modify _ _ _, getElem?_modifyBucket _ hb', hc⟩

variable (now) in
/-- A split leaves the half on the side of an id in the place of its bucket. -/
theorem RoutingTable.Inv.splitBucket_half (h : T.Inv) {index : ℕ} {b : Bucket} {id : NodeId}
    (hb : T.buckets[index]? = some b) (hc : b.covers id = true) (hlen : 2 < b.nodes.length) :
    ∃ T' c, T.splitBucket now index = some T' ∧ T'.Inv ∧ T'.ownId = T.ownId ∧
      T'.buckets.length = T.buckets.length + 1 ∧ T'.bucketOf id = some c ∧
      c.nodes = b.nodes.filter (fun n => b.SameSide n.id id) ∧
      (c.canSplit = true ↔ b.canSplit = true ∧ b.SameSide T.ownId id) := by
  have hbinv := Partition.inv h b (List.mem_of_getElem? hb)
  obtain ⟨b₀, b₁, hs, heq⟩ := splitBucket_eq now hb hbinv
  obtain ⟨c, hhalf, hcov, hnodes, hsplit⟩ := hs.half hbinv hc
  obtain ⟨T', hT', hown, hinv⟩ := h.splitBucket now hb hlen
  obtain rfl := Option.some.inj (hT'.symm.trans heq)
  obtain ⟨hlt, -⟩ := List.getElem?_eq_some_iff.mp hb
  refine ⟨_, c, heq, hinv, rfl, ?_, hinv.bucketOf_eq_some_iff.mpr ⟨?_, hcov⟩, hnodes, hsplit⟩
  · show (T.buckets.eraseIdx index ++ [b₀, b₁]).length = T.buckets.length + 1
    rw [List.length_append, List.length_eraseIdx_of_lt hlt, List.length_cons, List.length_singleton]
    omega
  · show c ∈ T.buckets.eraseIdx index ++ [b₀, b₁]
    rcases hhalf with rfl | rfl
    · exact List.mem_append_right _ List.mem_cons_self
    · exact List.mem_append_right _ (List.mem_cons_of_mem _ List.mem_cons_self)

/-- What `add_node` comes to for a node whose bucket is `b`: the first look at the nodes of the
bucket reads the clock from 2 on, the look behind a split from 101 on. -/
inductive Outcome (now : ℕ → ℕ) (T : RoutingTable) (node : Node) (b : Bucket) :
    Bool → RoutingTable → Prop
  | stored {T' : RoutingTable} : ¬ b.Rejects (fun i => now (i + 1)) node → T'.Stores node →
      Outcome now T node b true T'
  | refused {T' : RoutingTable} : b.Rejects (fun i => now (i + 1)) node → b.canSplit = false →
      T'.bucketOf node.id = some b → T'.buckets.length = T.buckets.length →
      Outcome now T node b false T'
  | splitStored {T' : RoutingTable} {c : Bucket} :
      b.Rejects (fun i => now (i + 1)) node → b.canSplit = true →
      c.nodes = b.nodes.filter (fun n => b.SameSide n.id node.id) →
      ¬ c.Rejects (fun i => now (i + 100)) node → T'.Stores node → Outcome now T node b true T'
  | splitRefused {T' : RoutingTable} {c : Bucket} :
      b.Rejects (fun i => now (i + 1)) node → b.canSplit = true →
      c.nodes = b.nodes.filter (fun n => b.SameSide n.id node.id) →
      (c.canSplit = true ↔ b.canSplit = true ∧ b.SameSide T.ownId node.id) →
      c.Rejects (fun i => now (i + 100)) node → T'.bucketOf node.id = some c →
      T'.buckets.length = T.buckets.length + 1 → Outcome now T node b false T'

/-- **`RoutingTable::add_node`** makes one attempt, or a split and a second attempt. -/
theorem RoutingTable.Inv.addNode_outcome (h : T.Inv) (ho : node.id ≠ T.ownId) {b : Bucket}
    (hof : T.bucketOf node.id = some b) :
    ∃ r T', T.addNode now node = some (r, T') ∧ Outcome now T node b r T' := by
  unfold RoutingTable.addNode
  rw [if_neg ho]
  by_cases hb : b.Rejects (fun i => now (i + 1)) node
  · obtain ⟨index, T₁, heq, hinv, hown, hlen, hat, hc⟩ := h.insertNode_rejected ho hof hb
    simp only [heq, Option.bind_eq_bind, Option.bind_some, hat]
    cases hsplit : b.canSplit with
    | false =>
        exact ⟨false, T₁, rfl, .refused hb hsplit (hinv.bucketOf_of_getElem? hat hc) hlen⟩
    | true =>
        have hmany : 2 < b.nodes.length := lt_of_lt_of_le (by decide) hb.full
        obtain ⟨T₂, c, heq₂, hinv₂, hown₂, hlen₂, hof₂, hnodes, hcan⟩ :=
          hinv.splitBucket_half (fun i => now (i + 200)) hat hc hmany
        rw [hown] at hcan
        have ho₂ : node.id ≠ T₂.ownId := by rwa [hown₂, hown]
        rw [if_pos rfl, heq₂, Option.bind_some]
        by_cases hcrej : c.Rejects (fun i => now (i + 100)) node
        · obtain ⟨index', T₃, heq₃, hinv₃, -, hlen₃, hat₃, hc₃⟩ :=
            hinv₂.insertNode_rejected ho₂ hof₂ hcrej
          rw [heq₃, Option.bind_some]
          refine ⟨false, T₃, rfl, .splitRefused hb hsplit hnodes hcan hcrej
            (hinv₃.bucketOf_of_getElem? hat₃ hc₃) ?_⟩
          rw [hlen₃, hlen₂, hlen]
        · obtain ⟨result, index', T₃, heq₃, hsuccess, hstores⟩ :=
            hinv₂.insertNode_stores ho₂ hof₂ hcrej
          rw [heq₃, Option.bind_some]
          simp only [hsuccess]
          exact ⟨true, _, rfl, .splitStored hb hsplit hnodes hcrej (hstores (now 0))⟩
  · obtain ⟨result, index, T₁, heq, hsuccess, hstores⟩ := h.insertNode_stores ho hof hb
    simp only [heq, Option.bind_eq_bind, Option.bind_some]
    cases result with
    | bucketFull n => cases hsuccess
    | added => exact ⟨true, _, rfl, .stored hb (hstores (now 0))⟩
    | updated => exact ⟨true, _, rfl, .stored hb (hstores (now 0))⟩
    | replacedStale => exact ⟨true, _, rfl, .stored hb (hstores (now 0))⟩

/-- When `add_node` last looked at the nodes of the bucket: behind a split, or without one. -/
def lastLook (now : ℕ → ℕ) (T T' : RoutingTable) (i : ℕ) : ℕ :=
  if T'.buckets.length = T.buckets.length then now (i + 2) else now (i + 101)

/-- A node that is not refused is stored in its bucket; if it is refused, its bucket is full of
nodes that were not stale when they were last looked at, and cannot be split. -/
def RefusedOnlyIfNeeded (now : ℕ → ℕ) (T : RoutingTable) (node : Node) (r : Bool)
    (T' : RoutingTable) : Prop :=
  ∃ b, T'.bucketOf node.id = some b ∧ (r = true → node ∈ b.nodes) ∧
    (r = false → kBucketSize ≤ b.nodes.length ∧ b.Fresh (lastLook now T T') ∧ b.canSplit = false)

/-- One split is not enough: the bucket for the node rejects it, can be split, and its nodes, the
new node and the own id all fall on one side, where no node has become stale. -/
def OneSplitShort (now : ℕ → ℕ) (T : RoutingTable) (node : Node) : Prop :=
  ∃ b, T.bucketOf node.id = some b ∧ b.Rejects (fun i => now (i + 1)) node ∧ b.canSplit = true ∧
    b.SameSide T.ownId node.id ∧ (∀ n ∈ b.nodes, b.SameSide n.id node.id) ∧
    b.Fresh fun i => now (i + 101)

theorem RoutingTable.Stores.refusedOnlyIfNeeded {T' : RoutingTable} (h : T'.Stores node) :
    RefusedOnlyIfNeeded now T node true T' := by
  obtain ⟨b, hb, hmem⟩ := h
  exact ⟨b, hb, fun _ => hmem, fun hr => by cases hr⟩

/-- What is refused without a split, or behind one. -/
theorem Outcome.refused_iff (h : T.Inv) {b : Bucket} {r : Bool} {T' : RoutingTable}
    (hof : T.bucketOf node.id = some b) (hout : Outcome now T node b r T') :
    RefusedOnlyIfNeeded now T node r T' ↔ ¬ OneSplitShort now T node := by
  have hshort : ∀ {P : Prop}, (b.Rejects (fun i => now (i + 1)) node → b.canSplit = true →
      b.SameSide T.ownId node.id → (∀ n ∈ b.nodes, b.SameSide n.id node.id) →
      (b.Fresh fun i => now (i + 101)) → P) → OneSplitShort now T node → P := by
    rintro P hP ⟨b', hof', hrej, hsplit, hown, hside, hfresh⟩
    obtain rfl : b = b' := Option.some.inj (hof.symm.trans hof')
    exact hP hrej hsplit hown hside hfresh
  -- nothing falls on the other side
  have hall : ∀ {c : Bucket}, c.nodes = b.nodes.filter (fun n => b.SameSide n.id node.id) →
      (∀ n ∈ b.nodes, b.SameSide n.id node.id) → c.nodes = b.nodes := by
    intro c hnodes hside
    rw [hnodes, List.filter_eq_self]
    exact fun n hn => decide_eq_true (hside n hn)
  cases hout with
  | stored hrej hstores =>
      exact iff_of_true hstores.refusedOnlyIfNeeded (hshort fun hb _ _ _ _ => hrej hb)
  | refused hrej hsplit hof' hlen =>
      refine iff_of_true
        ⟨b, hof', fun hr => absurd hr Bool.false_ne_true, fun _ => ⟨hrej.full, ?_, hsplit⟩⟩
        (hshort fun _ hcan _ _ _ => by simp [hsplit] at hcan)
      intro i n hn
      rw [lastLook, if_pos hlen]
      exact hrej.fresh i n hn
  | @splitStored _ c hrej hsplit hnodes hcrej hstores =>
      refine iff_of_true hstores.refusedOnlyIfNeeded (hshort fun _ _ _ hside hfresh => hcrej ?_)
      have heq := hall hnodes hside
      exact ⟨by rw [Bucket.ids, heq]; exact hrej.notMem, by rw [heq]; exact hrej.full,
        by rw [Bucket.Fresh, heq]; exact hfresh⟩
  | @splitRefused _ c hrej hsplit hnodes hcan hcrej hof' hlen =>
      have hside : ∀ n ∈ b.nodes, b.SameSide n.id node.id := by
        have hroom : b.nodes.length ≤ kBucketSize := by
          have hmem := (h.bucketOf_eq_some_iff.mp hof).1
          simpa [Bucket.ids] using (Partition.inv h b hmem).length_le
        have hfull := hcrej.full
        rw [hnodes] at hfull
        have hlength : (b.nodes.filter fun n => b.SameSide n.id node.id).length = b.nodes.length :=
          le_antisymm (List.length_filter_le _ _) (hroom.trans hfull)
        intro n hn
        exact of_decide_eq_true (List.length_filter_eq_length_iff.mp hlength n hn)
      have heq := hall hnodes hside
      have hfresh : b.Fresh fun i => now (i + 101) := by
        intro i n hn
        exact hcrej.fresh i n (heq ▸ hn)
      constructor
      · rintro ⟨c', hc', -, hneeded⟩
        obtain rfl : c = c' := Option.some.inj (hof'.symm.trans hc')
        refine hshort fun _ _ hown _ _ => ?_
        rw [hcan.mpr ⟨hsplit, hown⟩] at hneeded
        exact absurd (hneeded rfl).2.2 (by decide)
      · intro hnot
        refine ⟨c, hof', fun hr => absurd hr Bool.false_ne_true, fun _ => ⟨hcrej.full, ?_, ?_⟩⟩
        · intro i n hn
          rw [lastLook, if_neg (by omega)]
          exact hcrej.fresh i n hn
        · rw [Bool.eq_false_iff]
          intro hc
          exact hnot ⟨b, hof, hrej, hsplit, (hcan.mp hc).2, hside, hfresh⟩

/-- **Refusal.**  In every table that operations lead to, `add_node` refuses a node other than the
own one only if it must, and stores it otherwise, if and only if one split is not too few. -/
theorem refusedOnlyIfNeeded_iff {own : NodeId} {t : ℕ} {ops : List Op}
    (h : exec step (RoutingTable.new own t) ops = some T) (ho : node.id ≠ own) (now : ℕ → ℕ) :
    ∃ r T', T.addNode now node = some (r, T') ∧
      (RefusedOnlyIfNeeded now T node r T' ↔ ¬ OneSplitShort now T node) := by
  obtain ⟨T₀, hexec, hown, hinv⟩ := (RoutingTable.inv_new own t).exec ops
  obtain rfl := Option.some.inj (hexec.symm.trans h)
  obtain ⟨index, b, hfind, hb, hc⟩ := hinv.find node.id
  have hof := hinv.bucketOf_of_getElem? hb hc
  have ho' : node.id ≠ T₀.ownId := by
    rw [hown]
    exact ho
  obtain ⟨r, T', hadd, hout⟩ := hinv.addNode_outcome ho' hof
  exact ⟨r, T', hadd, hout.refused_iff hinv hof⟩

end AddNode

/-- A node whose id starts like the id 0. -/
def closeNode (k : ℕ) : Node :=
  ⟨⟨List.replicate 19 0 ++ [UInt8.ofNat k], by simp⟩, .v4 0 6881, 0, true⟩

/-- Eight of them are added. -/
def closeOps : List Op := (List.range 8).map fun k => .addNode (closeNode (k + 1)) fun _ => 0

/-- A node whose id starts unlike the id 0. -/
def farNode : Node :=
  ⟨⟨128 :: List.replicate 19 0, by simp⟩, .v4 0 6881, 0, true⟩

/-- The split that `closeNode 128` needs is not the next one. -/
theorem oneSplitShort_closeNode {T : RoutingTable}
    (hT : exec step (RoutingTable.new .zero 0) closeOps = some T) :
    OneSplitShort (fun _ => 0) T (closeNode 128) := by
  have heval : ((exec step (RoutingTable.new .zero 0) closeOps).bind fun T =>
      (T.bucketOf (closeNode 128).id).map fun b =>
        decide ((closeNode 128).id ∉ b.ids ∧ kBucketSize ≤ b.nodes.length ∧ b.canSplit = true ∧
          b.SameSide T.ownId (closeNode 128).id ∧
          (∀ n ∈ b.nodes, b.SameSide n.id (closeNode 128).id ∧ n.responsed = true))) =
      some true := by
    decide +kernel
  rw [hT, Option.bind_some] at heval
  obtain ⟨b, hb, hdec⟩ := Option.map_eq_some_iff.mp heval
  obtain ⟨hnew, hfull, hsplit, hown, hside⟩ := of_decide_eq_true hdec
  -- a node that has answered is never stale
  have hfresh : ∀ now, b.Fresh now := fun _ _ n hn hstale =>
    Bool.false_ne_true (hstale.1.symm.trans (hside n (List.mem_of_getElem? hn)).2)
  exact ⟨b, hb, ⟨hnew, hfull, hfresh _⟩, hsplit, hown, fun n hn => (hside n hn).1, hfresh _⟩

/-- The split that `farNode` needs is the next one. -/
theorem not_oneSplitShort_farNode {T : RoutingTable}
    (hT : exec step (RoutingTable.new .zero 0) closeOps = some T) :
    ¬ OneSplitShort (fun _ => 0) T farNode := by
  have heval : ((exec step (RoutingTable.new .zero 0) closeOps).bind fun T =>
      (T.bucketOf farNode.id).map fun b => decide (b.SameSide T.ownId farNode.id)) =
      some false := by
    decide +kernel
  rw [hT, Option.bind_some] at heval
  obtain ⟨b, hb, hother⟩ := Option.map_eq_some_iff.mp heval
  rintro ⟨b', hb', -, -, hown, -⟩
  obtain rfl : b = b' := Option.some.inj (hb.symm.trans hb')
  exact of_decide_eq_false hother hown

theorem refusedOnlyIfNeeded_closeNode : ∃ T,
    exec step (RoutingTable.new .zero 0) closeOps = some T ∧
    (∃ r T', T.addNode (fun _ => 0) (closeNode 128) = some (r, T') ∧
      OneSplitShort (fun _ => 0) T (closeNode 128) ∧
      ¬ RefusedOnlyIfNeeded (fun _ => 0) T (closeNode 128) r T') ∧
    ∃ r T', T.addNode (fun _ => 0) farNode = some (r, T') ∧
      ¬ OneSplitShort (fun _ => 0) T farNode ∧
      RefusedOnlyIfNeeded (fun _ => 0) T farNode r T' := by
  obtain ⟨T, hT, -, -⟩ := (RoutingTable.inv_new .zero 0).exec closeOps
  have hclose : (closeNode 128).id ≠ .zero := by decide
  have hfar : farNode.id ≠ .zero := by decide
  have hshort := oneSplitShort_closeNode hT
  have henough := not_oneSplitShort_farNode hT
  obtain ⟨r, T', hadd, hiff⟩ := refusedOnlyIfNeeded_iff hT hclose fun _ => 0
  obtain ⟨r', T'', hadd', hiff'⟩ := refusedOnlyIfNeeded_iff hT hfar fun _ => 0
  exact ⟨T, hT, ⟨r, T', hadd, hshort, fun h => hiff.mp h hshort⟩,
    r', T'', hadd', henough, hiff'.mpr henough⟩

/-- A ninth one is refused, although its bucket can still be split. -/
theorem not_refusedOnlyIfNeeded_closeNode : ∃ T r T',
    exec step (RoutingTable.new .zero 0) closeOps = some T ∧
      T.addNode (fun _ => 0) (closeNode 9) = some (r, T') ∧
      ¬ RefusedOnlyIfNeeded (fun _ => 0) T (closeNode 9) r T' := by
  have heval : (((exec step (RoutingTable.new .zero 0) closeOps).bind fun T =>
      T.addNode (fun _ => 0) (closeNode 9)).map fun x =>
        (x.1, (x.2.bucketOf (closeNode 9).id).map Bucket.canSplit)) = some (false, some true) := by
    decide +kernel
  obtain ⟨⟨r, T'⟩, hx, hresult⟩ := Option.map_eq_some_iff.mp heval
  obtain ⟨T, hT, hadd⟩ := Option.bind_eq_some_iff.mp hx
  obtain ⟨rfl, hbucket⟩ := Prod.mk.inj hresult
  refine ⟨T, false, T', hT, hadd, ?_⟩
  rintro ⟨b, hb, -, hneeded⟩
  rw [hb] at hbucket
  exact Bool.false_ne_true ((hneeded rfl).2.2.symm.trans (Option.some.inj hbucket))

end Routing
