/-
# DHT messages as trees (`bt/dht/entity.rs`)

What a `DHTBase` says, read off the tree that its bytes spell.  The entries may come in any order, a
key may come more than once, and unknown keys are skipped.

* `asValue`, `asNodeId` and `asSocketAddr` are what the decoders of values make of a tree;
* `Message`: every entry of a known key has the type of its field, the last one of a key counts, and
  the fields that must be there are;
* `dhtBase_iff`: what `DHTBase::from_bencode` accepts, with what it says;
* `parse_eq_id_iff`: what the receiver of the UDP server takes for a response.
-/
import Dorodoro.DecoderViews
import Dorodoro.KrpcCodec

open Bendy

namespace DhtMessages

open Routing (NodeId)

/-! ## Values -/

mutual

/-- The view of `Value`. -/
def asValue : Bendy.Tree → Except Error Value
  | .bytes s => .ok (.bytes s)
  | .integer n =>
      match parseSigned 64 n with
      | some i => .ok (.integer i)
      | none => .error (.ofKind (.malformedContent .parseInt))
  | .list items => (itemsAsValues items).map .list
  | .dict pairs => (pairsAsValues [] pairs).map .dict

@[inherit_doc asValue]
def itemsAsValues : List Bendy.Tree → Except Error (List Value)
  | [] => .ok []
  | t :: items => (asValue t).bind fun v => (itemsAsValues items).map (v :: ·)

@[inherit_doc asValue]
def pairsAsValues (entries : List (Bytes × Value)) :
    List (Bytes × Bendy.Tree) → Except Error (List (Bytes × Value))
  | [] => .ok entries
  | (k, t) :: pairs => (asValue t).bind fun v => pairsAsValues (insertEntry k v entries) pairs

end

/-- The values of a list are read one after the other. -/
theorem itemsAsValues_eq (items : List Bendy.Tree) : itemsAsValues items = items.mapM asValue := by
  induction items with
  | nil => rfl
  | cons t items ih =>
      rw [itemsAsValues, List.mapM_cons, ih]
      rcases asValue t with e | v
      · rfl
      · rcases items.mapM asValue with e | vs <;> rfl

/-- The view of an entry of a map. -/
def entryAsValue (entries : List (Bytes × Value)) (k : Bytes) (t : Bendy.Tree) :
    Except Error (List (Bytes × Value)) := (asValue t).map fun v => insertEntry k v entries

/-- The values of a dictionary are collected one after the other. -/
theorem pairsAsValues_eq (pairs : List (Bytes × Bendy.Tree)) (entries : List (Bytes × Value)) :
    pairsAsValues entries pairs = pairs.foldlM (fun s p => entryAsValue s p.1 p.2) entries := by
  induction pairs generalizing entries with
  | nil => rfl
  | cons p pairs ih =>
      rw [List.foldlM_cons, entryAsValue]
      show (asValue p.2).bind (fun v => pairsAsValues (insertEntry p.1 v entries) pairs) = _
      rcases asValue p.2 with e | v
      · rfl
      · exact ih _

/-- A list of values is a list whose elements are values. -/
theorem decodeValue_list (start : ℕ) (d : Decoder) : decodeValue (.list start) d =
    (decodeVec decodeValue (.list start) d).map fun (items, d') => (.list items, d') := by
  have hloop : listLoopN (decodeValueN d.remaining) (d.remaining + 1) [] d =
      listLoopN decodeValue (d.remaining + 1) [] d :=
    listLoopN_congr (decodeValueN_whole _)
      (fun o d' hd _ => decodeValueN_fuel o d' hd (Nat.lt_succ_self _)) [] d (Nat.le_refl _)
  rw [decodeValue, decodeValueN, decodeVec, decodeVec, hloop]

/-- A dictionary of values is a dictionary whose entries are values. -/
theorem decodeValue_dict (start : ℕ) (d : Decoder) : decodeValue (.dict start) d =
    (dictLoop (valueEntry decodeValue) [] (.dict start) d).map fun (entries, d') =>
      (.dict entries, d') := by
  have hentry : ∀ entries k o (d' : Decoder), d'.remaining < d.remaining →
      d'.offset ≤ d'.source.length → valueEntry (decodeValueN d.remaining) entries k o d' =
        valueEntry decodeValue entries k o d' := fun entries k o d' hd _ => by
    rw [valueEntry, valueEntry, decodeValue,
      decodeValueN_fuel (l := d'.remaining + 1) o d' hd (Nat.lt_succ_self _)]
  have hloop := dictLoopN_congr (k := d.remaining + 1) (valueEntry_whole (decodeValueN_whole _))
    hentry [] d (Nat.le_refl _)
  rw [decodeValue, decodeValueN, dictLoop, dictLoop, hloop]

/-- **`Value` is a function of the tree.** -/
theorem decodeValue_views : decodeValue.Views asValue := by
  intro t
  induction t using Tree.induct with
  | bytes s => exact makes_bytes fun d => decodeValueN_bytes _ s d
  | integer n =>
      refine makes_integer fun d => ?_
      rw [decodeValue, decodeValueN_integer, asValue]
      cases parseSigned 64 n <;> rfl
  | list items ih =>
      rw [asValue, itemsAsValues_eq]
      refine ((decodeVec_makes ih).map Value.list).congr fun o d ho => ?_
      cases o with
      | list start => exact decodeValue_list start d
      | _ => simp [Object.name, Tree.name] at ho
  | dict pairs ih =>
      rw [asValue, pairsAsValues_eq]
      have hentry : ∀ p ∈ pairs, ∀ entries,
          (valueEntry decodeValue entries p.1).Makes p.2 (entryAsValue entries p.1 p.2) :=
        fun p hp entries => (ih p hp).map fun v => insertEntry p.1 v entries
      refine ((dictLoop_makes hentry []).map Value.dict).congr fun o d ho => ?_
      cases o with
      | dict start => exact decodeValue_dict start d
      | _ => simp [Object.name, Tree.name] at ho

/-! ## Ids and addresses -/

/-- The view of `NodeId`. -/
def asNodeId (t : Bendy.Tree) : Except Error NodeId :=
  t.asBytes.bind fun bytes =>
    if h : bytes.length = 20 then .ok ⟨bytes, h⟩
    else .error (.ofKind (.unexpectedToken "expected 20-byte node ID"
      ("Invalid id length: " ++ toString bytes.length)))

/-- The view of `SocketAddrExt`. -/
def asSocketAddr (t : Bendy.Tree) : Except Error SocketAddr := t.asBytes.bind toSocketAddr

theorem decodeNodeId_views : decodeNodeId.Views asNodeId := by
  intro t
  refine (decodeBytes_views t).andThen _ fun o d => ?_
  show (decodeBytes o d).bind _ = _
  congr 1
  funext p
  rcases p with ⟨bytes, d'⟩
  dsimp only
  split_ifs
  · rfl
  · rfl

theorem decodeSocketAddr_views : decodeSocketAddr.Views asSocketAddr :=
  fun t => (decodeBytes_views t).andThen toSocketAddr fun _ _ => rfl

theorem decodeNodeId_whole : decodeNodeId.Whole := by
  intro o d a d' h hd
  obtain ⟨⟨bytes, d₁⟩, hbytes, h⟩ := Checked.bind_eq_ok.mp h
  dsimp only at h
  split_ifs at h
  obtain ⟨-, rfl⟩ := Prod.mk.inj (Except.ok.inj h)
  exact decodeBytes_whole hbytes hd

/-! ## Messages -/

section Messages

variable {T : Type} {decode : Decode T} {item : Bendy.Tree → Except Error T}

/-- The view of an entry. -/
def dhtView (item : Bendy.Tree → Except Error T) (s : DhtFields T) (k : Bytes) (t : Bendy.Tree) :
    Except Error (DhtFields T) :=
  if k = key "a" then (context "a" (item t)).map ({ s with a := some · })
  else if k = key "r" then (context "r" (item t)).map ({ s with r := some · })
  else if k = key "q" then (context "q" t.asString).map ({ s with q := some · })
  else if k = key "t" then (context "t" (asValue t)).map ({ s with t := some · })
  else if k = key "y" then (context "y" t.asString).map ({ s with y := some · })
  else if k = key "p" then (context "p" (t.asUnsigned 16)).map ({ s with p := some · })
  else if k = key "v" then (context "v" (asValue t)).map ({ s with v := some · })
  else if k = key "ip" then (asSocketAddr t).map ({ s with ip := some · })
  else if k = key "ipv6" then (asSocketAddr t).map ({ s with ipv6 := some · })
  else if k = key "ipv4" then (asSocketAddr t).map ({ s with ipv4 := some · })
  else if k = key "reqq" then (context "reqq" (t.asUnsigned 32)).map ({ s with reqq := some · })
  else .ok s

theorem addrField_makes {σ : Type} (set : SocketAddr → σ) (t : Bendy.Tree) :
    (addrField set).Makes t ((asSocketAddr t).map set) := (decodeSocketAddr_views t).map set

/-- One entry of a message is decoded as it is viewed. -/
theorem dhtEntry_views (h : decode.Views item) (s : DhtFields T) (k : Bytes) :
    (dhtEntry decode s k).Views (dhtView item s k) := by
  intro t
  refine .ite (fun _ => field_makes (h t)) fun _ => ?_
  refine .ite (fun _ => field_makes (h t)) fun _ => ?_
  refine .ite (fun _ => field_makes (decodeString_views t)) fun _ => ?_
  refine .ite (fun _ => field_makes (decodeValue_views t)) fun _ => ?_
  refine .ite (fun _ => field_makes (decodeString_views t)) fun _ => ?_
  refine .ite (fun _ => field_makes (decodeUnsigned_views 16 t)) fun _ => ?_
  refine .ite (fun _ => field_makes (decodeValue_views t)) fun _ => ?_
  refine .ite (fun _ => addrField_makes _ t) fun _ => ?_
  refine .ite (fun _ => addrField_makes _ t) fun _ => ?_
  refine .ite (fun _ => addrField_makes _ t) fun _ => ?_
  refine .ite (fun _ => field_makes (decodeUnsigned_views 32 t)) fun _ => ?_
  exact unknownField_makes t s

/-- The view of `DHTBase`. -/
def asDhtBase (item : Bendy.Tree → Except Error T) (t : Bendy.Tree) : Except Error (DhtBase T) :=
  (t.asDict (dhtView item) DhtFields.empty).bind DhtFields.finish

/-- **The decoder sees the tree** of a message, whatever its arguments are. -/
theorem decodeDhtBase_views (h : decode.Views item) :
    (decodeDhtBase decode).Views (asDhtBase item) :=
  fun t =>
    (dictLoop_views (dhtEntry_views h) _ t).andThen DhtFields.finish (decodeDhtBase_eq decode)

/-- The decoder consumes the whole message. -/
theorem decodeDhtBase_whole (h : decode.Whole) : (decodeDhtBase decode).Whole := by
  intro o d a d' hdec hd
  rw [decodeDhtBase_eq] at hdec
  obtain ⟨⟨s, d₁⟩, hloop, hfinish⟩ := Checked.bind_eq_ok.mp hdec
  obtain ⟨base, -, he⟩ := Checked.map_eq_ok.mp hfinish
  obtain ⟨-, rfl⟩ := Prod.mk.inj he
  exact dictLoop_whole (dhtEntry_whole h) _ hloop hd

/-- The types of the entries. -/
@[mk_iff]
structure Readable (item : Bendy.Tree → Except Error T) (k : Bytes) (t : Bendy.Tree) : Prop where
  item : k = key "a" ∨ k = key "r" → ∃ x, item t = .ok x
  string : k = key "q" ∨ k = key "y" → ∃ s, t.asString = .ok s
  value : k = key "t" ∨ k = key "v" → ∃ v, asValue t = .ok v
  addr : k = key "ip" ∨ k = key "ipv6" ∨ k = key "ipv4" → ∃ a, asSocketAddr t = .ok a
  p : k = key "p" → ∃ n, t.asUnsigned 16 = .ok n
  reqq : k = key "reqq" → ∃ n, t.asUnsigned 32 = .ok n

/-- **A message** with the id `t` and the response `r`. -/
structure Message (item : Bendy.Tree → Except Error T) (pairs : List (Bytes × Bendy.Tree))
    (t : Value) (r : Option T) : Prop where
  readable : ∀ p ∈ pairs, Readable item p.1 p.2
  t : LastOf asValue (Tree.valuesOf (key "t") pairs) (some t)
  y : Tree.valuesOf (key "y") pairs ≠ []
  content : Tree.valuesOf (key "a") pairs ≠ [] ∨ Tree.valuesOf (key "r") pairs ≠ []
  query : Tree.valuesOf (key "a") pairs ≠ [] → Tree.valuesOf (key "q") pairs ≠ []
  r : LastOf item (Tree.valuesOf (key "r") pairs) r

/-- What an entry can do to the fields that count. -/
theorem dhtView_cases {s s' : DhtFields T} {k : Bytes} {t : Bendy.Tree}
    (h : dhtView item s k t = .ok s') :
    (k = key "a" ∧ ∃ x, item t = .ok x ∧ s' = { s with a := some x }) ∨
    (k = key "r" ∧ ∃ x, item t = .ok x ∧ s' = { s with r := some x }) ∨
    (k = key "q" ∧ ∃ q, t.asString = .ok q ∧ s' = { s with q := some q }) ∨
    (k = key "t" ∧ ∃ v, asValue t = .ok v ∧ s' = { s with t := some v }) ∨
    (k = key "y" ∧ ∃ y, t.asString = .ok y ∧ s' = { s with y := some y }) ∨
    ((k ≠ key "a" ∧ k ≠ key "r" ∧ k ≠ key "q" ∧ k ≠ key "t" ∧ k ≠ key "y") ∧ s'.a = s.a ∧
      s'.r = s.r ∧ s'.q = s.q ∧ s'.t = s.t ∧ s'.y = s.y) := by
  have hset : ∀ {α : Type} {name : String} {x : Except Error α} {set : α → DhtFields T},
      (context name x).map set = .ok s' → ∃ a, x = .ok a ∧ s' = set a := by
    intro α name x set h
    obtain ⟨a, ha, rfl⟩ := Checked.map_eq_ok.mp h
    exact ⟨a, context_eq_ok ha, rfl⟩
  unfold dhtView at h
  by_cases ha : k = key "a"
  · rw [if_pos ha] at h
    exact Or.inl ⟨ha, hset h⟩
  rw [if_neg ha] at h
  by_cases hr : k = key "r"
  · rw [if_pos hr] at h
    exact Or.inr (Or.inl ⟨hr, hset h⟩)
  rw [if_neg hr] at h
  by_cases hq : k = key "q"
  · rw [if_pos hq] at h
    exact Or.inr (Or.inr (Or.inl ⟨hq, hset h⟩))
  rw [if_neg hq] at h
  by_cases ht : k = key "t"
  · rw [if_pos ht] at h
    exact Or.inr (Or.inr (Or.inr (Or.inl ⟨ht, hset h⟩)))
  rw [if_neg ht] at h
  by_cases hy : k = key "y"
  · rw [if_pos hy] at h
    exact Or.inr (Or.inr (Or.inr (Or.inr (Or.inl ⟨hy, hset h⟩))))
  rw [if_neg hy] at h
  -- the other keys leave these fields alone
  refine Or.inr (Or.inr (Or.inr (Or.inr (Or.inr ⟨⟨ha, hr, hq, ht, hy⟩, ?_⟩))))
  iterate 6
    split at h
    · obtain ⟨a, -, rfl⟩ := Checked.map_eq_ok.mp h
      exact ⟨rfl, rfl, rfl, rfl, rfl⟩
  obtain rfl := Except.ok.inj h
  exact ⟨rfl, rfl, rfl, rfl, rfl⟩

/-- Every field of a message is set by its entries. -/
theorem sets_dhtView :
    Sets (dhtView item) (fun k _ => decide (k = key "a")) item DhtFields.a ∧
    Sets (dhtView item) (fun k _ => decide (k = key "r")) item DhtFields.r ∧
    Sets (dhtView item) (fun k _ => decide (k = key "q")) Tree.asString DhtFields.q ∧
    Sets (dhtView item) (fun k _ => decide (k = key "t")) asValue DhtFields.t ∧
    Sets (dhtView item) (fun k _ => decide (k = key "y")) Tree.asString DhtFields.y := by
  refine ⟨?_, ?_, ?_, ?_, ?_⟩
  all_goals
    intro s k t s' h
    rcases dhtView_cases h with ⟨rfl, x, hx, rfl⟩ | ⟨rfl, x, hx, rfl⟩ | ⟨rfl, x, hx, rfl⟩ |
      ⟨rfl, x, hx, rfl⟩ | ⟨rfl, x, hx, rfl⟩ | ⟨⟨ha, hr, hq, ht, hy⟩, ha', hr', hq', ht', hy'⟩
  all_goals simp_all [key_injective.eq_iff]

/-- An entry is accepted if a known key has a value of its type. -/
theorem exists_dhtView_iff (s : DhtFields T) (k : Bytes) (t : Bendy.Tree) :
    (∃ s', dhtView item s k t = .ok s') ↔ Readable item k t := by
  have hmap : ∀ {α : Type} {x : Except Error α} {set : α → DhtFields T},
      (∃ s', x.map set = .ok s') ↔ ∃ a, x = .ok a := by
    intro α x set
    rcases x with e | a
    · exact iff_of_false (fun h => by cases h.choose_spec) (fun h => by cases h.choose_spec)
    · exact iff_of_true ⟨_, rfl⟩ ⟨a, rfl⟩
  rw [readable_iff]
  by_cases ha : k = key "a"
  · subst ha
    simp [dhtView, exists_map_context, key_injective.eq_iff]
  by_cases hr : k = key "r"
  · subst hr
    simp [dhtView, exists_map_context, key_injective.eq_iff]
  by_cases hq : k = key "q"
  · subst hq
    simp [dhtView, exists_map_context, key_injective.eq_iff]
  by_cases ht : k = key "t"
  · subst ht
    simp [dhtView, exists_map_context, key_injective.eq_iff]
  by_cases hy : k = key "y"
  · subst hy
    simp [dhtView, exists_map_context, key_injective.eq_iff]
  by_cases hp : k = key "p"
  · subst hp
    simp [dhtView, exists_map_context, key_injective.eq_iff]
  by_cases hv : k = key "v"
  · subst hv
    simp [dhtView, exists_map_context, key_injective.eq_iff]
  by_cases hip : k = key "ip"
  · subst hip
    simp [dhtView, hmap, key_injective.eq_iff]
  by_cases hip6 : k = key "ipv6"
  · subst hip6
    simp [dhtView, hmap, key_injective.eq_iff]
  by_cases hip4 : k = key "ipv4"
  · subst hip4
    simp [dhtView, hmap, key_injective.eq_iff]
  by_cases hreqq : k = key "reqq"
  · subst hreqq
    simp [dhtView, exists_map_context, key_injective.eq_iff]
  simp [dhtView, ha, hr, hq, ht, hy, hp, hv, hip, hip6, hip4, hreqq]

/-- What the fields at the end of a dictionary make. -/
theorem finish_eq_ok_iff {s : DhtFields T} {t : Value} {r : Option T} :
    (∃ base, s.finish = .ok base ∧ base.t = t ∧ base.r = r) ↔
      s.t = some t ∧ s.y ≠ none ∧ (s.a ≠ none ∨ s.r ≠ none) ∧ (s.a ≠ none → s.q ≠ none) ∧
        s.r = r := by
  obtain ⟨a, r', q, _ | t', _ | y, p, v, ip, ipv6, ipv4, reqq⟩ := s
  · simp [DhtFields.finish, required, Except.bind]
  · simp [DhtFields.finish, required, Except.bind]
  · simp [DhtFields.finish, required, Except.bind]
  · rcases a with _ | a <;> rcases r' with _ | r' <;> rcases q with _ | q <;>
      simp [DhtFields.finish, required, Except.bind]

/-- **A message** as a tree. -/
theorem asDhtBase_iff {tree : Bendy.Tree} {t : Value} {r : Option T} :
    (∃ base, asDhtBase item tree = .ok base ∧ base.t = t ∧ base.r = r) ↔
      ∃ pairs, tree = .dict pairs ∧ Message item pairs t r := by
  obtain ⟨ha, hr, hq, ht, hy⟩ := @sets_dhtView T item
  constructor
  · rintro ⟨base, h, hbase⟩
    obtain ⟨s, hloop, hfinish⟩ := Checked.bind_eq_ok.mp h
    obtain ⟨pairs, rfl, hfold⟩ := Tree.asDict_eq_ok hloop
    obtain ⟨hst, hsy, hcontent, hquery, hsr⟩ := finish_eq_ok_iff.mp ⟨base, hfinish, hbase⟩
    have hlastA := ha.lastOf hfold rfl
    have hlastR := hr.lastOf hfold rfl
    have hlastQ := hq.lastOf hfold rfl
    have hlastY := hy.lastOf hfold rfl
    have hread := (exists_foldlM_iff exists_dhtView_iff DhtFields.empty).mp ⟨s, hfold⟩
    refine ⟨pairs, rfl, hread, ?_, ?_, ?_, ?_, ?_⟩
    · rw [← hst]
      exact ht.lastOf hfold rfl
    · exact fun h => hsy (hlastY.eq_none_iff.mpr h)
    · exact hcontent.imp (fun h h' => h (hlastA.eq_none_iff.mpr h'))
        fun h h' => h (hlastR.eq_none_iff.mpr h')
    · intro h h'
      exact hquery (fun hnone => h (hlastA.eq_none_iff.mp hnone)) (hlastQ.eq_none_iff.mpr h')
    · rw [← hsr]
      exact hlastR
  · rintro ⟨pairs, rfl, h⟩
    obtain ⟨s, hfold⟩ :=
      (exists_foldlM_iff exists_dhtView_iff DhtFields.empty).mpr h.readable
    have hlastA := ha.lastOf hfold rfl
    have hlastR := hr.lastOf hfold rfl
    have hlastQ := hq.lastOf hfold rfl
    have hlastY := hy.lastOf hfold rfl
    obtain ⟨base, hfinish, hbase⟩ := finish_eq_ok_iff.mpr
      ⟨(ht.lastOf hfold rfl).unique h.t, fun hnone => h.y (hlastY.eq_none_iff.mp hnone),
        h.content.imp (fun h h' => h (hlastA.eq_none_iff.mp h'))
          fun h h' => h (hlastR.eq_none_iff.mp h'),
        fun hsome hnone => h.query (fun h' => hsome (hlastA.eq_none_iff.mpr h'))
          (hlastQ.eq_none_iff.mp hnone), hlastR.unique h.r⟩
    refine ⟨base, ?_, hbase⟩
    show (pairs.foldlM (fun s p => dhtView item s p.1 p.2) DhtFields.empty).bind _ = _
    rw [hfold]
    exact hfinish

/-- An input that begins with the bytes of a message, in front of `rest`. -/
def Carries (item : Bendy.Tree → Except Error T) (data : Bytes) (t : Value) (r : Option T) : Prop :=
  ∃ pairs raw rest, (Bendy.Tree.dict pairs).Spells raw ∧
    (Bendy.Tree.dict pairs).depth ≤ expectedRecursionDepth ∧ data = raw ++ rest ∧
    Message item pairs t r

/-- **What `DHTBase::from_bencode` accepts.** -/
theorem dhtBase_iff (hviews : decode.Views item) (hwhole : decode.Whole) {data : Bytes} {t : Value}
    {r : Option T} :
    (∃ base, DhtBase.fromBencode decode data = .ok base ∧ base.t = t ∧ base.r = r) ↔
      Carries item data t r := by
  have hiff : ∀ base, DhtBase.fromBencode decode data = .ok base ↔ ∃ (tree : Bendy.Tree)
      (raw rest : Bytes), tree.Spells raw ∧ tree.depth ≤ expectedRecursionDepth ∧
        data = raw ++ rest ∧ asDhtBase item tree = .ok base := fun base =>
    fromBencode_iff (decodeDhtBase_whole hwhole) (decodeDhtBase_views hviews)
  constructor
  · rintro ⟨base, h, hbase⟩
    obtain ⟨tree, raw, rest, hspell, hdepth, hdata, hview⟩ := (hiff base).mp h
    obtain ⟨pairs, rfl, hmessage⟩ := asDhtBase_iff.mp ⟨base, hview, hbase⟩
    exact ⟨pairs, raw, rest, hspell, hdepth, hdata, hmessage⟩
  · rintro ⟨pairs, raw, rest, hspell, hdepth, hdata, hmessage⟩
    obtain ⟨base, hview, hbase⟩ := asDhtBase_iff.mpr ⟨pairs, rfl, hmessage⟩
    exact ⟨base, (hiff base).mpr ⟨_, raw, rest, hspell, hdepth, hdata, hview⟩, hbase⟩

end Messages

/-- **What the receiver takes for a response** with the id `i`: a message whose last `t` is a byte
string that stands for this id. -/
theorem parse_eq_id_iff {data : Bytes} {i : UInt16} : parse data = .id i ↔
    ∃ s r, Carries asValue data (.bytes s) r ∧ i = UInt16.ofNat (fromBeSlice 2 s) := by
  have hiff := fun t r => @dhtBase_iff Value decodeValue asValue decodeValue_views decodeValue_whole
    data t r
  unfold parse
  constructor
  · intro h
    split at h
    · next base hbase =>
        split at h
        · next id hid =>
            obtain rfl := UdpServer.Parsed.id.inj h
            unfold DhtBase.tranId at hid
            split at hid
            · next s hs =>
                exact ⟨s, base.r, (hiff _ _).mp ⟨base, hbase, hs, rfl⟩, (Option.some.inj hid).symm⟩
            · cases hid
        · cases h
    · split at h
      · cases h
      · cases h
  · rintro ⟨s, r, hcarries, rfl⟩
    obtain ⟨base, hbase, ht, -⟩ := (hiff _ _).mpr hcarries
    have hid : base.tranId = some (UInt16.ofNat (fromBeSlice 2 s)) := by
      rw [DhtBase.tranId, ht]
    rw [hbase]
    dsimp only
    rw [hid]

end DhtMessages
