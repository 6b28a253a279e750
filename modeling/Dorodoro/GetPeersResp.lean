/-
# The response to `get_peers` (`bt/dht/entity.rs`)

* `GetPeersReq` and `GetPeersResp` follow the source;
* `GetPeersResp.IsOf`: a response as a tree.  Every entry of a known key has the type of its field,
  and the last one counts;
* `asGetPeersResp_iff`: these are the responses that the decoder accepts, and it does not panic
  (`decodeGetPeersResp_calm`).
-/
import Dorodoro.CompactLists
import Dorodoro.MessageTrees

open Bendy CompactLists

namespace DhtMessages

open Routing (NodeId)

/-! ## The code -/

/-- `GetPeersReq`. -/
structure GetPeersReq where
  id : NodeId
  infoHash : NodeId

/-- `impl ToBencode for GetPeersReq`. -/
def GetPeersReq.encode (req : GetPeersReq) : Encode := emitDict fun e => do
  let e ← emitPair (key "id") (encodeNodeId req.id) e
  emitPair (key "info_hash") (encodeNodeId req.infoHash) e

/-- `GetPeersResp`. -/
structure GetPeersResp where
  id : NodeId
  nodes : Option (List Host)
  values : Option (List SocketAddr)
  token : Option Value
  p : Option ℕ

/-- The fields collected while decoding a `GetPeersResp`. -/
structure GetPeersFields where
  id : Option NodeId
  nodes : Option (List Host)
  values : Option (List SocketAddr)
  token : Option Value
  p : Option ℕ

/-- The arm `(b"nodes", Object::Bytes(value))`; other `nodes` are unknown fields. -/
def nodesField (s : GetPeersFields) : Decode GetPeersFields
  | .bytes value, d => (toHosts value).map fun hosts => ({ s with nodes := some hosts }, d)
  | o, d => unknownField s o d

/-- One entry of a `GetPeersResp` dictionary. -/
def getPeersEntry (s : GetPeersFields) (k : Bytes) : Decode GetPeersFields :=
  if k = key "id" then field "id" decodeNodeId ({ s with id := some · })
  else if k = key "nodes" then nodesField s
  else if k = key "values" then
    field "values" (decodeVec decodeSocketAddr) ({ s with values := some · })
  else if k = key "token" then field "token" decodeValue ({ s with token := some · })
  else if k = key "p" then field "p" (decodeUnsigned 16) ({ s with p := some · })
  else unknownField s

/-- `impl FromBencode for GetPeersResp`. -/
def decodeGetPeersResp : Decode GetPeersResp := fun o d => do
  let (s, d') ← dictLoop getPeersEntry ⟨none, none, none, none, none⟩ o d
  let id ← required "id" s.id
  return (⟨id, s.nodes, s.values, s.token, s.p⟩, d')

/-! ## Responses -/

/-- The view of a string of nodes. -/
def asHosts (t : Bendy.Tree) : Except Error (List Host) := t.asBytes.bind toHosts

/-- The view of the arms of `nodes`. -/
def nodesView (s : GetPeersFields) (t : Bendy.Tree) : Except Error GetPeersFields :=
  if t.name = "String" then (asHosts t).map ({ s with nodes := some · }) else .ok s

/-- The view of an entry. -/
def getPeersView (s : GetPeersFields) (k : Bytes) (t : Bendy.Tree) : Except Error GetPeersFields :=
  if k = key "id" then (context "id" (asNodeId t)).map ({ s with id := some · })
  else if k = key "nodes" then nodesView s t
  else if k = key "values" then
    (context "values" (t.asVec asSocketAddr)).map ({ s with values := some · })
  else if k = key "token" then (context "token" (asValue t)).map ({ s with token := some · })
  else if k = key "p" then (context "p" (t.asUnsigned 16)).map ({ s with p := some · })
  else .ok s

/-- The arms of `nodes` read a string of hosts, or skip the entry. -/
theorem nodesField_views (s : GetPeersFields) : (nodesField s).Views (nodesView s) := by
  intro t
  rw [nodesView]
  split_ifs with ht
  · rcases t with b | n | items | pairs
    · refine makes_bytes fun d => ?_
      show (toHosts b).map _ = ((toHosts b).map _).map _
      cases toHosts b <;> rfl
    · simp [Tree.name] at ht
    · simp [Tree.name] at ht
    · simp [Tree.name] at ht
  · refine (unknownField_makes t s).congr fun o d ho => ?_
    cases o with
    | bytes b => exact absurd ho.symm ht
    | _ => rfl

/-- One entry is decoded as it is viewed. -/
theorem getPeersEntry_views (s : GetPeersFields) (k : Bytes) :
    (getPeersEntry s k).Views (getPeersView s k) := by
  intro t
  refine .ite (fun _ => field_makes (decodeNodeId_views t)) fun _ => ?_
  refine .ite (fun _ => nodesField_views s t) fun _ => ?_
  refine .ite (fun _ => field_makes (decodeVec_views decodeSocketAddr_views t)) fun _ => ?_
  refine .ite (fun _ => field_makes (decodeValue_views t)) fun _ => ?_
  refine .ite (fun _ => field_makes (decodeUnsigned_views 16 t)) fun _ => ?_
  exact unknownField_makes t s

/-- What is made of the fields at the end of a dictionary. -/
def GetPeersFields.finish (s : GetPeersFields) : Except Error GetPeersResp :=
  (required "id" s.id).map fun id => ⟨id, s.nodes, s.values, s.token, s.p⟩

/-- The view of `GetPeersResp`. -/
def asGetPeersResp (t : Bendy.Tree) : Except Error GetPeersResp :=
  (t.asDict getPeersView ⟨none, none, none, none, none⟩).bind GetPeersFields.finish

/-- The decoder reads the dictionary and then looks for the id. -/
theorem decodeGetPeersResp_eq (o : Object) (d : Decoder) : decodeGetPeersResp o d =
    (dictLoop getPeersEntry ⟨none, none, none, none, none⟩ o d).bind fun p =>
      p.1.finish.map fun resp => (resp, p.2) := by
  show (dictLoop getPeersEntry ⟨none, none, none, none, none⟩ o d).bind _ = _
  congr 1
  funext p
  rcases p with ⟨⟨_ | id, _, _, _, _⟩, d'⟩
  · rfl
  · rfl

/-- **The decoder sees the tree.**  What it makes of a dictionary depends on its entries only. -/
theorem decodeGetPeersResp_views : decodeGetPeersResp.Views asGetPeersResp :=
  fun t => (dictLoop_views getPeersEntry_views _ t).andThen GetPeersFields.finish
    decodeGetPeersResp_eq

/-- The arms of `nodes` consume their value. -/
theorem nodesField_whole (s : GetPeersFields) : (nodesField s).Whole := by
  intro o d a d' h hd
  cases o with
  | bytes b =>
      obtain ⟨hosts, -, he⟩ := Checked.map_eq_ok.mp h
      obtain ⟨-, rfl⟩ := Prod.mk.inj he
      exact dropObject_bytes b d
  | integer n => exact unknownField_whole s h hd
  | list start => exact unknownField_whole s h hd
  | dict start => exact unknownField_whole s h hd

/-- Every entry consumes its value. -/
theorem getPeersEntry_whole (s : GetPeersFields) (k : Bytes) : (getPeersEntry s k).Whole := by
  unfold getPeersEntry
  refine .ite (field_whole decodeNodeId_whole) <| .ite (nodesField_whole s) <|
    .ite (field_whole (decodeVec_whole decodeSocketAddr_whole)) <|
    .ite (field_whole decodeValue_whole) <| .ite (field_whole (decodeUnsigned_whole 16)) ?_
  exact unknownField_whole s

/-- The decoder consumes the whole dictionary. -/
theorem decodeGetPeersResp_whole : decodeGetPeersResp.Whole := by
  intro o d a d' h hd
  rw [decodeGetPeersResp_eq] at h
  obtain ⟨⟨s, d₁⟩, hloop, h⟩ := Checked.bind_eq_ok.mp h
  obtain ⟨resp, -, he⟩ := Checked.map_eq_ok.mp h
  obtain ⟨-, rfl⟩ := Prod.mk.inj he
  exact dictLoop_whole getPeersEntry_whole _ hloop hd

/-- What a tree must be for a response: the entries of the known keys have the types of the fields,
and the last ones count.  There is an id, and `nodes` that are no string count as unknown. -/
structure GetPeersResp.IsOf (resp : GetPeersResp) (entries : List (Bytes × Bendy.Tree)) : Prop where
  id : LastOf asNodeId (Tree.valuesOf (key "id") entries) (some resp.id)
  nodes : LastOf asHosts
    ((Tree.valuesOf (key "nodes") entries).filter fun t => t.name = "String") resp.nodes
  values : LastOf (Tree.asVec asSocketAddr) (Tree.valuesOf (key "values") entries) resp.values
  token : LastOf asValue (Tree.valuesOf (key "token") entries) resp.token
  p : LastOf (Tree.asUnsigned 16) (Tree.valuesOf (key "p") entries) resp.p

/-- What an entry can do. -/
theorem getPeersView_cases {s s' : GetPeersFields} {k : Bytes} {t : Bendy.Tree}
    (h : getPeersView s k t = .ok s') :
    (k = key "id" ∧ ∃ id, asNodeId t = .ok id ∧ s' = { s with id := some id }) ∨
    (k = key "nodes" ∧ t.name = "String" ∧ ∃ hosts, asHosts t = .ok hosts ∧
      s' = { s with nodes := some hosts }) ∨
    (k = key "values" ∧ ∃ addrs, t.asVec asSocketAddr = .ok addrs ∧
      s' = { s with values := some addrs }) ∨
    (k = key "token" ∧ ∃ v, asValue t = .ok v ∧ s' = { s with token := some v }) ∨
    (k = key "p" ∧ ∃ n, t.asUnsigned 16 = .ok n ∧ s' = { s with p := some n }) ∨
    (k ≠ key "id" ∧ ¬ (k = key "nodes" ∧ t.name = "String") ∧ k ≠ key "values" ∧
      k ≠ key "token" ∧ k ≠ key "p" ∧ s' = s) := by
  have hset : ∀ {α : Type} {name : String} {x : Except Error α} {set : α → GetPeersFields},
      (context name x).map set = .ok s' → ∃ a, x = .ok a ∧ s' = set a := by
    intro α name x set h
    obtain ⟨a, ha, rfl⟩ := Checked.map_eq_ok.mp h
    exact ⟨a, context_eq_ok ha, rfl⟩
  unfold getPeersView at h
  split_ifs at h with hid hnodes hvalues htoken hp
  · exact Or.inl ⟨hid, hset h⟩
  · rw [nodesView] at h
    split_ifs at h with ht
    · obtain ⟨hosts, hhosts, rfl⟩ := Checked.map_eq_ok.mp h
      exact Or.inr (Or.inl ⟨hnodes, ht, hosts, hhosts, rfl⟩)
    · obtain rfl := Except.ok.inj h
      subst hnodes
      simp [key_injective.eq_iff, ht]
  · exact Or.inr (Or.inr (Or.inl ⟨hvalues, hset h⟩))
  · exact Or.inr (Or.inr (Or.inr (Or.inl ⟨htoken, hset h⟩)))
  · exact Or.inr (Or.inr (Or.inr (Or.inr (Or.inl ⟨hp, hset h⟩))))
  · obtain rfl := Except.ok.inj h
    exact Or.inr (Or.inr (Or.inr (Or.inr (Or.inr
      ⟨hid, fun hn => hnodes hn.1, hvalues, htoken, hp, rfl⟩))))

/-- Every field is set by its entries. -/
theorem sets_getPeersView :
    Sets getPeersView (fun k _ => decide (k = key "id")) asNodeId GetPeersFields.id ∧
    Sets getPeersView (fun k t => decide (k = key "nodes") && decide (t.name = "String")) asHosts
      GetPeersFields.nodes ∧
    Sets getPeersView (fun k _ => decide (k = key "values")) (Tree.asVec asSocketAddr)
      GetPeersFields.values ∧
    Sets getPeersView (fun k _ => decide (k = key "token")) asValue GetPeersFields.token ∧
    Sets getPeersView (fun k _ => decide (k = key "p")) (Tree.asUnsigned 16) GetPeersFields.p := by
  refine ⟨?_, ?_, ?_, ?_, ?_⟩
  all_goals
    intro s k t s' h
    rcases getPeersView_cases h with ⟨rfl, a, ha, rfl⟩ | ⟨rfl, ht, a, ha, rfl⟩ |
      ⟨rfl, a, ha, rfl⟩ | ⟨rfl, a, ha, rfl⟩ | ⟨rfl, a, ha, rfl⟩ | ⟨hid, hnodes, hv, ht, hp, rfl⟩
  all_goals simp_all [key_injective.eq_iff]

/-- The types of the entries. -/
def GetPeersFields.Readable (k : Bytes) (t : Bendy.Tree) : Prop :=
  (k = key "id" → ∃ id, asNodeId t = .ok id) ∧
  (k = key "nodes" ∧ t.name = "String" → ∃ hosts, asHosts t = .ok hosts) ∧
  (k = key "values" → ∃ addrs, t.asVec asSocketAddr = .ok addrs) ∧
  (k = key "token" → ∃ v, asValue t = .ok v) ∧
  (k = key "p" → ∃ n, t.asUnsigned 16 = .ok n)

/-- An entry is accepted if a known key has a value of its type. -/
theorem exists_getPeersView_iff (s : GetPeersFields) (k : Bytes) (t : Bendy.Tree) :
    (∃ s', getPeersView s k t = .ok s') ↔ GetPeersFields.Readable k t := by
  unfold getPeersView GetPeersFields.Readable
  split_ifs with hid hnodes hvalues htoken hp
  · subst hid
    simp [exists_map_context, key_injective.eq_iff]
  · subst hnodes
    rw [nodesView]
    split_ifs with ht
    · constructor
      · rintro ⟨s', h⟩
        obtain ⟨hosts, hhosts, -⟩ := Checked.map_eq_ok.mp h
        simp [key_injective.eq_iff, hhosts]
      · rintro ⟨-, h, -⟩
        obtain ⟨hosts, hhosts⟩ := h ⟨rfl, ht⟩
        rw [hhosts]
        exact ⟨_, rfl⟩
    · simp [key_injective.eq_iff, ht]
  · subst hvalues
    simp [exists_map_context, key_injective.eq_iff]
  · subst htoken
    simp [exists_map_context, key_injective.eq_iff]
  · subst hp
    simp [exists_map_context, key_injective.eq_iff]
  · simp [hid, hnodes, hvalues, htoken, hp]

/-- **A response** as a tree. -/
theorem asGetPeersResp_iff {t : Bendy.Tree} {resp : GetPeersResp} :
    asGetPeersResp t = .ok resp ↔ ∃ entries, t = .dict entries ∧ resp.IsOf entries := by
  obtain ⟨hid, hnodes, hvalues, htoken, hp⟩ := sets_getPeersView
  constructor
  · intro h
    obtain ⟨s, hloop, hfinish⟩ := Checked.bind_eq_ok.mp h
    obtain ⟨entries, rfl, hfold⟩ := Tree.asDict_eq_ok hloop
    obtain ⟨id, hsome, rfl⟩ := Checked.map_eq_ok.mp hfinish
    have hlast := hid.lastOf hfold rfl
    have hs : s.id = some id := by
      rcases hs : s.id with _ | id'
      · rw [hs] at hsome
        cases hsome
      · rw [hs] at hsome
        exact congrArg some (Except.ok.inj hsome)
    rw [hs] at hlast
    have hstrings := hnodes.lastOf hfold rfl
    rw [Tree.select_and] at hstrings
    exact ⟨entries, rfl, hlast, hstrings, hvalues.lastOf hfold rfl, htoken.lastOf hfold rfl,
      hp.lastOf hfold rfl⟩
  · rintro ⟨entries, rfl, hresp⟩
    have hall : ∀ p ∈ entries, GetPeersFields.Readable p.1 p.2 := by
      intro p hmem
      refine ⟨fun hk => hresp.id.exists_of_mem (Tree.mem_valuesOf hmem hk), fun hk => ?_,
        fun hk => hresp.values.exists_of_mem (Tree.mem_valuesOf hmem hk),
        fun hk => hresp.token.exists_of_mem (Tree.mem_valuesOf hmem hk),
        fun hk => hresp.p.exists_of_mem (Tree.mem_valuesOf hmem hk)⟩
      exact hresp.nodes.exists_of_mem
        (List.mem_filter.mpr ⟨Tree.mem_valuesOf hmem hk.1, decide_eq_true hk.2⟩)
    obtain ⟨s, hfold⟩ :=
      (exists_foldlM_iff exists_getPeersView_iff ⟨none, none, none, none, none⟩).mpr hall
    have hstrings := hnodes.lastOf hfold rfl
    rw [Tree.select_and] at hstrings
    have hs : s = ⟨some resp.id, resp.nodes, resp.values, resp.token, resp.p⟩ := by
      obtain ⟨id, nodes, values, token, p⟩ := s
      rw [GetPeersFields.mk.injEq]
      exact ⟨(hid.lastOf hfold rfl).unique hresp.id, hstrings.unique hresp.nodes,
        (hvalues.lastOf hfold rfl).unique hresp.values,
        (htoken.lastOf hfold rfl).unique hresp.token, (hp.lastOf hfold rfl).unique hresp.p⟩
    show (entries.foldlM (fun s p => getPeersView s p.1 p.2) _).bind _ = _
    rw [hfold, hs]
    rfl

/-! ### No panics -/

/-- A list is traversed without a panic if its elements are. -/
theorem mapM_calm {α β : Type} {f : α → Except Error β} (h : ∀ a, ¬ Panics (f a)) (as : List α) :
    ¬ Panics (as.mapM f) := by
  induction as with
  | nil => exact not_panics_ok _
  | cons a as ih =>
      rw [List.mapM_cons]
      show ¬ Panics ((f a).bind _)
      rw [panics_bind, not_or]
      refine ⟨h a, ?_⟩
      rintro ⟨b, -, hb⟩
      rcases panics_bind.mp hb with hrest | ⟨bs, -, hbs⟩
      · exact ih hrest
      · exact not_panics_ok _ hbs

/-- The length is checked before the bytes of an address are read. -/
theorem toSocketAddr_calm (bytes : Bytes) : ¬ Panics (toSocketAddr bytes) := by
  unfold toSocketAddr
  split_ifs
  · exact not_panics_ok _
  · exact not_panics_ok _
  · simp [Error.ofKind]

/-- The length is checked before the list is cut, and the chunks are hosts or addresses. -/
theorem toHosts_calm (bytes : Bytes) : ¬ Panics (toHosts bytes) := by
  have hhost : ∀ b, ¬ Panics (toHost b) := by
    intro b
    unfold toHost
    split_ifs
    · simp [Error.ofKind]
    · rw [panics_map]
      exact toSocketAddr_calm _
  unfold toHosts toVec
  split_ifs
  · exact mapM_calm hhost _
  · exact mapM_calm hhost _
  · simp [Error.ofKind]

theorem decodeNodeId_calm : decodeNodeId.Calm := by
  intro o d raw stack hopened
  rw [decodeNodeId, panics_bind, not_or]
  refine ⟨decodeBytes_calm hopened, ?_⟩
  rintro ⟨⟨bytes, d'⟩, -, h⟩
  dsimp only at h
  split_ifs at h
  · exact not_panics_ok _ h
  · simp [Error.ofKind] at h

/-- The arms of `nodes` do not panic. -/
theorem nodesField_calm (s : GetPeersFields) : (nodesField s).Calm := by
  intro o d raw stack hopened
  cases o with
  | bytes b =>
      show ¬ Panics ((toHosts b).map _)
      rw [panics_map]
      exact toHosts_calm b
  | integer n => exact unknownField_calm s hopened
  | list start => exact unknownField_calm s hopened
  | dict start => exact unknownField_calm s hopened

/-- No entry makes the decoder panic. -/
theorem getPeersEntry_calm (s : GetPeersFields) (k : Bytes) : (getPeersEntry s k).Calm := by
  unfold getPeersEntry
  refine .ite (field_calm decodeNodeId_calm) <| .ite (nodesField_calm s) <|
    .ite (field_calm (decodeVec_calm decodeSocketAddr_whole decodeSocketAddr_calm)) <|
    .ite (field_calm decodeValue_calm) <| .ite (field_calm (decodeUnsigned_calm 16)) ?_
  exact unknownField_calm s

/-- **No response makes the decoder panic.** -/
theorem decodeGetPeersResp_calm : decodeGetPeersResp.Calm := by
  intro o d raw stack hopened
  rw [decodeGetPeersResp_eq, panics_bind, not_or]
  refine ⟨dictLoop_calm getPeersEntry_whole getPeersEntry_calm _ hopened, ?_⟩
  rintro ⟨⟨s, d'⟩, -, h⟩
  rw [panics_map, GetPeersFields.finish, panics_map] at h
  exact required_calm "id" s.id h

end DhtMessages
