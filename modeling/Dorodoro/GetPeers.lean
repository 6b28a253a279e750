/-
# Asking a node for peers (`bt/dht.rs`)

`DHTRequest::get_peers` sends a query and takes what the `r` of the response says.  The response was
read before, by the receiver of the UDP server, for its transaction id.

* `getPeersData` is the query and `getPeers` what comes of it;
* `Answer` and `Result`: an answer as a tree, and what is made of a tree;
* `getPeers_iff`: what `get_peers` makes of a datagram, any datagram;
* `getPeers_of_run`: what it returns in every run of the UDP server;
* `getPeers_bep5`: a query and the answer of a node that keeps to BEP 5.
-/
import Dorodoro.GetPeersResp
import Dorodoro.ResponseMatching

open Bendy CompactLists Transition

namespace DhtMessages

open Routing (NodeId)

/-! ## The code -/

/-- The data that `get_peers` sends. -/
def getPeersData (ownId infoHash : NodeId) (t : UInt16) : Except EncodeError Bytes :=
  Bendy.toBencode
    ((DhtBase.request (GetPeersReq.mk ownId infoHash) "get_peers" t).encode GetPeersReq.encode)
    maxDepth

/-- `DHTRequest::get_peers`, when the request cannot be sent or no response comes in time (`none`),
or the response has resolved with some data. -/
def getPeers (response : Option Bytes) : List Host × List SocketAddr :=
  match response with
  | none => ([], [])
  | some data =>
      match DhtBase.fromBencode decodeGetPeersResp data with
      | .error _ => ([], [])
      | .ok resp =>
          match resp.r with
          | none => ([], [])
          | some r => (r.nodes.getD [], r.values.getD [])

/-! ## Results -/

/-- **An answer**: a message whose last `r` is a response. -/
structure Answer (pairs : List (Bytes × Bendy.Tree)) (resp : GetPeersResp) : Prop where
  message : ∃ t, Message asGetPeersResp pairs t (some resp)
  response : ∃ entries, (Tree.valuesOf (key "r") pairs).getLast? = some (.dict entries) ∧
    resp.IsOf entries

/-- What is made of a dictionary: the nodes and the addresses of the answer that it is, or
nothing. -/
def Result (pairs : List (Bytes × Bendy.Tree)) (x : List Host × List SocketAddr) : Prop :=
  (∃ resp, Answer pairs resp ∧ x = (resp.nodes.getD [], resp.values.getD [])) ∨
    (¬ ∃ resp, Answer pairs resp) ∧ x = ([], [])

/-- The bytes of a dictionary, not too deep, in front of some input. -/
def Begins (pairs : List (Bytes × Bendy.Tree)) (data : Bytes) : Prop :=
  (Bendy.Tree.dict pairs).depth ≤ expectedRecursionDepth ∧
    ∃ raw rest, (Bendy.Tree.dict pairs).Spells raw ∧ data = raw ++ rest

theorem answer_iff {pairs : List (Bytes × Bendy.Tree)} {resp : GetPeersResp} :
    Answer pairs resp ↔ ∃ base, asDhtBase asGetPeersResp (.dict pairs) = .ok base ∧
      base.r = some resp := by
  constructor
  · rintro ⟨⟨t, h⟩, -⟩
    obtain ⟨base, hbase, -, hr⟩ := asDhtBase_iff.mpr ⟨pairs, rfl, h⟩
    exact ⟨base, hbase, hr⟩
  · rintro ⟨base, hbase, hr⟩
    obtain ⟨pairs', hpairs, h⟩ := asDhtBase_iff.mp ⟨base, hbase, rfl, hr⟩
    obtain rfl := Tree.dict.inj hpairs
    refine ⟨⟨base.t, h⟩, ?_⟩
    obtain ⟨tree, hlast, hresp⟩ := h.r.exists_getLast
    obtain ⟨entries, rfl, hof⟩ := asGetPeersResp_iff.mp hresp
    exact ⟨entries, hlast, hof⟩

theorem Answer.unique {pairs : List (Bytes × Bendy.Tree)} {resp resp' : GetPeersResp}
    (h : Answer pairs resp) (h' : Answer pairs resp') : resp = resp' := by
  obtain ⟨base, hbase, hr⟩ := answer_iff.mp h
  obtain ⟨base', hbase', hr'⟩ := answer_iff.mp h'
  obtain rfl := Except.ok.inj (hbase.symm.trans hbase')
  exact Option.some.inj (hr.symm.trans hr')

/-- What `get_peers` makes of data that begins with a dictionary. -/
theorem result_of_begins {pairs : List (Bytes × Bendy.Tree)} {data : Bytes}
    (h : Begins pairs data) : Result pairs (getPeers (some data)) := by
  obtain ⟨hdepth, raw, rest, hspell, rfl⟩ := h
  have hrun : DhtBase.fromBencode decodeGetPeersResp (raw ++ rest) =
      asDhtBase asGetPeersResp (.dict pairs) :=
    (decodeDhtBase_views decodeGetPeersResp_views _).fromBencode hspell hdepth rest
  have hnone : ∀ {x : Except Error (DhtBase GetPeersResp)},
      asDhtBase asGetPeersResp (.dict pairs) = x → (∀ base, x = .ok base → base.r = none) →
      ¬ ∃ resp, Answer pairs resp := by
    rintro x hx hr ⟨resp, hanswer⟩
    obtain ⟨base, hbase, hsome⟩ := answer_iff.mp hanswer
    rw [hr base (hx.symm.trans hbase)] at hsome
    cases hsome
  unfold getPeers
  dsimp only
  rw [hrun]
  rcases hview : asDhtBase asGetPeersResp (.dict pairs) with e | base
  · exact Or.inr ⟨hnone hview (fun base h => by cases h), rfl⟩
  · rcases hr : base.r with _ | resp
    · refine Or.inr ⟨hnone hview fun base' h => ?_, ?_⟩
      · obtain rfl := Except.ok.inj h
        exact hr
      · dsimp only
        rw [hr]
    · refine Or.inl ⟨resp, answer_iff.mpr ⟨base, hview, hr⟩, ?_⟩
      dsimp only
      rw [hr]

/-- **What `get_peers` makes of a datagram**: of a dictionary in front, the nodes and addresses of
the answer that it is; nothing of all else.  The decoder does not panic. -/
theorem getPeers_iff (data : Bytes) (x : List Host × List SocketAddr) :
    ¬ Panics (DhtBase.fromBencode decodeGetPeersResp data) ∧
      (getPeers (some data) = x ↔ (∃ pairs, Begins pairs data ∧ Result pairs x) ∨
        (¬ ∃ pairs, Begins pairs data) ∧ x = ([], [])) := by
  refine ⟨dhtBase_calm decodeGetPeersResp_whole decodeGetPeersResp_calm data, ?_⟩
  have hsame : ∀ {pairs y}, Result pairs x → Result pairs y → x = y := by
    rintro pairs y (⟨resp, h, rfl⟩ | ⟨h, rfl⟩) (⟨resp', h', rfl⟩ | ⟨h', rfl⟩)
    · rw [h.unique h']
    · exact absurd ⟨resp, h⟩ h'
    · exact absurd ⟨resp', h'⟩ h
    · rfl
  by_cases hbegins : ∃ pairs, Begins pairs data
  · obtain ⟨pairs, h⟩ := hbegins
    constructor
    · rintro rfl
      exact Or.inl ⟨pairs, h, result_of_begins h⟩
    · rintro (⟨pairs', h', hx⟩ | ⟨hnot, -⟩)
      · exact (hsame hx (result_of_begins h')).symm
      · exact absurd ⟨pairs, h⟩ hnot
  · have hnone : getPeers (some data) = ([], []) := by
      unfold getPeers
      dsimp only
      rcases hrun : DhtBase.fromBencode decodeGetPeersResp data with e | base
      · rfl
      · obtain ⟨pairs, raw, rest, hspell, hdepth, hdata, -⟩ :=
          (dhtBase_iff decodeGetPeersResp_views decodeGetPeersResp_whole).mp ⟨base, hrun, rfl, rfl⟩
        exact absurd ⟨pairs, hdepth, raw, rest, hspell, hdata⟩ hbegins
    rw [hnone]
    constructor
    · rintro rfl
      exact Or.inr ⟨hbegins, rfl⟩
    · rintro (⟨pairs, h, -⟩ | ⟨-, rfl⟩)
      · exact absurd ⟨pairs, h⟩ hbegins
      · rfl

/-! ## Runs of the server -/

section Runs

open UdpServer

/-- The receiver parses what it receives. -/
def Parses (_ : Server) : Action → Prop
  | .recv d parsed => parsed = parse d.data
  | _ => True

instance (s : Server) : ∀ a, Decidable (Parses s a)
  | .recv d parsed => inferInstanceAs (Decidable (parsed = parse d.data))
  | .tranId | .containsKey _ | .insert _ | .sendTo _ _ | .unregister _ | .cancel _ | .poll _ _
  | .pollInsert _ | .drop _ | .dropResult _ | .store | .wake => isTrue trivial

/-- What is kept under an id carries this id. -/
structure Identified (s : Server) : Prop where
  removed : ∀ t d reg τ, s.receiver = .removed t d reg τ → parse d.data = .id t
  stored : ∀ t e, s.resultStore t = some e → parse e.datagram.data = .id t
  resolved : ∀ r, ∀ e ∈ s.resolved r, parse e.datagram.data = .id (tranId r)

theorem identified_new : Identified Server.new where
  removed := fun _ _ _ _ h => Receiver.noConfusion h
  stored := fun _ e h => absurd (show none = some e from h) (Option.some_ne_none e).symm
  resolved := fun _ _ h => absurd h List.not_mem_nil

/-- An entry that was removed from a map was there before. -/
theorem of_update_none {s : Server} (h : Identified s) {r : UInt16} {t : UInt16} {e : Stored}
    (he : Function.update s.resultStore r none t = some e) : parse e.datagram.data = .id t := by
  rw [Function.update_apply] at he
  split_ifs at he
  exact h.stored t e he

/-- **A step** keeps what is kept under its id. -/
theorem Identified.step {s s' : Server} {a : Action} (h : Identified s) (hg : Parses s a)
    (hs : step s a = some s') : Identified s' := by
  obtain ⟨s₁, hn, rfl⟩ := step_eq_some hs
  cases hn with
  | @ready r w v e hp he =>
      refine ⟨h.removed, fun t e' he' => of_update_none h he', fun r' e' he' => ?_⟩
      simp only [Function.update_apply] at he'
      split_ifs at he' with hr
      · subst hr
        rcases List.mem_append.mp he' with hold | hnew
        · exact h.resolved r' e' hold
        · rw [List.mem_singleton.mp hnew]
          exact h.stored _ e he
      · exact h.resolved r' e' he'
  | dropResult _ => exact ⟨h.removed, fun t e he => of_update_none h he, h.resolved⟩
  | @removed d t reg hr hreg =>
      refine ⟨fun t' d' reg' τ hr' => ?_, h.stored, h.resolved⟩
      obtain ⟨rfl, rfl, -, -⟩ := Receiver.removed.inj hr'
      exact hg.symm
  | @stored t d reg arrived hr =>
      refine ⟨fun _ _ _ _ hr' => Receiver.noConfusion hr', fun t' e he => ?_, h.resolved⟩
      simp only [Function.update_apply] at he
      split_ifs at he with ht
      · subst ht
        obtain rfl := Option.some.inj he
        exact h.removed _ _ _ _ hr
      · exact h.stored t' e he
  | stopped _ | woken _ | noWaker _ =>
      exact ⟨fun _ _ _ _ hr' => Receiver.noConfusion hr', h.stored, h.resolved⟩
  | drawn | containsKey _ _ _ | insert _ | sent _ | notSent _ | unregister _ | cancel _
  | empty _ _ | pollInsert _ | drop _ | ignored => exact ⟨h.removed, h.stored, h.resolved⟩

/-- **In every run**, whatever datagrams come in, a `Response` resolves with a message whose last
`t` is the id of its request, and `get_peers` returns what this message says. -/
theorem getPeers_of_run {as : List Action} {s : Server} (h : Run step Parses .new as s) {r : ℕ}
    {e : Stored} (he : e ∈ s.resolved r) : ∃ pairs id v, Begins pairs e.datagram.data ∧
      Message asValue pairs (.bytes id) v ∧ UInt16.ofNat (fromBeSlice 2 id) = tranId r ∧
      Result pairs (getPeers (some e.datagram.data)) := by
  have hid := (h.invariant identified_new fun _ _ _ hi hg hs => hi.step hg hs).resolved r e he
  obtain ⟨id, v, ⟨pairs, raw, rest, hspell, hdepth, hdata, hmessage⟩, hr⟩ := parse_eq_id_iff.mp hid
  have hbegins : Begins pairs e.datagram.data := ⟨hdepth, raw, rest, hspell, hdata⟩
  exact ⟨pairs, id, v, hbegins, hmessage, hr.symm, result_of_begins hbegins⟩

/-- A node without other nodes, that knows one peer. -/
def onePeer : Datagram :=
  ⟨key "d1:rd2:id20:" ++ NodeId.zero.bytes ++ key "6:valuesl6:" ++ [127, 0, 0, 1, 26, 225] ++
    key "ee1:t2:" ++ [0, 0] ++ key "1:y1:re", .v4 0 6881⟩

/-- A query, and the answer of this node. -/
theorem getPeers_of_run_onePeer : ∃ s,
    Run step Parses .new [.tranId, .containsKey 0, .insert 0, .sendTo 0 true,
      .recv onePeer (.id 0), .store, .wake, .poll 0 7] s ∧
    s.resolved 0 = [⟨onePeer, 0, 4, 5⟩] ∧
    getPeers (some onePeer.data) = ([], [.v4 2130706433 6881]) ∧
    ∃ pairs id v, Begins pairs onePeer.data ∧ Message asValue pairs (.bytes id) v ∧
      UInt16.ofNat (fromBeSlice 2 id) = tranId 0 ∧ Result pairs (getPeers (some onePeer.data)) := by
  have hexec : (execIf step Parses .new [.tranId, .containsKey 0, .insert 0, .sendTo 0 true,
      .recv onePeer (.id 0), .store, .wake, .poll 0 7]).map (fun s => s.resolved 0) =
        some [⟨onePeer, 0, 4, 5⟩] := by decide +kernel
  obtain ⟨s, hrun, hview⟩ := Run.exists_of_execIf hexec
  have hmem : (⟨onePeer, 0, 4, 5⟩ : Stored) ∈ s.resolved 0 := by
    rw [hview]
    exact List.mem_singleton_self _
  exact ⟨s, hrun, hview, by decide +kernel, getPeers_of_run hrun hmem⟩

end Runs

/-! ## A node that keeps to BEP 5 -/

theorem GetPeersReq.emits (req : GetPeersReq) : req.encode.Emits 1 (.ok (PeerWire.emitDict
    [(key "id", PeerWire.emitBytes req.id.bytes),
      (key "info_hash", PeerWire.emitBytes req.infoHash.bytes)])) := by
  have hpairs := emits_bind (emits_pair (k := key "id") (emits_bytes req.id.bytes 0))
    (emits_pair (k := key "info_hash") (emits_bytes req.infoHash.bytes 0))
  have hkeys : key "id" < key "info_hash" := by decide +kernel
  have hemits := emits_dict hpairs
  rw [if_pos (by simp [ascends, hkeys])] at hemits
  exact hemits

/-- The query that is sent. -/
theorem getPeersData_eq (ownId infoHash : NodeId) (t : UInt16) : getPeersData ownId infoHash t =
    .ok (PeerWire.emitDict
      [(key "a", PeerWire.emitDict [(key "id", PeerWire.emitBytes ownId.bytes),
        (key "info_hash", PeerWire.emitBytes infoHash.bytes)]),
      (key "q", PeerWire.emitBytes (key "get_peers")),
      (key "t", PeerWire.emitBytes (toBeBytes 2 t.toNat)),
      (key "y", PeerWire.emitBytes (key "q"))]) := by
  have ha := emits_pair (k := key "a") (GetPeersReq.emits ⟨ownId, infoHash⟩)
  have hq := emits_pair (k := key "q") (emits_str "get_peers" 1)
  have ht := emits_pair (k := key "t") (emits_bytes (toBeBytes 2 t.toNat) 1)
  have hy := emits_pair (k := key "y") (emits_str "q" 1)
  have haq : key "a" < key "q" := by decide +kernel
  have hqt : key "q" < key "t" := by decide +kernel
  have hty : key "t" < key "y" := by decide +kernel
  have hemits := emits_dict (emits_bind ha (emits_bind (emits_nil 1)
    (emits_bind hq (emits_bind ht hy))))
  rw [if_pos (by simp [ascends, haq, hqt, hty])] at hemits
  exact hemits.toBencode (by decide)

/-- **What a node answers** to the query with the id `id`: its own id, nodes or peers, or both.  The
entries come in any order, and further ones may be there. -/
structure Bep5Answer (id : UInt16) (hosts : List Host) (addrs : List SocketAddr)
    (pairs entries : List (Bytes × Bendy.Tree)) : Prop where
  readable : ∀ p ∈ pairs, Readable asValue p.1 p.2
  t : Tree.valuesOf (key "t") pairs = [.bytes (toBeBytes 2 id.toNat)]
  y : Tree.valuesOf (key "y") pairs ≠ []
  query : Tree.valuesOf (key "a") pairs = []
  response : Tree.valuesOf (key "r") pairs = [.dict entries]
  id : ∃ node : NodeId, Tree.valuesOf (key "id") entries = [.bytes node.bytes]
  nodes : Tree.valuesOf (key "nodes") entries = [.bytes (hosts.flatMap Host.bytes)] ∨
    Tree.valuesOf (key "nodes") entries = [] ∧ hosts = []
  hosts : ∀ h ∈ hosts, IsV4 h.addr
  values : Tree.valuesOf (key "values") entries =
      [.list (addrs.map fun a => .bytes (addrBytes a))] ∨
    Tree.valuesOf (key "values") entries = [] ∧ addrs = []
  addrs : ∀ a ∈ addrs, IsV4 a ∨ IsV6 a
  p : ∀ t ∈ Tree.valuesOf (key "p") entries, ∃ n, t.asUnsigned 16 = .ok n

section Bep5

variable {id : UInt16} {hosts : List Host} {addrs : List SocketAddr}
  {pairs entries : List (Bytes × Bendy.Tree)}

/-- Inside a dictionary that is a value there are values. -/
theorem exists_asValue_of_dict {v : Value} (h : asValue (.dict entries) = .ok v) :
    ∀ p ∈ entries, ∃ u, asValue p.2 = .ok u := by
  rw [asValue, pairsAsValues_eq] at h
  obtain ⟨u, hfold, -⟩ := Checked.map_eq_ok.mp h
  have hentry : ∀ (s : List (Bytes × Value)) (k : Bytes) (t : Bendy.Tree),
      (∃ s', entryAsValue s k t = .ok s') ↔ ∃ u, asValue t = .ok u := by
    intro s k t
    constructor
    · rintro ⟨s', h⟩
      obtain ⟨u, hu, -⟩ := Checked.map_eq_ok.mp h
      exact ⟨u, hu⟩
    · rintro ⟨u, hu⟩
      rw [entryAsValue, hu]
      exact ⟨_, rfl⟩
  exact (exists_foldlM_iff hentry []).mp ⟨u, hfold⟩

/-- The response inside the answer. -/
theorem Bep5Answer.exists_response (h : Bep5Answer id hosts addrs pairs entries) :
    ∃ resp : GetPeersResp, resp.IsOf entries ∧ resp.nodes.getD [] = hosts ∧
      resp.values.getD [] = addrs := by
  obtain ⟨node, hnode⟩ := h.id
  have hid : asNodeId (.bytes node.bytes) = .ok node := dif_pos node.length_bytes
  -- the lists, which may be missing
  obtain ⟨nodes, hnodes, hhosts⟩ : ∃ nodes, LastOf asHosts
      ((Tree.valuesOf (key "nodes") entries).filter fun t => t.name = "String") nodes ∧
        nodes.getD [] = hosts := by
    rcases h.nodes with hn | ⟨hn, rfl⟩
    · rw [hn]
      exact ⟨some hosts, lastOf_singleton (toHosts_v4 h.hosts), rfl⟩
    · rw [hn]
      exact ⟨none, lastOf_nil, rfl⟩
  obtain ⟨values, hvalues, haddrs⟩ : ∃ values, LastOf (Tree.asVec asSocketAddr)
      (Tree.valuesOf (key "values") entries) values ∧ values.getD [] = addrs := by
    rcases h.values with hv | ⟨hv, rfl⟩
    · rw [hv]
      refine ⟨some addrs, lastOf_singleton ?_, rfl⟩
      refine mapM_map_ok fun a ha => ?_
      rcases h.addrs a ha with h4 | h6
      · exact toSocketAddr_v4 h4
      · exact toSocketAddr_v6 h6
    · rw [hv]
      exact ⟨none, lastOf_nil, rfl⟩
  obtain ⟨p, hp⟩ := exists_lastOf h.p
  -- a token is some value, as everything is in the answer
  obtain ⟨r, hr⟩ : ∃ v, asValue (.dict entries) = .ok v := by
    have hmem : Bendy.Tree.dict entries ∈ Tree.valuesOf (key "r") pairs := by
      rw [h.response]
      exact List.mem_singleton_self _
    obtain ⟨q, hq, hk, hqr⟩ := Tree.exists_of_mem_valuesOf hmem
    have hvalue := (h.readable q hq).item (Or.inr hk)
    rwa [hqr] at hvalue
  obtain ⟨token, htoken⟩ : ∃ token, LastOf asValue (Tree.valuesOf (key "token") entries) token := by
    refine exists_lastOf fun t ht => ?_
    obtain ⟨q, hq, -, rfl⟩ := Tree.exists_of_mem_valuesOf ht
    exact exists_asValue_of_dict hr q hq
  exact ⟨⟨node, nodes, values, token, p⟩,
    ⟨hnode ▸ lastOf_singleton hid, hnodes, hvalues, htoken, hp⟩, hhosts, haddrs⟩

/-- **A query and its answer**: the query is what BEP 5 asks for, and of data that begins with an
answer the receiver takes the id of the query, and `get_peers` the nodes and the peers. -/
theorem getPeers_bep5 (ownId infoHash : NodeId) (id : UInt16) :
    getPeersData ownId infoHash id = .ok (PeerWire.emitDict
      [(key "a", PeerWire.emitDict [(key "id", PeerWire.emitBytes ownId.bytes),
        (key "info_hash", PeerWire.emitBytes infoHash.bytes)]),
      (key "q", PeerWire.emitBytes (key "get_peers")),
      (key "t", PeerWire.emitBytes (toBeBytes 2 id.toNat)),
      (key "y", PeerWire.emitBytes (key "q"))]) ∧
    ∀ hosts addrs pairs entries data, Bep5Answer id hosts addrs pairs entries →
      Begins pairs data → parse data = .id id ∧ getPeers (some data) = (hosts, addrs) := by
  refine ⟨getPeersData_eq ownId infoHash id, fun hosts addrs pairs entries data h hbegins => ?_⟩
  have ht : LastOf asValue (Tree.valuesOf (key "t") pairs)
      (some (.bytes (toBeBytes 2 id.toNat))) := by
    rw [h.t]
    exact lastOf_singleton rfl
  have hquery : Tree.valuesOf (key "a") pairs ≠ [] → Tree.valuesOf (key "q") pairs ≠ [] :=
    fun hne => absurd h.query hne
  have hr : Tree.valuesOf (key "r") pairs ≠ [] := by
    rw [h.response]
    exact List.cons_ne_nil _ _
  obtain ⟨hdepth, raw, rest, hspell, hdata⟩ := hbegins
  constructor
  · -- as a message of values
    obtain ⟨v, hv⟩ := exists_lastOf (fun t ht => by
      obtain ⟨q, hq, hk, rfl⟩ := Tree.exists_of_mem_valuesOf ht
      exact (h.readable q hq).item (Or.inr hk))
    refine parse_eq_id_iff.mpr ⟨_, v, ⟨pairs, raw, rest, hspell, hdepth, hdata,
      h.readable, ht, h.y, Or.inr hr, hquery, hv⟩, ?_⟩
    rw [fromBeSlice_toBeBytes 2 id.toNat id.toNat_lt, UInt16.ofNat_toNat]
  · -- as a message of responses
    obtain ⟨resp, hresp, hhosts, haddrs⟩ := h.exists_response
    have hview := asGetPeersResp_iff.mpr ⟨entries, rfl, hresp⟩
    have hreadable : ∀ p ∈ pairs, Readable asGetPeersResp p.1 p.2 := by
      intro p hp
      have hall := h.readable p hp
      refine ⟨fun hk => ?_, hall.string, hall.value, hall.addr, hall.p, hall.reqq⟩
      rcases hk with hk | hk
      · have hmem := Tree.mem_valuesOf hp hk
        rw [h.query] at hmem
        exact absurd hmem List.not_mem_nil
      · have hmem := Tree.mem_valuesOf hp hk
        rw [h.response] at hmem
        rw [List.mem_singleton.mp hmem]
        exact ⟨resp, hview⟩
    have hlast : LastOf asGetPeersResp (Tree.valuesOf (key "r") pairs) (some resp) := by
      rw [h.response]
      exact lastOf_singleton hview
    have hanswer : Answer pairs resp :=
      ⟨⟨_, hreadable, ht, h.y, Or.inr hr, hquery, hlast⟩, entries, by rw [h.response]; rfl, hresp⟩
    rcases result_of_begins ⟨hdepth, raw, rest, hspell, hdata⟩ with ⟨resp', h', hx⟩ | ⟨hnot, -⟩
    · rw [hx, h'.unique hanswer, hhosts, haddrs]
    · exact absurd ⟨resp, hanswer⟩ hnot

/-- The response of the node that knows one peer. -/
def onePeerEntries : List (Bytes × Bendy.Tree) :=
  [(key "id", .bytes NodeId.zero.bytes), (key "values", .list [.bytes [127, 0, 0, 1, 26, 225]])]

/-- Its answer. -/
def onePeerPairs : List (Bytes × Bendy.Tree) :=
  [(key "r", .dict onePeerEntries), (key "t", .bytes [0, 0]), (key "y", .bytes (key "r"))]

theorem begins_onePeer : Begins onePeerPairs onePeer.data := by
  refine ⟨by decide, onePeer.data, [], ?_, (List.append_nil _).symm⟩
  have hentries : PairsSpell onePeerEntries _ :=
    ⟨_, _, _, text_emitBytes (by decide +kernel), text_emitBytes (by decide),
      ⟨_, _, _, text_emitBytes (by decide +kernel),
        ⟨_, ⟨_, _, text_emitBytes (by decide), rfl, rfl⟩, rfl⟩, rfl, rfl⟩, rfl⟩
  have hpairs : PairsSpell onePeerPairs _ :=
    ⟨_, _, _, text_emitBytes (by decide +kernel), ⟨_, hentries, rfl⟩,
      ⟨_, _, _, text_emitBytes (by decide +kernel), text_emitBytes (by decide),
        ⟨_, _, _, text_emitBytes (by decide +kernel), text_emitBytes (by decide +kernel), rfl, rfl⟩,
        rfl⟩, rfl⟩
  exact ⟨_, hpairs, by decide +kernel⟩

theorem bep5Answer_onePeer :
    Bep5Answer 0 [] [.v4 2130706433 6881] onePeerPairs onePeerEntries where
  readable := by
    have hvalue : ∃ v, asValue (.dict onePeerEntries) = .ok v := ⟨_, rfl⟩
    have hstring : ∃ s, (Bendy.Tree.bytes (key "r")).asString = .ok s := by
      rw [Bendy.Tree.asString, stringFromUtf8_key]
      exact ⟨_, rfl⟩
    have hid : ∃ v, asValue (.bytes [0, 0]) = .ok v := ⟨_, rfl⟩
    simp [onePeerPairs, readable_iff, key_injective.eq_iff, hvalue, hstring, hid]
  t := by
    have hid : toBeBytes 2 (0 : UInt16).toNat = [0, 0] := by decide
    rw [hid]
    simp [onePeerPairs, Tree.valuesOf, Tree.select, key_injective.eq_iff]
  y := by simp [onePeerPairs, Tree.valuesOf, Tree.select, key_injective.eq_iff]
  query := by simp [onePeerPairs, Tree.valuesOf, Tree.select, key_injective.eq_iff]
  response := by simp [onePeerPairs, Tree.valuesOf, Tree.select, key_injective.eq_iff]
  id := ⟨NodeId.zero, by simp [onePeerEntries, Tree.valuesOf, Tree.select, key_injective.eq_iff]⟩
  nodes := Or.inr
    ⟨by simp [onePeerEntries, Tree.valuesOf, Tree.select, key_injective.eq_iff], rfl⟩
  hosts := fun h hmem => absurd hmem List.not_mem_nil
  values := Or.inl (by
    have haddr : addrBytes (.v4 2130706433 6881) = [127, 0, 0, 1, 26, 225] := by decide
    simp [onePeerEntries, Tree.valuesOf, Tree.select, key_injective.eq_iff, haddr])
  addrs := fun a ha => Or.inl ⟨2130706433, 6881, List.mem_singleton.mp ha, by decide, by decide⟩
  p := by simp [onePeerEntries, Tree.valuesOf, Tree.select, key_injective.eq_iff]

/-- The query with the id 0 and this answer. -/
theorem getPeers_bep5_onePeer : parse onePeer.data = .id 0 ∧
    getPeers (some onePeer.data) = ([], [.v4 2130706433 6881]) :=
  (getPeers_bep5 NodeId.zero NodeId.zero 0).2 _ _ _ _ _ bep5Answer_onePeer begins_onePeer

end Bep5

end DhtMessages
