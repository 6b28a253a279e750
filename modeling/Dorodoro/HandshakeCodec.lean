/-
# The codec of the extension handshake

`ToBencode for HandshakeData` (`bt/default_servant/extend_data.rs`) writes the optional fields in
the order of the structure and the addresses as lists of numbers; `FromBencode` reads the addresses
as byte strings.

* `HandshakeData.encode` and `HandshakeData.toBencode` follow the source;
* `HandshakeData.pairs` are the entries that are written, `fromBencode_pairs` says what is read of
  them;
* `roundTrips_iff`: which handshakes come back.
-/
import Dorodoro.BencodeDecoding
import Dorodoro.ExtensionIds

open Bendy

namespace ExtensionIds

/-! ## Encoding -/

/-- The entries of a `HashMap` in the order in which they are encoded. -/
def IdMap.sorted (m : IdMap) : List (Σ _ : String, UInt8) :=
  m.entries.mergeSort fun a b => key a.1 ≤ key b.1

/-- `ToBencode for HashMap<String, u8>`. -/
def IdMap.encode (m : IdMap) : Encode :=
  emitDict (emitPairs (m.sorted.map fun e => (key e.1, emitInt e.2.toNat)))

/-- `ToBencode for Vec<u8>`. -/
def encodeVec (v : Bytes) : Encode := emitList (v.map fun b => emitInt b.toNat)

/-- `impl ToBencode for HandshakeData`. -/
def HandshakeData.encode (h : HandshakeData) : Encode := emitDict fun e => do
  let e ← emitPair (key "m") h.m.encode e
  let e ← emitOption (key "p") emitInt h.p e
  let e ← emitOption (key "v") emitStr h.v e
  let e ← emitOption (key "yourip") encodeVec h.yourip e
  let e ← emitOption (key "ipv6") encodeVec h.ipv6 e
  let e ← emitOption (key "ipv4") encodeVec h.ipv4 e
  let e ← emitOption (key "reqq") emitInt h.reqq e
  emitOption (key "metadata_size") emitInt h.metadataSize e

/-- `HandshakeData::to_bencode`. -/
def HandshakeData.toBencode (h : HandshakeData) : Except EncodeError Bytes :=
  Bendy.toBencode h.encode maxDepth

/-! ## What is wanted -/

/-- The values are in the range of their types. -/
structure HandshakeData.InRange (h : HandshakeData) : Prop where
  m : ∀ name ∈ h.m.keys, (key name).length < 2 ^ 64
  p : ∀ p ∈ h.p, p < 2 ^ 16
  v : ∀ v ∈ h.v, (key v).length < 2 ^ 64
  reqq : ∀ reqq ∈ h.reqq, reqq < 2 ^ 64
  metadataSize : ∀ size ∈ h.metadataSize, size < 2 ^ 32

/-- Equality of two handshakes; a map is what it gives for the names. -/
structure HandshakeData.Same (h h' : HandshakeData) : Prop where
  m : ∀ name, h.m.lookup name = h'.m.lookup name
  p : h.p = h'.p
  v : h.v = h'.v
  yourip : h.yourip = h'.yourip
  ipv6 : h.ipv6 = h'.ipv6
  ipv4 : h.ipv4 = h'.ipv4
  reqq : h.reqq = h'.reqq
  metadataSize : h.metadataSize = h'.metadataSize

/-- **What is wanted**: the handshake is encoded, and decoded to the same. -/
def HandshakeData.RoundTrips (h : HandshakeData) : Prop :=
  ∃ bytes h', h.toBencode = .ok bytes ∧ HandshakeData.fromBencode bytes = .ok h' ∧ h'.Same h

/-- **The condition**: there is no address, not both a version and a queue size, and nothing between
the map and the metadata size. -/
def HandshakeData.Plain (h : HandshakeData) : Prop :=
  h.yourip = none ∧ h.ipv6 = none ∧ h.ipv4 = none ∧ (h.v = none ∨ h.reqq = none) ∧
    (h.metadataSize = none ∨ h.p = none ∧ h.v = none ∧ h.reqq = none)

/-! ## The map -/

theorem IdMap.sorted_perm (m : IdMap) : m.sorted.Perm m.entries := List.mergeSort_perm _ _

/-- Strictly ascending keys are accepted. -/
theorem ascends_of_pairwise {keys : List Bytes} (h : keys.Pairwise (· < ·)) :
    ∀ last : Option Bytes, (∀ old ∈ last, ∀ k ∈ keys, old < k) → ascends last keys = true := by
  induction h with
  | nil => intro last _; rfl
  | @cons k keys hk _ ih =>
      intro last hlast
      have hfirst : last.all (· < k) = true := by
        match last with
        | none => rfl
        | some old => exact decide_eq_true (hlast old rfl k List.mem_cons_self)
      have hrest := ih (some k) fun old hold k' hk' => by
        obtain rfl := Option.some.inj hold
        exact hk k' hk'
      rw [ascends, hfirst, hrest]
      rfl

/-- The keys ascend. -/
theorem IdMap.ascends_sorted (m : IdMap) :
    ascends none (m.sorted.map fun e => key e.1) = true := by
  have hle : (m.sorted.map fun e => key e.1).Pairwise (· ≤ ·) := by
    refine List.pairwise_map.mpr ((List.pairwise_mergeSort ?_ ?_ m.entries).imp of_decide_eq_true)
    · intro a b c hab hbc
      exact decide_eq_true (List.le_trans (of_decide_eq_true hab) (of_decide_eq_true hbc))
    · intro a b
      rw [Bool.or_eq_true, decide_eq_true_eq, decide_eq_true_eq]
      exact List.le_total _ _
  have hne : (m.sorted.map fun e => key e.1).Pairwise (· ≠ ·) := by
    have hkeys : (m.sorted.map Sigma.fst).Nodup :=
      (m.sorted_perm.map Sigma.fst).nodup_iff.mpr m.nodupKeys
    have hnodup := hkeys.map key_injective
    rwa [List.map_map] at hnodup
  refine ascends_of_pairwise ?_ none nofun
  refine (hle.and hne).imp fun h => ?_
  rcases List.le_iff_lt_or_eq.mp h.1 with hlt | heq
  · exact hlt
  · exact absurd heq h.2

/-- The entries of the map, as they are written. -/
def IdMap.pairs (m : IdMap) : List (Bytes × Bytes) :=
  m.sorted.map fun e => (key e.1, PeerWire.emitInt e.2.toNat)

theorem IdMap.emits (m : IdMap) : m.encode.Emits 1 (.ok (PeerWire.emitDict m.pairs)) := by
  have hpairs : Encode.EmitsPairs
      (emitPairs (m.sorted.map fun e => (key e.1, emitInt e.2.toNat))) 0 m.pairs :=
    emits_pairs fun e _ => emits_int e.2.toNat 0
  have hkeys : ascends none (m.pairs.map Prod.fst) = true := by
    rw [IdMap.pairs, List.map_map]
    exact m.ascends_sorted
  have hemits := emits_dict hpairs
  rwa [if_pos hkeys] at hemits

/-- An entry of the map is read. -/
theorem idMapEntry_reads (m : IdMap) (name : String) (id : UInt8) :
    (idMapEntry m (key name)).Reads 0 (PeerWire.emitInt id.toNat) (.ok (m.insert name id)) := by
  refine reads_int (fun d => ?_) 0
  have hid : decodeUnsigned 8 (.integer (PeerWire.decimal id.toNat)) d = .ok (id.toNat, d) := by
    rw [decodeUnsigned, parseUnsigned_decimal id.toNat_lt]
  have hname : decodeString (.bytes (key name)) d = .ok (name, d) := by
    rw [decodeString, stringFromUtf8_key]
  show (decodeString (.bytes (key name)) d).bind _ = _
  rw [hname]
  show (decodeUnsigned 8 (.integer (PeerWire.decimal id.toNat)) d).bind _ = _
  rw [hid]
  show Except.ok (m.insert name (UInt8.ofNat id.toNat), d) = _
  rw [UInt8.ofNat_toNat]
  rfl

/-- The entries of the map are read one after the other. -/
theorem readsPairs_idMap {entries : List (Σ _ : String, UInt8)}
    (hnames : (entries.map Sigma.fst).Nodup)
    (hlength : ∀ name ∈ entries.map Sigma.fst, (key name).length < 2 ^ 64) :
    ∀ {m : IdMap}, (∀ name ∈ entries.map Sigma.fst, name ∉ m) →
      ∃ m' : IdMap, m'.entries.Perm (entries ++ m.entries) ∧
        ReadsPairs idMapEntry 0 m
          (entries.map fun e => (key e.1, PeerWire.emitInt e.2.toNat)) (.ok m') := by
  induction entries with
  | nil => exact fun {m} _ => ⟨m, List.Perm.refl _, .nil m⟩
  | cons e entries ih =>
      intro m hfresh
      rw [List.map_cons, List.nodup_cons] at hnames
      have hnew : e.1 ∉ m := hfresh e.1 List.mem_cons_self
      obtain ⟨m', hperm, hreads⟩ := ih hnames.2
        (fun name hname => hlength name (List.mem_cons_of_mem _ hname)) (m := m.insert e.1 e.2)
        fun name hname hmem => by
          rcases (AList.mem_insert m).mp hmem with rfl | hmem
          · exact hnames.1 hname
          · exact hfresh name (List.mem_cons_of_mem _ hname) hmem
      refine ⟨m', ?_, .cons (hlength e.1 List.mem_cons_self) (idMapEntry_reads m e.1 e.2) hreads⟩
      rw [AList.entries_insert_of_notMem hnew] at hperm
      exact hperm.trans List.perm_middle

/-- **The map comes back.** -/
theorem IdMap.reads (m : IdMap) (hlength : ∀ name ∈ m.keys, (key name).length < 2 ^ 64) :
    ∃ m' : IdMap, (∀ name, m'.lookup name = m.lookup name) ∧
      decodeIdMap.Reads 1 (PeerWire.emitDict m.pairs) (.ok m') := by
  have hkeys : (m.sorted.map Sigma.fst).Perm m.keys := m.sorted_perm.map Sigma.fst
  obtain ⟨m', hperm, hreads⟩ := readsPairs_idMap (hkeys.nodup_iff.mpr m.nodupKeys)
    (fun name hname => hlength name (hkeys.subset hname)) (m := ∅)
    fun name _ => AList.notMem_empty name
  refine ⟨m', fun name => AList.perm_lookup ?_, dictLoop_reads hreads⟩
  rw [AList.empty_entries, List.append_nil] at hperm
  exact hperm.trans m.sorted_perm

/-! ## What is written -/

/-- The bytes of an address. -/
def addressBytes (v : Bytes) : Bytes :=
  ascii 'l' :: v.flatMap (fun b => PeerWire.emitInt b.toNat) ++ [ascii 'e']

/-- The addresses, as they are written. -/
def HandshakeData.addresses (h : HandshakeData) : List (Bytes × Bytes) :=
  h.yourip.toList.map (fun v => (key "yourip", addressBytes v)) ++
    (h.ipv6.toList.map (fun v => (key "ipv6", addressBytes v)) ++
      h.ipv4.toList.map fun v => (key "ipv4", addressBytes v))

/-- The sizes, as they are written. -/
def HandshakeData.sizes (h : HandshakeData) : List (Bytes × Bytes) :=
  h.reqq.toList.map (fun n => (key "reqq", PeerWire.emitInt n)) ++
    h.metadataSize.toList.map fun n => (key "metadata_size", PeerWire.emitInt n)

/-- The entries of the handshake, as they are written. -/
def HandshakeData.pairs (h : HandshakeData) : List (Bytes × Bytes) :=
  (key "m", PeerWire.emitDict h.m.pairs) ::
    (h.p.toList.map (fun n => (key "p", PeerWire.emitInt n)) ++
      (h.v.toList.map (fun s => (key "v", PeerWire.emitBytes (key s))) ++
        (h.addresses ++ h.sizes)))

theorem encodeVec_emits (v : Bytes) : (encodeVec v).Emits 1 (.ok (addressBytes v)) :=
  emits_list fun b _ => emits_int b.toNat 0

theorem HandshakeData.emits (h : HandshakeData) :
    h.encode.Emits 2 (if ascends none (h.pairs.map Prod.fst) then
      .ok (PeerWire.emitDict h.pairs) else .error (.structureError .unsortedKeys)) := by
  have hint (o : Option ℕ) (k : Bytes) := emits_option (k := k) (n := 1) o fun n _ => emits_int n 1
  have hvec (o : Option Bytes) (k : Bytes) :=
    emits_option (k := k) (n := 1) o fun v _ => encodeVec_emits v
  have hpairs := emits_bind (emits_pair (k := key "m") h.m.emits) <|
    emits_bind (hint h.p (key "p")) <|
    emits_bind (emits_option (k := key "v") h.v fun s _ => emits_str s 1) <|
    emits_bind (hvec h.yourip (key "yourip")) <| emits_bind (hvec h.ipv6 (key "ipv6")) <|
    emits_bind (hvec h.ipv4 (key "ipv4")) <|
    emits_bind (hint h.reqq (key "reqq")) (hint h.metadataSize (key "metadata_size"))
  rw [HandshakeData.pairs, HandshakeData.addresses, HandshakeData.sizes, List.append_assoc,
    List.append_assoc]
  exact emits_dict hpairs

/-! ## What is read -/

/-- The fields in front of a dictionary. -/
def HandshakeFields.empty : HandshakeFields := ⟨none, none, none, none, none, none, none, none⟩

/-- The fields behind the map, the port and the version. -/
def HandshakeData.front (h : HandshakeData) (m : IdMap) : HandshakeFields :=
  ⟨some m, h.p, h.v, none, none, none, none, none⟩

section Reading

variable {h : HandshakeData} {m : IdMap} {pairs : List (Bytes × Bytes)}
  {result : Except Error HandshakeFields}

/-- The entries up to the version are read. -/
theorem reads_front (hr : h.InRange)
    (hm : decodeIdMap.Reads 1 (PeerWire.emitDict h.m.pairs) (.ok m))
    (hpairs : ReadsPairs handshakeEntry 1 (h.front m) pairs result) :
    ReadsPairs handshakeEntry 1 HandshakeFields.empty
      ((key "m", PeerWire.emitDict h.m.pairs) ::
        (h.p.toList.map (fun n => (key "p", PeerWire.emitInt n)) ++
          (h.v.toList.map (fun s => (key "v", PeerWire.emitBytes (key s))) ++ pairs))) result := by
  have hentry (s : HandshakeFields) : handshakeEntry s (key "m") =
      field "m" decodeIdMap ({ s with m := some · }) := if_pos rfl
  have hport (s : HandshakeFields) : handshakeEntry s (key "p") =
      field "p" (decodeUnsigned 16) ({ s with p := some · }) := by
    simp [handshakeEntry, key_injective.eq_iff]
  have hversion (s : HandshakeFields) : handshakeEntry s (key "v") =
      field "v" decodeString ({ s with v := some · }) := by
    simp [handshakeEntry, key_injective.eq_iff]
  refine .cons (u := ⟨some m, none, none, none, none, none, none, none⟩) (by decide +kernel) ?_ <|
    .option (u := ⟨some m, h.p, none, none, none, none, none, none⟩) (by decide +kernel) ?_ ?_ <|
    .option (by decide +kernel) ?_ ?_ hpairs
  · rw [hentry]
    exact field_reads hm
  · exact fun hp => by rw [hp]
  · intro n hp
    rw [hport, hp]
    exact field_reads (decodeUnsigned_reads (hr.p n hp) 1)
  · exact fun hv => by rw [HandshakeData.front, hv]
  · intro s hv
    rw [hversion, HandshakeData.front, hv]
    exact field_reads (decodeString_reads (hr.v s hv) 1)

/-- The sizes are read. -/
theorem reads_sizes (hr : h.InRange) : ReadsPairs handshakeEntry 1 (h.front m) h.sizes
    (.ok { h.front m with reqq := h.reqq, metadataSize := h.metadataSize }) := by
  have hreqq (s : HandshakeFields) : handshakeEntry s (key "reqq") =
      field "reqq" (decodeUnsigned 64) ({ s with reqq := some · }) := by
    simp [handshakeEntry, key_injective.eq_iff]
  have hsize (s : HandshakeFields) : handshakeEntry s (key "metadata_size") =
      field "metadata_size" (decodeUnsigned 32) ({ s with metadataSize := some · }) := by
    simp [handshakeEntry, key_injective.eq_iff]
  rw [HandshakeData.sizes, ← List.append_nil (h.metadataSize.toList.map _)]
  refine .option (u := { h.front m with reqq := h.reqq }) (by decide +kernel) ?_ ?_ <|
    .option (by decide +kernel) ?_ ?_ (.nil _)
  · exact fun hq => by rw [hq]; rfl
  · intro n hq
    rw [hreqq, hq]
    exact field_reads (decodeUnsigned_reads (hr.reqq n hq) 1)
  · exact fun hs => by rw [hs]; rfl
  · intro n hs
    rw [hsize, hs]
    exact field_reads (decodeUnsigned_reads (hr.metadataSize n hs) 1)

/-- **No address is read.** -/
theorem reads_addresses (hsome : h.addresses ≠ []) (s : HandshakeFields) :
    ∃ e, ReadsPairs handshakeEntry 1 s (h.addresses ++ pairs) (.error e) := by
  have hfail {k raw : Bytes} {name : String} {set : Bytes → HandshakeFields}
      {rest : List (Bytes × Bytes)} (hk : k.length < 2 ^ 64)
      (hbody : handshakeEntry s k = field name decodeBytes set) :
      ∃ e, ReadsPairs handshakeEntry 1 s ((k, addressBytes raw) :: rest) (.error e) := by
    have hlist : decodeBytes.Reads 1 (addressBytes raw)
        (.error (.ofKind (.unexpectedToken "String" "List"))) :=
      reads_list_error (fun _ _ => rfl) 0 _
    have hfield : (field name decodeBytes set).Reads 1 (addressBytes raw) _ := field_reads hlist
    rw [← hbody] at hfield
    exact ⟨_, .fail hk hfield⟩
  rw [HandshakeData.addresses] at hsome ⊢
  match h.yourip, h.ipv6, h.ipv4, hsome with
  | some _, _, _, _ =>
      exact hfail (by decide +kernel) (by simp [handshakeEntry, key_injective.eq_iff]; rfl)
  | none, some _, _, _ =>
      exact hfail (by decide +kernel) (by simp [handshakeEntry, key_injective.eq_iff]; rfl)
  | none, none, some _, _ =>
      exact hfail (by decide +kernel) (by simp [handshakeEntry, key_injective.eq_iff]; rfl)
  | none, none, none, hsome => exact absurd rfl hsome

end Reading

/-! ## The handshakes that come back -/

/-- The keys ascend, where there are no addresses. -/
theorem ascends_pairs {h : HandshakeData} (hnone : h.addresses = []) :
    ascends none (h.pairs.map Prod.fst) = true ↔ (h.v = none ∨ h.reqq = none) ∧
      (h.metadataSize = none ∨ h.p = none ∧ h.v = none ∧ h.reqq = none) := by
  have hmp : key "m" < key "p" := by decide +kernel
  have hmv : key "m" < key "v" := by decide +kernel
  have hmr : key "m" < key "reqq" := by decide +kernel
  have hms : key "m" < key "metadata_size" := by decide +kernel
  have hpv : key "p" < key "v" := by decide +kernel
  have hpr : key "p" < key "reqq" := by decide +kernel
  have hps : ¬ key "p" < key "metadata_size" := by decide +kernel
  have hvr : ¬ key "v" < key "reqq" := by decide +kernel
  have hvs : ¬ key "v" < key "metadata_size" := by decide +kernel
  have hrs : ¬ key "reqq" < key "metadata_size" := by decide +kernel
  rw [HandshakeData.pairs, hnone, HandshakeData.sizes, List.nil_append]
  rcases h.p with _ | p <;> rcases h.v with _ | v <;> rcases h.reqq with _ | reqq <;>
    rcases h.metadataSize with _ | size <;>
    simp [ascends, hmp, hmv, hmr, hms, hpv, hpr, hps, hvr, hvs, hrs]

theorem addresses_eq_nil (h : HandshakeData) :
    h.addresses = [] ↔ h.yourip = none ∧ h.ipv6 = none ∧ h.ipv4 = none := by
  simp [HandshakeData.addresses]

/-- What is made of the fields at the end of a dictionary. -/
def HandshakeFields.finish (s : HandshakeFields) : Except Error HandshakeData :=
  (required "m" s.m).map fun m =>
    ⟨m, s.p, s.v, s.yourip, s.ipv6, s.ipv4, s.reqq, s.metadataSize⟩

theorem decodeHandshakeData_eq (o : Object) (d : Decoder) : decodeHandshakeData o d =
    (dictLoop handshakeEntry HandshakeFields.empty o d).bind fun p =>
      p.1.finish.map fun h => (h, p.2) := by
  show (dictLoop handshakeEntry HandshakeFields.empty o d).bind _ = _
  congr 1
  funext p
  rcases p with ⟨⟨_ | m, _, _, _, _, _, _, _⟩, d'⟩ <;> rfl

/-- What is decoded from the bytes that were written. -/
theorem fromBencode_pairs {h : HandshakeData} (hr : h.InRange) :
    (h.addresses = [] → ∃ h', HandshakeData.fromBencode (PeerWire.emitDict h.pairs) = .ok h' ∧
      h'.Same h) ∧
    (h.addresses ≠ [] → ∃ e, HandshakeData.fromBencode (PeerWire.emitDict h.pairs) = .error e) := by
  obtain ⟨m, hm, hreads⟩ := h.m.reads hr.m
  have hrun {result : Except Error HandshakeFields}
      (hpairs : ReadsPairs handshakeEntry 1 HandshakeFields.empty h.pairs result) :
      HandshakeData.fromBencode (PeerWire.emitDict h.pairs) =
        result.bind HandshakeFields.finish :=
    ((dictLoop_reads hpairs).andThen _ decodeHandshakeData_eq).fromBencode (by decide)
  constructor
  · intro hnone
    have hrest : ReadsPairs handshakeEntry 1 (h.front m) (h.addresses ++ h.sizes)
        (.ok { h.front m with reqq := h.reqq, metadataSize := h.metadataSize }) := by
      rw [hnone]
      exact reads_sizes hr
    have hpairs : ReadsPairs handshakeEntry 1 HandshakeFields.empty h.pairs _ :=
      reads_front hr hreads hrest
    obtain ⟨hyourip, hipv6, hipv4⟩ := (addresses_eq_nil h).mp hnone
    exact ⟨_, hrun hpairs, hm, rfl, rfl, hyourip.symm, hipv6.symm, hipv4.symm, rfl, rfl⟩
  · intro hsome
    obtain ⟨e, haddresses⟩ := reads_addresses hsome (h.front m)
    exact ⟨e, hrun (reads_front hr hreads haddresses)⟩

theorem HandshakeData.toBencode_eq (h : HandshakeData) :
    h.toBencode = if ascends none (h.pairs.map Prod.fst) then
      .ok (PeerWire.emitDict h.pairs) else .error (.structureError .unsortedKeys) :=
  h.emits.toBencode (by decide)

theorem plain_of_roundTrips {h : HandshakeData} (hr : h.InRange) (hback : h.RoundTrips) :
    h.Plain := by
  obtain ⟨bytes, h', hto, hfrom, -⟩ := hback
  rw [HandshakeData.toBencode_eq] at hto
  obtain ⟨hsorted, rfl⟩ := ite_ok_eq_ok hto
  have hnone : h.addresses = [] := by
    by_contra hsome
    obtain ⟨e, herr⟩ := (fromBencode_pairs hr).2 hsome
    nomatch hfrom.symm.trans herr
  obtain ⟨hyourip, hipv6, hipv4⟩ := (addresses_eq_nil h).mp hnone
  exact ⟨hyourip, hipv6, hipv4, (ascends_pairs hnone).mp hsorted⟩

theorem roundTrips_of_plain {h : HandshakeData} (hr : h.InRange) (hplain : h.Plain) :
    h.RoundTrips := by
  obtain ⟨hyourip, hipv6, hipv4, hkeys⟩ := hplain
  have hnone := (addresses_eq_nil h).mpr ⟨hyourip, hipv6, hipv4⟩
  obtain ⟨h', hfrom, hsame⟩ := (fromBencode_pairs hr).1 hnone
  have hto := h.toBencode_eq
  rw [if_pos ((ascends_pairs hnone).mpr hkeys)] at hto
  exact ⟨_, h', hto, hfrom, hsame⟩

/-- **A handshake comes back exactly if it has no address, not both a version and a queue size, and
nothing else beside a metadata size.** -/
theorem roundTrips_iff (h : HandshakeData) (hr : h.InRange) : h.RoundTrips ↔ h.Plain :=
  ⟨plain_of_roundTrips hr, roundTrips_of_plain hr⟩

/-- A map, a port and a version come back. -/
theorem roundTrips_version :
    (HandshakeData.mk (AList.singleton "ut_metadata" 2) (some 6881) (some "doro")
      none none none none none).RoundTrips :=
  (roundTrips_iff _
    ⟨by decide +kernel, by decide, by decide +kernel, by decide, by decide⟩).mpr
    ⟨rfl, rfl, rfl, Or.inr rfl, Or.inl rfl⟩

/-- An address does not come back, and neither do a version and a queue size. -/
theorem not_roundTrips :
    ¬ (HandshakeData.mk ∅ none none (some [127, 0, 0, 1]) none none none none).RoundTrips ∧
      ¬ (HandshakeData.mk ∅ none (some "doro") none none none (some 250) none).RoundTrips := by
  constructor
  · intro hback
    have hplain := plain_of_roundTrips
      ⟨by decide +kernel, by decide, by decide, by decide, by decide⟩ hback
    nomatch hplain.1
  · intro hback
    have hplain := plain_of_roundTrips
      ⟨by decide +kernel, by decide, by decide +kernel, by decide, by decide⟩ hback
    exact absurd hplain.2.2.2.1 (by decide)

end ExtensionIds
