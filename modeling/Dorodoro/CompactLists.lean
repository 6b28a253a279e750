/-
# Compact lists of addresses and nodes

Trackers and DHT nodes send peers and nodes as strings of fixed-size records, 6 or 18 bytes for an
address and 20 more for a node.  Nothing in the string tells the size
(`Bytes2Object` in `doro-util/src/bendy_ext.rs` and `bt/dht/entity.rs`): the decoder takes the
short one whenever it divides the length.

* `toVec` is the conversion, with the two sizes as parameters; `toSocketAddrs` and `toHosts` are its
  two instances;
* `toVec_short`, `toVec_long_iff`: lists of short records come back, lists of long ones when the
  short size does not divide the length;
* `Announce` (`bt/tracker/http_tracker.rs`) is a tracker reply.
-/
import Dorodoro.DhtMessages
import Dorodoro.RoutingTable
import Mathlib.Data.Nat.GCD.Basic

/-! ## Cutting a string into pieces -/

/-- `slice.chunks(size)`. -/
def chunks {α : Type} (size : ℕ) (l : List α) : List (List α) :=
  (List.range ((l.length + size - 1) / size)).map fun i => (l.drop (i * size)).take size

theorem length_chunks {α : Type} {size : ℕ} (hsize : 0 < size) {l : List α}
    (h : size ∣ l.length) : (chunks size l).length = l.length / size := by
  obtain ⟨m, hm⟩ := h
  rw [chunks, List.length_map, List.length_range, hm, Nat.mul_div_cancel_left m hsize,
    Nat.add_sub_assoc hsize, Nat.mul_add_div hsize, Nat.div_eq_of_lt (by omega), Nat.add_zero]

theorem length_flatMap_of_eq {α β : Type} {f : α → List β} {size : ℕ} {xs : List α}
    (h : ∀ x ∈ xs, (f x).length = size) : (xs.flatMap f).length = size * xs.length := by
  induction xs with
  | nil => rfl
  | cons x xs ih =>
      rw [List.flatMap_cons, List.length_append, ih fun y hy => h y (List.mem_cons_of_mem _ hy),
        h x List.mem_cons_self, List.length_cons]
      ring

/-- A piece of a string of records is a record. -/
theorem take_drop_flatMap {α β : Type} {f : α → List β} {size : ℕ} {xs : List α}
    (h : ∀ x ∈ xs, (f x).length = size) {i : ℕ} (hi : i < xs.length) :
    ((xs.flatMap f).drop (i * size)).take size = f xs[i] := by
  induction xs generalizing i with
  | nil => cases hi
  | cons x xs ih =>
      have hx := h x List.mem_cons_self
      cases i with
      | zero => rw [Nat.zero_mul, List.drop_zero, List.flatMap_cons, List.take_left' hx]; rfl
      | succ i =>
          have hdrop : (i + 1) * size = (f x).length + i * size := by rw [hx]; ring
          rw [List.flatMap_cons, hdrop, ← List.drop_drop, List.drop_left]
          exact ih (fun y hy => h y (List.mem_cons_of_mem _ hy)) (by simpa using hi)

/-- **A string of records** is cut into the records. -/
theorem chunks_flatMap {α β : Type} {f : α → List β} {size : ℕ} (hsize : 0 < size) {xs : List α}
    (h : ∀ x ∈ xs, (f x).length = size) : chunks size (xs.flatMap f) = xs.map f := by
  have hlen := length_flatMap_of_eq h
  refine List.ext_getElem ?_ fun i hi hi' => ?_
  · rw [length_chunks hsize ⟨_, hlen⟩, hlen, Nat.mul_div_cancel_left _ hsize, List.length_map]
  · rw [List.length_map] at hi'
    simp only [chunks, List.getElem_map, List.getElem_range]
    exact take_drop_flatMap h hi'

theorem mapM_map_ok {ε α β : Type} {f : β → Except ε α} {g : α → β} {xs : List α}
    (h : ∀ x ∈ xs, f (g x) = .ok x) : (xs.map g).mapM f = .ok xs := by
  induction xs with
  | nil => rfl
  | cons x xs ih =>
      rw [List.map_cons, List.mapM_cons, h x List.mem_cons_self,
        ih fun y hy => h y (List.mem_cons_of_mem _ hy)]
      rfl

theorem length_of_mapM_ok {ε α β : Type} {f : α → Except ε β} {xs : List α} {ys : List β}
    (h : xs.mapM f = .ok ys) : ys.length = xs.length := by
  induction xs generalizing ys with
  | nil =>
      obtain rfl := Except.ok.inj h
      rfl
  | cons x xs ih =>
      rw [List.mapM_cons] at h
      obtain ⟨y, -, h⟩ := Checked.bind_eq_ok.mp h
      obtain ⟨zs, hzs, h⟩ := Checked.bind_eq_ok.mp h
      obtain rfl := Except.ok.inj h
      rw [List.length_cons, List.length_cons, ih hzs]

namespace CompactLists

open Bendy Routing DhtMessages

/-! ## The conversions -/

/-- The two sizes of a record, and the texts of the error. -/
structure Format where
  short : ℕ
  long : ℕ
  expected : String
  invalid : String

/-- A string as a vector of records. -/
def toVec {α : Type} (F : Format) (toObject : Bytes → Except Error α) (bytes : Bytes) :
    Except Error (List α) :=
  if bytes.length % F.short = 0 then (chunks F.short bytes).mapM toObject
  else if bytes.length % F.long = 0 then (chunks F.long bytes).mapM toObject
  else .error (.ofKind (.unexpectedToken F.expected (F.invalid ++ toString bytes.length)))

/-- `<[u8] as Bytes2Object<Vec<SocketAddrExt>>>::to_object`. -/
def toSocketAddrs : Bytes → Except Error (List SocketAddr) :=
  toVec ⟨6, 18, "6 or 18 bytes per socket address expected",
    "Invalid socket address list length: "⟩ toSocketAddr

/-- `Host`. -/
structure Host where
  id : NodeId
  addr : SocketAddr
  deriving DecidableEq

/-- `<[u8] as Bytes2Object<Host>>::to_object`. -/
def toHost (bytes : Bytes) : Except Error Host :=
  if h : bytes.length ≠ 26 ∧ bytes.length ≠ 38 then
    .error (.ofKind (.unexpectedToken "26 or 38 bytes expected"
      ("Invalid host length: " ++ toString bytes.length)))
  else
    (toSocketAddr (bytes.drop 20)).map fun addr =>
      ⟨⟨bytes.take 20, by rw [List.length_take]; omega⟩, addr⟩

/-- `<[u8] as Bytes2Object<VecHost>>::to_object`. -/
def toHosts : Bytes → Except Error (List Host) :=
  toVec ⟨26, 38, "26 or 38 bytes per host expected", "Invalid host list length: "⟩ toHost

/-- The bytes that `SocketAddrExt` encodes. -/
def addrBytes : SocketAddr → Bytes
  | .v4 ip port => toBeBytes 4 ip ++ toBeBytes 2 port
  | .v6 ip port _ _ => toBeBytes 16 ip ++ toBeBytes 2 port

/-- An id, an address and a port. -/
def Host.bytes (h : Host) : Bytes := h.id.bytes ++ addrBytes h.addr

/-- An IPv4 address. -/
def IsV4 (a : SocketAddr) : Prop := ∃ ip port, a = .v4 ip port ∧ ip < 256 ^ 4 ∧ port < 256 ^ 2

/-- An IPv6 address without flow info and scope. -/
def IsV6 (a : SocketAddr) : Prop :=
  ∃ ip port, a = .v6 ip port 0 0 ∧ ip < 256 ^ 16 ∧ port < 256 ^ 2

/-! ## Records -/

theorem length_addrBytes_v4 {a : SocketAddr} (h : IsV4 a) : (addrBytes a).length = 6 := by
  obtain ⟨ip, port, rfl, -, -⟩ := h
  simp [addrBytes]

theorem length_addrBytes_v6 {a : SocketAddr} (h : IsV6 a) : (addrBytes a).length = 18 := by
  obtain ⟨ip, port, rfl, -, -⟩ := h
  simp [addrBytes]

/-- An address and a port that were written are read back. -/
theorem fromBeSlice_parts {size ip port : ℕ} (hip : ip < 256 ^ size) (hport : port < 256 ^ 2) :
    fromBeSlice size ((toBeBytes size ip ++ toBeBytes 2 port).take size) = ip ∧
      fromBeSlice 2 ((toBeBytes size ip ++ toBeBytes 2 port).drop size) = port := by
  rw [List.take_left' (length_toBeBytes size ip), List.drop_left' (length_toBeBytes size ip)]
  exact ⟨fromBeSlice_toBeBytes size ip hip, fromBeSlice_toBeBytes 2 port hport⟩

theorem toSocketAddr_v4 {a : SocketAddr} (h : IsV4 a) : toSocketAddr (addrBytes a) = .ok a := by
  rw [toSocketAddr, if_pos (length_addrBytes_v4 h)]
  obtain ⟨ip, port, rfl, hip, hport⟩ := h
  obtain ⟨hip, hport⟩ := fromBeSlice_parts hip hport
  rw [addrBytes, hip, hport]

theorem toSocketAddr_v6 {a : SocketAddr} (h : IsV6 a) : toSocketAddr (addrBytes a) = .ok a := by
  have hlen := length_addrBytes_v6 h
  rw [toSocketAddr, if_neg (by omega), if_pos hlen]
  obtain ⟨ip, port, rfl, hip, hport⟩ := h
  obtain ⟨hip, hport⟩ := fromBeSlice_parts hip hport
  rw [addrBytes, hip, hport]

theorem Host.length_bytes (h : Host) : h.bytes.length = 20 + (addrBytes h.addr).length := by
  rw [bytes, List.length_append, h.id.length_bytes]

/-- A host is read back when its address is. -/
theorem toHost_bytes {h : Host} (hlen : h.bytes.length = 26 ∨ h.bytes.length = 38)
    (haddr : toSocketAddr (addrBytes h.addr) = .ok h.addr) : toHost h.bytes = .ok h := by
  have hdrop : h.bytes.drop 20 = addrBytes h.addr := List.drop_left' h.id.length_bytes
  have htake : h.bytes.take 20 = h.id.bytes := List.take_left' h.id.length_bytes
  rw [toHost, dif_neg (by omega)]
  simp only [hdrop, haddr, htake]
  rfl

/-! ## Lists -/

section Lists

variable {α : Type} {F : Format} {toObject : Bytes → Except Error α} {bytes : α → Bytes}
  {xs : List α}

/-- **Short records** come back. -/
theorem toVec_short (hpos : 0 < F.short) (hlen : ∀ x ∈ xs, (bytes x).length = F.short)
    (hx : ∀ x ∈ xs, toObject (bytes x) = .ok x) : toVec F toObject (xs.flatMap bytes) = .ok xs := by
  rw [toVec, length_flatMap_of_eq hlen, if_pos (Nat.mul_mod_right _ _), chunks_flatMap hpos hlen,
    mapM_map_ok hx]

/-- **Long records** come back when the short size does not divide the length of a list that is
not empty: cut into short pieces, the string has more of them than the list has records. -/
theorem toVec_long_iff (hpos : 0 < F.short) (hlt : F.short < F.long)
    (hlen : ∀ x ∈ xs, (bytes x).length = F.long) (hx : ∀ x ∈ xs, toObject (bytes x) = .ok x) :
    toVec F toObject (xs.flatMap bytes) = .ok xs ↔ xs = [] ∨ ¬ F.short ∣ F.long * xs.length := by
  have hall := length_flatMap_of_eq hlen
  rw [toVec, hall]
  by_cases hdvd : F.short ∣ F.long * xs.length
  · rw [if_pos (Nat.mod_eq_zero_of_dvd hdvd), or_iff_left (not_not.mpr hdvd)]
    constructor
    · intro h
      have hcount := length_of_mapM_ok h
      rw [length_chunks hpos (hall ▸ hdvd), hall, eq_comm, Nat.div_eq_iff_eq_mul_right hpos hdvd]
        at hcount
      have heq : (F.long - F.short) * xs.length = 0 := by
        rw [Nat.sub_mul]
        omega
      rcases Nat.mul_eq_zero.mp heq with hzero | hzero
      · omega
      · exact List.length_eq_zero_iff.mp hzero
    · rintro rfl
      have hnone : (0 + F.short - 1) / F.short = 0 := Nat.div_eq_of_lt (by omega)
      show (chunks F.short []).mapM toObject = .ok []
      rw [chunks, List.length_nil, hnone]
      rfl
  · rw [if_neg fun h => hdvd (Nat.dvd_of_mod_eq_zero h), if_pos (Nat.mul_mod_right _ _),
      chunks_flatMap (hpos.trans hlt) hlen, mapM_map_ok hx]
    exact iff_of_true rfl (Or.inr hdvd)

end Lists

/-- Short addresses come back. -/
theorem toSocketAddrs_v4 {xs : List SocketAddr} (h : ∀ a ∈ xs, IsV4 a) :
    toSocketAddrs (xs.flatMap addrBytes) = .ok xs :=
  toVec_short (by decide) (fun a ha => length_addrBytes_v4 (h a ha))
    fun a ha => toSocketAddr_v4 (h a ha)

/-- Every list of long addresses has a length that 6 divides. -/
theorem toSocketAddrs_v6_iff {xs : List SocketAddr} (h : ∀ a ∈ xs, IsV6 a) :
    toSocketAddrs (xs.flatMap addrBytes) = .ok xs ↔ xs = [] := by
  have hdvd : 6 ∣ 18 * xs.length := ⟨3 * xs.length, by ring⟩
  refine (toVec_long_iff (by decide) (by decide) (fun a ha => length_addrBytes_v6 (h a ha))
    fun a ha => toSocketAddr_v6 (h a ha)).trans ?_
  exact or_iff_left (not_not.mpr hdvd)

theorem toHosts_v4 {xs : List Host} (h : ∀ x ∈ xs, IsV4 x.addr) :
    toHosts (xs.flatMap Host.bytes) = .ok xs := by
  have hlen : ∀ x ∈ xs, x.bytes.length = 26 := fun x hx => by
    rw [x.length_bytes, length_addrBytes_v4 (h x hx)]
  exact toVec_short (by decide) hlen fun x hx =>
    toHost_bytes (Or.inl (hlen x hx)) (toSocketAddr_v4 (h x hx))

theorem toHosts_v6_iff {xs : List Host} (h : ∀ x ∈ xs, IsV6 x.addr) :
    toHosts (xs.flatMap Host.bytes) = .ok xs ↔ xs = [] ∨ ¬ 13 ∣ xs.length := by
  have hlen : ∀ x ∈ xs, x.bytes.length = 38 := fun x hx => by
    rw [x.length_bytes, length_addrBytes_v6 (h x hx)]
  refine (toVec_long_iff (by decide) (by decide) hlen fun x hx =>
    toHost_bytes (Or.inr (hlen x hx)) (toSocketAddr_v6 (h x hx))).trans ?_
  -- 26 divides 38 n if and only if 13 divides n
  have hdvd : 26 ∣ 38 * xs.length ↔ 13 ∣ xs.length := by omega
  exact or_congr_right (not_congr hdvd)

/-- **Compact nodes.**  Lists of IPv4 hosts come back, of every length.  A list of IPv6 hosts
comes back if and only if it is empty or 13 does not divide its length. -/
theorem compactNodes_iff (xs : List Host) :
    ((∀ x ∈ xs, IsV4 x.addr) → toHosts (xs.flatMap Host.bytes) = .ok xs) ∧
      ((∀ x ∈ xs, IsV6 x.addr) →
        (toHosts (xs.flatMap Host.bytes) = .ok xs ↔ xs = [] ∨ ¬ 13 ∣ xs.length)) :=
  ⟨toHosts_v4, toHosts_v6_iff⟩

/-- A host with an IPv6 address. -/
def someHost : Host := ⟨NodeId.zero, .v6 1 6881 0 0⟩

theorem isV6_someHost : IsV6 someHost.addr := ⟨1, 6881, rfl, by norm_num, by norm_num⟩

/-- Two IPv6 hosts come back. -/
theorem compactNodes_two : toHosts ((List.replicate 2 someHost).flatMap Host.bytes) =
    .ok (List.replicate 2 someHost) := by
  refine ((compactNodes_iff (List.replicate 2 someHost)).2 fun x hx => ?_).mpr (Or.inr ?_)
  · rw [List.eq_of_mem_replicate hx]
    exact isV6_someHost
  · rw [List.length_replicate]
    decide

/-- Thirteen IPv6 hosts are taken for nineteen IPv4 hosts. -/
theorem compactNodes_thirteen : (∀ x ∈ List.replicate 13 someHost, IsV6 x.addr) ∧
    toHosts ((List.replicate 13 someHost).flatMap Host.bytes) ≠
      .ok (List.replicate 13 someHost) := by
  have hall : ∀ x ∈ List.replicate 13 someHost, IsV6 x.addr := fun x hx => by
    rw [List.eq_of_mem_replicate hx]
    exact isV6_someHost
  refine ⟨hall, fun h => ?_⟩
  rcases (toHosts_v6_iff hall).mp h with hnil | hdvd
  · cases hnil
  · exact hdvd (by rw [List.length_replicate])

/-! ## Tracker replies -/

/-- `Announce`. -/
structure Announce where
  interval : ℕ
  incomplete : ℕ
  complete : ℕ
  downloaded : Option ℕ
  peers : List SocketAddr
  minInterval : Option ℕ
  peers6 : List SocketAddr

/-- The fields collected while decoding an `Announce`. -/
structure AnnounceFields where
  interval : Option ℕ
  incomplete : Option ℕ
  complete : Option ℕ
  downloaded : Option ℕ
  peers : Option (List SocketAddr)
  minInterval : Option ℕ
  peers6 : Option (List SocketAddr)

/-- A byte string is decoded into a field; any other value is taken for an unknown field. -/
def peersField (s : AnnounceFields) (set : List SocketAddr → AnnounceFields) :
    Decode AnnounceFields
  | .bytes value, d => (toSocketAddrs value).map fun addrs => (set addrs, d)
  | value, d => unknownField s value d

/-- One entry of an `Announce` dictionary. -/
def announceEntry (s : AnnounceFields) (k : Bytes) : Decode AnnounceFields :=
  if k = key "interval" then field "interval" (decodeUnsigned 64) ({ s with interval := some · })
  else if k = key "incomplete" then
    field "incomplete" (decodeUnsigned 64) ({ s with incomplete := some · })
  else if k = key "complete" then
    field "complete" (decodeUnsigned 64) ({ s with complete := some · })
  else if k = key "downloaded" then
    field "downloaded" (decodeUnsigned 64) ({ s with downloaded := some · })
  else if k = key "peers" then peersField s ({ s with peers := some · })
  else if k = key "min interval" then
    field "min interval" (decodeUnsigned 64) ({ s with minInterval := some · })
  else if k = key "peers6" then peersField s ({ s with peers6 := some · })
  else unknownField s

/-- `impl FromBencode for Announce`. -/
def decodeAnnounce : Decode Announce := fun o d => do
  let (s, d') ← dictLoop announceEntry ⟨none, none, none, none, none, none, none⟩ o d
  let interval ← required "interval" s.interval
  let incomplete ← required "incomplete" s.incomplete
  let complete ← required "complete" s.complete
  return (⟨interval, incomplete, complete, s.downloaded, s.peers.getD [], s.minInterval,
    s.peers6.getD []⟩, d')

/-- `Announce::from_bencode`; the keys need not be ordered. -/
def Announce.fromBencode (data : Bytes) : Except Error Announce :=
  Bendy.fromBencode decodeAnnounce false expectedRecursionDepth data

/-- The last byte string under a key of a dictionary; all values are skipped. -/
def lastBytesEntry (name : Bytes) (last : Option Bytes) (k : Bytes) : Decode (Option Bytes)
  | .bytes value, d => unknownField (if k = name then some value else last) (.bytes value) d
  | value, d => unknownField last value d

/-- The last byte string under a key of the dictionary that the data starts with. -/
def lastBytes (name : String) (data : Bytes) : Option Bytes :=
  match Bendy.fromBencode (dictLoop (lastBytesEntry (key name)) none) false
    expectedRecursionDepth data with
  | .ok last => last
  | .error _ => none

/-! ### What a reply says under `peers6` -/

theorem unknownField_eq_ok {σ : Type} {s s' : σ} {o : Object} {d d' : Decoder}
    (h : unknownField s o d = .ok (s', d')) : s' = s := by
  obtain ⟨d₁, -, he⟩ := Checked.map_eq_ok.mp h
  exact (Prod.mk.inj he).1.symm

theorem peersField_whole (s : AnnounceFields) (set : List SocketAddr → AnnounceFields) :
    (peersField s set).Whole := by
  intro o d a d' h hd
  cases o with
  | bytes value =>
      obtain ⟨addrs, -, he⟩ := Checked.map_eq_ok.mp h
      obtain ⟨-, rfl⟩ := Prod.mk.inj he
      rfl
  | integer n => exact unknownField_whole s h hd
  | list start => exact unknownField_whole s h hd
  | dict start => exact unknownField_whole s h hd

theorem announceEntry_whole (s : AnnounceFields) (k : Bytes) : (announceEntry s k).Whole := by
  have hint : ∀ (name : String) (set : ℕ → AnnounceFields),
      (field name (decodeUnsigned 64) set).Whole :=
    fun name set => field_whole (decodeUnsigned_whole 64)
  unfold announceEntry
  exact .ite (hint _ _) <| .ite (hint _ _) <| .ite (hint _ _) <| .ite (hint _ _) <|
    .ite (peersField_whole s _) <| .ite (hint _ _) <| .ite (peersField_whole s _)
    (unknownField_whole s)

/-- The entry `peers6` is the value of the key `peers6`. -/
theorem announceEntry_peers6 (s : AnnounceFields) :
    announceEntry s (key "peers6") = peersField s ({ s with peers6 := some · }) := by
  have hne : ∀ name ∈ ["interval", "incomplete", "complete", "downloaded", "peers",
      "min interval"], key "peers6" ≠ key name := by decide +kernel
  simp only [List.forall_mem_cons] at hne
  obtain ⟨h₁, h₂, h₃, h₄, h₅, h₆, -⟩ := hne
  rw [announceEntry, if_neg h₁, if_neg h₂, if_neg h₃, if_neg h₄, if_neg h₅, if_neg h₆, if_pos rfl]

/-- Another entry keeps `peers6`. -/
theorem announceEntry_ne_peers6 (s : AnnounceFields) {k : Bytes} (hk : k ≠ key "peers6") :
    (announceEntry s k).Gives fun s' => s'.peers6 = s.peers6 := by
  have hint : ∀ {name : String} {set : ℕ → AnnounceFields}, (∀ n, (set n).peers6 = s.peers6) →
      (field name (decodeUnsigned 64) set).Gives fun s' => s'.peers6 = s.peers6 :=
    fun h => field_gives h
  have hpeers : (peersField s ({ s with peers := some · })).Gives
      fun s' => s'.peers6 = s.peers6 := by
    intro o d a d' h
    cases o with
    | bytes value =>
        obtain ⟨addrs, -, he⟩ := Checked.map_eq_ok.mp h
        obtain ⟨rfl, -⟩ := Prod.mk.inj he
        rfl
    | integer n => exact congrArg _ (unknownField_eq_ok h)
    | list start => exact congrArg _ (unknownField_eq_ok h)
    | dict start => exact congrArg _ (unknownField_eq_ok h)
  unfold announceEntry
  refine .ite (fun _ => hint fun _ => rfl) fun _ => .ite (fun _ => hint fun _ => rfl) fun _ =>
    .ite (fun _ => hint fun _ => rfl) fun _ => .ite (fun _ => hint fun _ => rfl) fun _ =>
    .ite (fun _ => hpeers) fun _ => .ite (fun _ => hint fun _ => rfl) fun _ =>
    .ite (fun h => absurd h hk) fun _ => ?_
  exact unknownField_gives rfl

/-- The field `peers6` is what the last byte string is converted to. -/
def Agree (s : AnnounceFields) (last : Option Bytes) : Prop :=
  ∀ value, last = some value → ∃ addrs, s.peers6 = some addrs ∧ toSocketAddrs value = .ok addrs

/-- One entry keeps the agreement. -/
theorem Agree.entry {s s' : AnnounceFields} {last : Option Bytes} {k : Bytes} {o : Object}
    {d d' : Decoder} (h : Agree s last) (hd : d.offset ≤ d.source.length)
    (hentry : announceEntry s k o d = .ok (s', d')) :
    ∃ last', lastBytesEntry (key "peers6") last k o d = .ok (last', d') ∧ Agree s' last' := by
  have hskip : dropObject o d = .ok d' := announceEntry_whole s k hentry hd
  have hunknown : ∀ last : Option Bytes, unknownField last o d = .ok (last, d') := fun last => by
    rw [unknownField, hskip]
    rfl
  by_cases hk : k = key "peers6"
  · subst hk
    rw [announceEntry_peers6] at hentry
    cases o with
    | bytes value =>
        obtain ⟨addrs, haddrs, he⟩ := Checked.map_eq_ok.mp hentry
        obtain ⟨rfl, -⟩ := Prod.mk.inj he
        refine ⟨some value, (hunknown _).trans (by rw [if_pos rfl]), fun value' hvalue => ?_⟩
        obtain rfl := Option.some.inj hvalue
        exact ⟨addrs, rfl, haddrs⟩
    | integer n =>
        obtain rfl := unknownField_eq_ok hentry
        exact ⟨last, hunknown last, h⟩
    | list start =>
        obtain rfl := unknownField_eq_ok hentry
        exact ⟨last, hunknown last, h⟩
    | dict start =>
        obtain rfl := unknownField_eq_ok hentry
        exact ⟨last, hunknown last, h⟩
  · refine ⟨last, ?_, ?_⟩
    · cases o with
      | bytes value => exact (hunknown _).trans (by rw [if_neg hk])
      | integer n => exact hunknown last
      | list start => exact hunknown last
      | dict start => exact hunknown last
    · intro value hvalue
      rw [announceEntry_ne_peers6 s hk hentry]
      exact h value hvalue

/-- **The addresses of a reply** are what the byte string under `peers6` is converted to. -/
theorem toSocketAddrs_of_lastBytes {data value : Bytes} {reply : Announce}
    (h : Announce.fromBencode data = .ok reply) (hvalue : lastBytes "peers6" data = some value) :
    toSocketAddrs value = .ok reply.peers6 := by
  unfold Announce.fromBencode Bendy.fromBencode at h
  unfold lastBytes Bendy.fromBencode at hvalue
  split at h
  · cases h
  · cases h
  · next o d hobj =>
      obtain ⟨⟨reply', d'⟩, hdec, rfl⟩ := Checked.map_eq_ok.mp h
      obtain ⟨⟨s, d₁⟩, hloop, hdec⟩ := Checked.bind_eq_ok.mp hdec
      obtain ⟨interval, -, hdec⟩ := Checked.bind_eq_ok.mp hdec
      obtain ⟨incomplete, -, hdec⟩ := Checked.bind_eq_ok.mp hdec
      obtain ⟨complete, -, hdec⟩ := Checked.bind_eq_ok.mp hdec
      obtain ⟨rfl, rfl⟩ := Prod.mk.inj (Except.ok.inj hdec)
      have hagree : ∃ last, dictLoop (lastBytesEntry (key "peers6")) none o d = .ok (last, d₁) ∧
          Agree s last := by
        cases o with
        | dict start =>
            exact dictLoopN_follows (fun h hd hentry => h.entry hd hentry)
              (fun value hnone => by cases hnone) hloop
        | list start => cases hloop
        | integer n => cases hloop
        | bytes b => cases hloop
      obtain ⟨last, hlast, hagree⟩ := hagree
      simp only [hobj, hlast, Except.map] at hvalue
      obtain ⟨addrs, hpeers6, haddrs⟩ := hagree value hvalue
      rw [haddrs, hpeers6]
      rfl

/-- **Compact peers.**  Lists of IPv4 addresses come back, of every length.  Of an accepted reply
that has the IPv6 addresses `xs` under `peers6`, the addresses are `xs` if and only if there are
none. -/
theorem compactPeers_iff (xs : List SocketAddr) :
    ((∀ a ∈ xs, IsV4 a) → toSocketAddrs (xs.flatMap addrBytes) = .ok xs) ∧
      ∀ (data : Bytes) (reply : Announce), (∀ a ∈ xs, IsV6 a) →
        Announce.fromBencode data = .ok reply →
        lastBytes "peers6" data = some (xs.flatMap addrBytes) → (reply.peers6 = xs ↔ xs = []) := by
  refine ⟨toSocketAddrs_v4, fun data reply hxs hreply hvalue => ?_⟩
  rw [← toSocketAddrs_v6_iff hxs, toSocketAddrs_of_lastBytes hreply hvalue]
  exact ⟨fun h => congrArg _ h, Except.ok.inj⟩

/-- The address `[::1]:6881`. -/
def someAddr : SocketAddr := .v6 1 6881 0 0

/-- A reply with some bytes under `peers6`. -/
def replyWith (size : String) (value : Bytes) : Bytes :=
  key "d8:completei1e10:incompletei1e8:intervali1e6:peers6" ++ key size ++ value ++ key "e"

theorem exists_ok_of_isSome {ε α : Type} {x : Except ε α} (h : x.toOption.isSome = true) :
    ∃ a, x = .ok a := by
  cases x with
  | ok a => exact ⟨a, rfl⟩
  | error e => cases h

/-- Two IPv4 addresses, a reply without IPv6 addresses, and one with an address that does not come
back. -/
theorem compactPeers_replies :
    toSocketAddrs ([SocketAddr.v4 2130706433 6881, .v4 16777343 80].flatMap addrBytes) =
        .ok [.v4 2130706433 6881, .v4 16777343 80] ∧
      (∃ reply, Announce.fromBencode (replyWith "0:" []) = .ok reply ∧ reply.peers6 = []) ∧
      ∃ reply, Announce.fromBencode (replyWith "18:" (addrBytes someAddr)) = .ok reply ∧
        reply.peers6 ≠ [someAddr] := by
  have hv4 : ∀ a ∈ [SocketAddr.v4 2130706433 6881, .v4 16777343 80], IsV4 a := by
    rw [List.forall_mem_cons, List.forall_mem_singleton]
    exact ⟨⟨_, _, rfl, by norm_num, by norm_num⟩, ⟨_, _, rfl, by norm_num, by norm_num⟩⟩
  have hv6 : ∀ a ∈ [someAddr], IsV6 a := by
    rw [List.forall_mem_singleton]
    exact ⟨1, 6881, rfl, by norm_num, by norm_num⟩
  obtain ⟨none, hnone⟩ :=
    exists_ok_of_isSome (x := Announce.fromBencode (replyWith "0:" [])) (by decide +kernel)
  obtain ⟨one, hone⟩ := exists_ok_of_isSome
    (x := Announce.fromBencode (replyWith "18:" (addrBytes someAddr))) (by decide +kernel)
  refine ⟨(compactPeers_iff _).1 hv4, ⟨none, hnone, ?_⟩, one, hone, fun hsame => ?_⟩
  · exact ((compactPeers_iff []).2 _ none (List.forall_mem_nil _) hnone (by decide +kernel)).mpr rfl
  · have hempty := ((compactPeers_iff [someAddr]).2 _ one hv6 hone (by decide +kernel)).mp hsame
    cases hempty

/-- One IPv6 address is taken for three IPv4 addresses. -/
theorem compactPeers_one : IsV6 someAddr ∧
    lastBytes "peers6" (replyWith "18:" (addrBytes someAddr)) =
      some ([someAddr].flatMap addrBytes) ∧
    (Announce.fromBencode (replyWith "18:" (addrBytes someAddr))).toOption.map Announce.peers6 =
      some [.v4 0 0, .v4 0 0, .v4 1 6881] := by
  refine ⟨⟨1, 6881, rfl, by norm_num, by norm_num⟩, by decide +kernel, by decide +kernel⟩

end CompactLists
