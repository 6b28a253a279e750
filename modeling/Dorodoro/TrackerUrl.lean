/-
# Tracker URLs (`bt/tracker.rs`)

`parse_tracker_host` tells HTTP from UDP trackers by the beginning of the URL.  From a UDP URL it
strips `udp://`, looks for `/announce` in the rest, and cuts the rest as if `udp://` were still in
front of it.

* `parseTrackerHost` and `instanceTracker` follow the source; a result `none` is a panic;
* `Meets` says what is wanted of a URL, `Harmless` for which URLs it is so, and
  `parseTrackerHost_iff` that these are the same.
-/
import Dorodoro.Bytes
import Dorodoro.ByteString
import Dorodoro.TrackerSchedule

namespace TrackerUrl

open ByteString

/-! ## Parsing -/

/-- `HttpTracker`. -/
structure HttpTracker where
  announce : List Char
  infoHash : Bytes
  peerId : Bytes
  nextRequestTime : ℕ
  deriving DecidableEq

/-- `HttpTracker::new`. -/
def HttpTracker.new (announce : List Char) (infoHash peerId : Bytes) : HttpTracker :=
  ⟨announce, infoHash, peerId, 0⟩

/-- `UdpTracker`. -/
structure UdpTracker where
  announce : List Char
  infoHash : Bytes
  peerId : Bytes
  /-- The connection, the retries and the time of the next request. -/
  schedule : TrackerSchedule.UdpTracker
  deriving DecidableEq

/-- `UdpTracker::new`. -/
def UdpTracker.new (announce : List Char) (infoHash peerId : Bytes) : UdpTracker :=
  ⟨announce, infoHash, peerId, .new⟩

/-- `TrackerInstance`. -/
inductive TrackerInstance where
  | http (tracker : HttpTracker)
  | udp (tracker : UdpTracker)
  deriving DecidableEq

/-- `"udp://"`. -/
def udpScheme : List Char := "udp://".toList

/-- `"/announce"`. -/
def announcePath : List Char := "/announce".toList

/-- `parse_tracker_host`. -/
def parseTrackerHost (announce : List Char) (infoHash peerId : Bytes) :
    Option (Option TrackerInstance) :=
  if "http".toList <+: announce then some (some (.http (.new announce infoHash peerId)))
  else
    match stripPrefix announce udpScheme with
    | some announce =>
        match find announcePath announce with
        | some stop =>
            (slice announce 6 (stop + 6)).map fun announce =>
              some (.udp (.new announce infoHash peerId))
        | none => some (some (.udp (.new announce infoHash peerId)))
    | none => some none

/-- The loop of `instance_tracker`: the URLs that were visited, and the trackers. -/
def instanceLoop (infoHash peerId : Bytes) : List (List Char) → List (List Char) →
    List TrackerInstance → Option (List TrackerInstance)
  | [], _, ret => some ret
  | announce :: rest, visited, ret =>
      if announce ∈ visited then instanceLoop infoHash peerId rest visited ret
      else do
        let tracker ← parseTrackerHost announce infoHash peerId
        instanceLoop infoHash peerId rest (announce :: visited) (ret ++ tracker.toList)

/-- `instance_tracker`; every tracker begins with the event `Started`. -/
def instanceTracker (peerId : Bytes) (trackers : List (List (List Char))) (infoHash : Bytes) :
    Option (List TrackerInstance) :=
  instanceLoop infoHash peerId trackers.flatten [] []

variable (infoHash peerId : Bytes)

/-! ## What is wanted -/

/-- A host with its port. -/
def HostPort (h : List Char) : Prop := h ≠ [] ∧ '/' ∉ h

/-- The URL is that of the UDP tracker at an address. -/
def Yields (url h : List Char) : Prop :=
  parseTrackerHost url infoHash peerId = some (some (.udp (.new h infoHash peerId)))

/-- **What is wanted of a URL**: no panic, and the right address when it is a UDP URL, with
`/announce` behind the address or with nothing. -/
structure Meets (url : List Char) : Prop where
  returns : parseTrackerHost url infoHash peerId ≠ none
  withPath : ∀ h s, HostPort h → url = udpScheme ++ (h ++ announcePath ++ s) →
    Yields infoHash peerId url h
  withoutPath : ∀ h, HostPort h → url = udpScheme ++ h → Yields infoHash peerId url h

/-- **The condition**, on what is behind `udp://`: it does not contain `/announce`, or its byte 6
is the beginning of a character, and what is in front of the first `/announce` is no address, or
one of `u`, `ou`, `nou`, `nnou` and `annou`. -/
def Harmless (url : List Char) : Prop :=
  ∀ rest stop, url = udpScheme ++ rest → find announcePath rest = some stop →
    (splitAtByte rest 6).isSome ∧
      ∀ h s, HostPort h → rest = h ++ announcePath ++ s → h <:+ "annou".toList

/-! ## The branches -/

theorem stripPrefix_udp (rest : List Char) : stripPrefix (udpScheme ++ rest) udpScheme = some rest := by
  rw [stripPrefix, if_pos (List.prefix_append udpScheme rest), List.drop_left]

theorem not_http (rest : List Char) : ¬ "http".toList <+: udpScheme ++ rest := by
  rintro ⟨t, ht⟩
  cases ht

/-- A UDP URL. -/
theorem parseTrackerHost_udp (rest : List Char) :
    parseTrackerHost (udpScheme ++ rest) infoHash peerId =
      match find announcePath rest with
      | some stop => (slice rest 6 (stop + 6)).map fun h => some (.udp (.new h infoHash peerId))
      | none => some (some (.udp (.new rest infoHash peerId))) := by
  rw [parseTrackerHost, if_neg (not_http rest), stripPrefix_udp]

/-- Any other URL does not panic. -/
theorem parseTrackerHost_ne_none {url : List Char} (h : ∀ rest, url ≠ udpScheme ++ rest) :
    parseTrackerHost url infoHash peerId ≠ none := by
  unfold parseTrackerHost
  split
  · simp
  · have hstrip : stripPrefix url udpScheme = none := by
      refine if_neg ?_
      rintro ⟨rest, hrest⟩
      exact h rest hrest.symm
    rw [hstrip]
    simp

/-- An address without a path. -/
theorem yields_of_notMem {h : List Char} (hh : '/' ∉ h) :
    Yields infoHash peerId (udpScheme ++ h) h := by
  have hnone : find announcePath h = none := find_eq_none hh
  rw [Yields, parseTrackerHost_udp, hnone]

/-- With a path the address is cut out six bytes too far to the right. -/
theorem yields_iff {h s : List Char} (hh : '/' ∉ h) :
    Yields infoHash peerId (udpScheme ++ (h ++ announcePath ++ s)) h ↔
      ∃ a b, h ++ announcePath ++ s = a ++ h ++ b ∧ byteLen a = 6 := by
  have hfind : find announcePath (h ++ announcePath ++ s) = some (byteLen h) := find_append hh s
  rw [Yields, parseTrackerHost_udp, hfind]
  constructor
  · intro hmap
    obtain ⟨part, hslice, he⟩ := Option.map_eq_some_iff.mp hmap
    obtain rfl : part = h := by simpa [UdpTracker.new] using he
    obtain ⟨a, b, hab, ha, -⟩ := (slice_eq_some_iff (Nat.le_add_left 6 _)).mp hslice
    exact ⟨a, b, hab, ha⟩
  · rintro ⟨a, b, hab, ha⟩
    have hslice : slice (h ++ announcePath ++ s) 6 (byteLen h + 6) = some h :=
      (slice_eq_some_iff (Nat.le_add_left 6 _)).mpr
        ⟨a, b, hab, ha, by rw [byteLen_append]; omega⟩
    show Option.map _ (slice (h ++ announcePath ++ s) 6 (byteLen h + 6)) = _
    rw [hslice]
    rfl

/-- The path begins with six bytes that have a slash in front. -/
theorem announcePath_eq : announcePath = '/' :: "annou".toList ++ "nce".toList := by decide

theorem byteLen_annou : byteLen ('/' :: "annou".toList) = 6 := by decide

/-- **Which addresses come out right.** -/
theorem shifted_iff {h s : List Char} (hh : HostPort h) :
    (∃ a b, h ++ announcePath ++ s = a ++ h ++ b ∧ byteLen a = 6) ↔ h <:+ "annou".toList := by
  obtain ⟨hne, hslash⟩ := hh
  constructor
  · rintro ⟨a, b, hab, ha⟩
    rw [List.append_assoc, List.append_assoc] at hab
    rcases Nat.le_total (byteLen a) (byteLen h) with hle | hle
    · -- the six bytes are a part of the address, and the slash behind it falls into the address
      exfalso
      obtain ⟨m, rfl⟩ := exists_append_of_byteLen_le hab.symm hle
      rw [List.append_assoc, List.append_cancel_left_eq] at hab
      obtain ⟨k, hk⟩ := exists_append_of_byteLen_le hab
        (by rw [byteLen_append]; omega)
      rw [hk, List.append_assoc, List.append_cancel_left_eq, announcePath_eq] at hab
      cases k with
      | nil =>
          have hlen := congrArg byteLen hk
          rw [List.append_nil, byteLen_append] at hlen
          omega
      | cons c k =>
          obtain rfl : '/' = c := (List.cons.inj hab).1
          exact hslash (hk ▸ by simp)
    · -- the address and the six bytes end with the slash and what is behind it
      obtain ⟨m, rfl⟩ := exists_append_of_byteLen_le hab hle
      rw [List.append_assoc, List.append_cancel_left_eq, announcePath_eq, List.append_assoc,
        ← List.append_assoc m] at hab
      have hsix : '/' :: "annou".toList = m ++ h := by
        refine eq_of_append_eq hab ?_
        rw [byteLen_annou, ← ha, byteLen_append, byteLen_append, Nat.add_comm]
      cases m with
      | nil =>
          have hmem : '/' ∈ [] ++ h := by
            rw [← hsix]
            exact List.mem_cons_self
          exact absurd hmem hslash
      | cons c m => exact ⟨m, (List.cons.inj hsix).2.symm⟩
  · rintro ⟨m, hm⟩
    have hsix : byteLen ('/' :: (m ++ h)) = 6 := by rw [hm, byteLen_annou]
    refine ⟨h ++ '/' :: m, "nce".toList ++ s, ?_, ?_⟩
    · rw [announcePath_eq, ← hm]
      simp only [List.cons_append, List.append_assoc]
    · rw [byteLen_cons, byteLen_append] at hsix
      rw [byteLen_append, byteLen_cons]
      omega

/-- The end of the cut is never inside a character. -/
theorem exists_slice {rest : List Char} {stop : ℕ} (hfind : find announcePath rest = some stop)
    (hcut : (splitAtByte rest 6).isSome) : ∃ part, slice rest 6 (stop + 6) = some part := by
  obtain ⟨⟨a, r⟩, hsplit⟩ := Option.isSome_iff_exists.mp hcut
  obtain ⟨hrest, ha⟩ := eq_append_of_splitAtByte hsplit
  obtain ⟨p, q, hpq, hp⟩ := eq_append_of_find hfind
  have hends : a ++ r = (p ++ '/' :: "annou".toList) ++ ("nce".toList ++ q) := by
    rw [← hrest, hpq, announcePath_eq]
    simp only [List.cons_append, List.append_assoc]
  have hlen : byteLen (p ++ '/' :: "annou".toList) = stop + 6 := by
    rw [byteLen_append, byteLen_annou, hp]
  obtain ⟨part, hpart⟩ := exists_append_of_byteLen_le hends (by omega)
  refine ⟨part, (slice_eq_some_iff (Nat.le_add_left 6 stop)).mpr ⟨a, "nce".toList ++ q, ?_, ha, ?_⟩⟩
  · rw [hrest, hends, hpart]
  · rw [← hpart, hlen]

/-- When a URL does not panic. -/
theorem parseTrackerHost_udp_ne_none_iff (rest : List Char) :
    parseTrackerHost (udpScheme ++ rest) infoHash peerId ≠ none ↔
      ∀ stop, find announcePath rest = some stop → (splitAtByte rest 6).isSome := by
  rw [parseTrackerHost_udp]
  cases hfind : find announcePath rest with
  | none => simp
  | some stop =>
      show Option.map _ (slice rest 6 (stop + 6)) ≠ none ↔ _
      rw [ne_eq, Option.map_eq_none_iff, ← ne_eq, ← Option.isSome_iff_ne_none]
      constructor
      · intro hslice stop' _
        obtain ⟨part, hpart⟩ := Option.isSome_iff_exists.mp hslice
        obtain ⟨cut, hcut, -⟩ := Option.bind_eq_some_iff.mp hpart
        rw [hcut]
        rfl
      · intro hcut
        obtain ⟨part, hpart⟩ := exists_slice hfind (hcut stop rfl)
        rw [hpart]
        rfl

variable {infoHash peerId}

theorem Meets.harmless {url : List Char} (hmeets : Meets infoHash peerId url) : Harmless url := by
  rintro rest stop rfl hfind
  refine ⟨?_, fun h s hh hrest => ?_⟩
  · exact (parseTrackerHost_udp_ne_none_iff infoHash peerId rest).mp hmeets.returns stop hfind
  · subst hrest
    exact (shifted_iff hh).mp ((yields_iff infoHash peerId hh.2).mp (hmeets.withPath h s hh rfl))

theorem Harmless.meets {url : List Char} (hharmless : Harmless url) :
    Meets infoHash peerId url where
  returns := by
    by_cases hudp : ∃ rest, url = udpScheme ++ rest
    · obtain ⟨rest, rfl⟩ := hudp
      rw [parseTrackerHost_udp_ne_none_iff]
      exact fun stop hfind => (hharmless rest stop rfl hfind).1
    · exact parseTrackerHost_ne_none infoHash peerId fun rest hrest => hudp ⟨rest, hrest⟩
  withPath := by
    rintro h s hh rfl
    have hfind : find announcePath (h ++ announcePath ++ s) = some (byteLen h) := find_append hh.2 s
    have hsuffix := (hharmless _ _ rfl hfind).2 h s hh rfl
    exact (yields_iff infoHash peerId hh.2).mpr ((shifted_iff hh).mpr hsuffix)
  withoutPath := by
    rintro h hh rfl
    exact yields_of_notMem infoHash peerId hh.2

variable (infoHash peerId)

/-- **UDP tracker URLs.**  What is wanted of a URL is so if and only if it is harmless. -/
theorem parseTrackerHost_iff (url : List Char) : Meets infoHash peerId url ↔ Harmless url :=
  ⟨Meets.harmless, Harmless.meets⟩

/-- An address comes out as six bytes later, and a URL with `é` at the cut panics. -/
theorem parseTrackerHost_shifted :
    HostPort "tracker.example:80".toList ∧
      parseTrackerHost "udp://tracker.example:80/announce".toList [] [] =
        some (some (.udp (.new "r.example:80/annou".toList [] []))) ∧
      parseTrackerHost "udp://aaaaaé:80/announce".toList [] [] = none :=
  ⟨⟨by decide, by decide⟩, by decide, by decide⟩

/-- The list of trackers is parsed when none of its URLs panics. -/
theorem instanceLoop_isSome {urls : List (List Char)} :
    ∀ visited ret, (∀ url ∈ urls, parseTrackerHost url infoHash peerId ≠ none) →
      (instanceLoop infoHash peerId urls visited ret).isSome := by
  induction urls with
  | nil => intro visited ret _; rfl
  | cons url urls ih =>
      intro visited ret hall
      have hrest := fun url' hmem => hall url' (List.mem_cons_of_mem _ hmem)
      rw [instanceLoop]
      split
      · exact ih visited ret hrest
      · obtain ⟨tracker, htracker⟩ := Option.ne_none_iff_exists'.mp (hall url List.mem_cons_self)
        rw [htracker]
        exact ih _ _ hrest

/-- Harmless URLs do not stop the announcing. -/
theorem instanceTracker_isSome {trackers : List (List (List Char))}
    (h : ∀ url ∈ trackers.flatten, Harmless url) :
    (instanceTracker peerId trackers infoHash).isSome :=
  instanceLoop_isSome infoHash peerId [] [] fun url hmem =>
    (h url hmem).meets.returns

end TrackerUrl
