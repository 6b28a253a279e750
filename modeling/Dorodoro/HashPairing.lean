/-
# The info hash and the info of a torrent

A torrent is decoded in one pass over its entries, in any order and with repeated keys.  The hash
and the `Info` of a torrent still belong together: `info_hash_paired` says that the hash is taken
from one dictionary in the input, and that the `Info` is what this dictionary decodes to.

The steps are the decoders of the entries, which read whole values
(`torrentEntry_whole`), the entry `info`, which sets both fields (`infoValue_eq_ok`), and the
invariant `TorrentFields.Paired` of the loop.
-/
import Dorodoro.SoundDecoders

open Bendy

/-! ## The entry `info` -/

section Sha1

variable {sha1 : Bytes → Bytes} {s s' : TorrentFields} {o : Object} {d d' : Decoder}

/-- **The entry `info`** sets the info and its hash from the same bytes, or none of the two. -/
theorem infoValue_eq_ok (h : infoValue sha1 s o d = .ok (s', d')) :
    (∃ start info, o = .dict start ∧ dropObject (.dict start) d = .ok d' ∧
      Info.fromBencode ((d'.source.take d'.offset).drop start) = .ok info ∧
      s'.info = some info ∧
      s'.infoHash = some (sha1 ((d'.source.take d'.offset).drop start))) ∨
    (dropObject o d = .ok d' ∧ s' = s) := by
  have hunknown : unknownField s o d = .ok (s', d') → dropObject o d = .ok d' ∧ s' = s := by
    intro hf
    obtain ⟨d₁, hdrop, he⟩ := Checked.map_eq_ok.mp hf
    obtain ⟨rfl, rfl⟩ := Prod.mk.inj he
    exact ⟨hdrop, rfl⟩
  cases o with
  | dict start =>
      obtain ⟨d₁, hdrop, h⟩ := Checked.bind_eq_ok.mp h
      obtain ⟨info, hinfo, h⟩ := Checked.bind_eq_ok.mp h
      obtain ⟨rfl, rfl⟩ := Prod.mk.inj (Except.ok.inj h)
      exact Or.inl ⟨start, info, rfl, hdrop, context_eq_ok hinfo, rfl, rfl⟩
  | list start => exact Or.inr (hunknown h)
  | integer n => exact Or.inr (hunknown h)
  | bytes b => exact Or.inr (hunknown h)

theorem infoValue_whole : (infoValue sha1 s).Whole := by
  intro o d a d' h _
  rcases infoValue_eq_ok h with ⟨start, info, rfl, hdrop, -⟩ | ⟨hdrop, -⟩
  · exact hdrop
  · exact hdrop

/-- An entry that is not `info` keeps the info and its hash. -/
theorem torrentEntry_eq_ok {k : Bytes} (h : torrentEntry sha1 s k o d = .ok (s', d')) :
    infoValue sha1 s o d = .ok (s', d') ∨ (s'.info = s.info ∧ s'.infoHash = s.infoHash) := by
  have hfield : ∀ {T : Type} {name : String} {decode : Decode T} {set : T → TorrentFields},
      (∀ a, (set a).info = s.info ∧ (set a).infoHash = s.infoHash) →
        (field name decode set).Gives fun s' => s'.info = s.info ∧ s'.infoHash = s.infoHash :=
    fun hset => field_gives hset
  have hunknown : (unknownField s).Gives fun s' =>
      s'.info = s.info ∧ s'.infoHash = s.infoHash := unknownField_gives ⟨rfl, rfl⟩
  unfold torrentEntry at h
  split_ifs at h
  · exact Or.inr (hfield (by intro a; exact ⟨rfl, rfl⟩) h)
  · exact Or.inr (hfield (by intro a; exact ⟨rfl, rfl⟩) h)
  · exact Or.inr (hfield (by intro a; exact ⟨rfl, rfl⟩) h)
  · exact Or.inr (hfield (by intro a; exact ⟨rfl, rfl⟩) h)
  · exact Or.inl h
  · exact Or.inr (hfield (by intro a; exact ⟨rfl, rfl⟩) h)
  · exact Or.inr (hfield (by intro a; exact ⟨rfl, rfl⟩) h)
  · exact Or.inr (hunknown h)

theorem torrentEntry_whole (s : TorrentFields) (k : Bytes) : (torrentEntry sha1 s k).Whole := by
  intro o d a d' h hd
  unfold torrentEntry at h
  split_ifs at h
  · exact field_whole decodeString_whole h hd
  · exact field_whole (decodeVec_whole (decodeVec_whole decodeString_whole)) h hd
  · exact field_whole decodeString_whole h hd
  · exact field_whole (decodeUnsigned_whole 64) h hd
  · exact infoValue_whole h hd
  · exact field_whole decodeString_whole h hd
  · exact field_whole decodeString_whole h hd
  · exact unknownField_whole s h hd

/-! ## The pairing -/

/-- `info` and `hash` come from one dictionary, which is a part of the input. -/
def HashOf (sha1 : Bytes → Bytes) (bytes : Bytes) (info : Info) (hash : Bytes) : Prop :=
  ∃ pre slice post, bytes = pre ++ slice ++ post ∧ Dictionary slice ∧ hash = sha1 slice ∧
    Info.fromBencode slice = .ok info

/-- What the loop has collected is paired. -/
def TorrentFields.Paired (sha1 : Bytes → Bytes) (bytes : Bytes) (s : TorrentFields) : Prop :=
  ∀ info, s.info = some info → ∃ hash, s.infoHash = some hash ∧ HashOf sha1 bytes info hash

/-- One entry keeps the pairing: the value of `info` is read where its bytes are cut out. -/
theorem TorrentFields.Paired.entry {bytes k raw : Bytes} {stack : List State} {d₀ : Decoder}
    (hs : s.Paired sha1 bytes) (hsource : d₀.source = bytes) (hread : d₀.Consumes raw d)
    (hopened : o.Opened raw stack d) (h : torrentEntry sha1 s k o d = .ok (s', d')) :
    s'.Paired sha1 bytes := by
  have hkeep : s'.info = s.info ∧ s'.infoHash = s.infoHash → s'.Paired sha1 bytes := by
    rintro ⟨hinfo, hhash⟩
    rw [TorrentFields.Paired, hinfo, hhash]
    exact hs
  rcases torrentEntry_eq_ok h with hvalue | heq
  · rcases infoValue_eq_ok hvalue with ⟨start, info, rfl, hdrop, hinfo, hset, hhash⟩ | ⟨-, rfl⟩
    · obtain ⟨rfl, slice, hdict, hslice⟩ := dictionary_of_dropObject hread hopened hdrop
      rw [hslice.slice] at hinfo hhash
      intro info' hinfo'
      obtain rfl : info = info' := Option.some.inj (hset.symm.trans hinfo')
      refine ⟨_, hhash, d₀.source.take d₀.offset, slice, d₀.source.drop d'.offset, ?_, hdict, rfl,
        hinfo⟩
      rw [← hsource]
      exact hslice.source_eq
    · exact hs
  · exact hkeep heq

/-- The info and the hash of an accepted torrent. -/
theorem hashOf_of_fromBencode {bytes : Bytes} {t : Torrent}
    (h : Torrent.fromBencode sha1 bytes = .ok t) : HashOf sha1 bytes t.info t.infoHash := by
  unfold Torrent.fromBencode Bendy.fromBencode at h
  split at h
  · cases h
  · cases h
  · next o d hobj =>
      obtain ⟨⟨t', d'⟩, hdec, rfl⟩ := Checked.map_eq_ok.mp h
      unfold decodeTorrent at hdec
      obtain ⟨⟨s, d₁⟩, hloop, hdec⟩ := Checked.bind_eq_ok.mp hdec
      obtain ⟨announce, -, hdec⟩ := Checked.bind_eq_ok.mp hdec
      obtain ⟨announceList, -, hdec⟩ := Checked.bind_eq_ok.mp hdec
      obtain ⟨creationDate, -, hdec⟩ := Checked.bind_eq_ok.mp hdec
      obtain ⟨info, hinfo, hdec⟩ := Checked.bind_eq_ok.mp hdec
      obtain ⟨infoHash, hhash, hdec⟩ := Checked.bind_eq_ok.mp hdec
      obtain ⟨rfl, -⟩ := Prod.mk.inj (Except.ok.inj hdec)
      have hpaired : s.Paired sha1 bytes := by
        cases o with
        | dict start =>
            exact dictLoopN_opened (fun s k => (torrentEntry_whole s k).forward)
              (fun hs hsource hread hopened h => hs.entry hsource hread hopened h)
              (fun info hinfo => by cases hinfo) (Decoder.nextObject_reads hobj).source hloop
        | list start => cases hloop
        | integer n => cases hloop
        | bytes b => cases hloop
      cases hs : s.info with
      | none =>
          rw [hs] at hinfo
          cases hinfo
      | some info' =>
          obtain ⟨hash, hset, hof⟩ := hpaired info' hs
          rw [hs] at hinfo
          rw [hset] at hhash
          obtain rfl := Except.ok.inj hinfo
          obtain rfl := Except.ok.inj hhash
          exact hof

/-- **Hash pairing.**  The info hash of an accepted torrent is the hash of a part of the input
that is exactly one dictionary, and its info is what this part decodes to. -/
theorem info_hash_paired {bytes : Bytes} {t : Torrent}
    (h : Torrent.fromBencode sha1 bytes = .ok t) :
    ∃ pre slice post, bytes = pre ++ slice ++ post ∧ Dictionary slice ∧
      t.infoHash = sha1 slice ∧ Info.fromBencode slice = .ok t.info :=
  hashOf_of_fromBencode h

end Sha1

/-- A torrent with two entries `info`, of which the first is not a dictionary. -/
def pairedTorrent : Bytes :=
  key "d4:infoi0e8:announce1:a13:announce-listle13:creation datei1e4:info" ++
    key "d6:lengthi1e4:name1:f12:piece lengthi1e6:pieces20:aaaaaaaaaaaaaaaaaaaae" ++ key "e"

/-- The SHA-1 digest of its info dictionary. -/
def pairedDigest : Bytes :=
  [176, 127, 140, 43, 87, 221, 137, 26, 33, 0, 162, 183, 158, 198, 61, 30, 83, 238, 5, 101]

theorem info_hash_paired_of_pairedTorrent : ∃ t,
    Torrent.fromBencode (fun _ => pairedDigest) pairedTorrent = .ok t ∧
      ∃ pre slice post, pairedTorrent = pre ++ slice ++ post ∧ Dictionary slice ∧
        t.infoHash = pairedDigest ∧ Info.fromBencode slice = .ok t.info := by
  obtain ⟨t, ht⟩ : ∃ t, Torrent.fromBencode (fun _ => pairedDigest) pairedTorrent = .ok t :=
    ⟨⟨"a", [], none, 1, ⟨1, 1, List.replicate 20 97, "f", [], none, none, []⟩, pairedDigest, none,
      none⟩, by decide +kernel⟩
  exact ⟨t, ht, info_hash_paired ht⟩
