/-
# The header of a `ut_metadata` message

A message is a dictionary and, behind it, a piece of the metadata.  `handle_ut_metadata`
(`bt/default_servant.rs`) decodes the dictionary with `Metadata::from_bencode_first`, which checks
the order of the keys; `Metadata::from_bencode` does not.

* `handleUtMetadata_append`: the data handler is given the bytes behind an ordered header;
* `headerSplit_iff`: the two agree on a message if and only if all keys of its header
  ascend, at every depth.
-/
import Dorodoro.BencodeOrder
import Dorodoro.MagnetMetadata

open Bendy

namespace MagnetMetadata

/-- `Metadata::from_bencode`; the keys need not be ordered. -/
def Metadata.fromBencode (payload : Bytes) : Except Error Metadata :=
  Bendy.fromBencode decodeMetadata false expectedRecursionDepth payload

/-! ## The decoder -/

/-- The message type is a number, and what the number means does not depend on the decoder. -/
theorem decodeMetadataType_eq_ok {o : Object} {d d' : Decoder} {a : MetadataType}
    (h : decodeMetadataType o d = .ok (a, d')) :
    ∃ n, decodeUnsigned 8 o d = .ok (n, d') ∧
      ∀ d₁ d₂, decodeUnsigned 8 o d₁ = .ok (n, d₂) → decodeMetadataType o d₁ = .ok (a, d₂) := by
  unfold decodeMetadataType at h
  split at h
  · cases h
  · next d₀ hn =>
      obtain ⟨rfl, rfl⟩ := Prod.mk.inj (Except.ok.inj h)
      exact ⟨0, hn, fun d₁ d₂ hd => by simp only [decodeMetadataType, hd]⟩
  · next d₀ hn =>
      obtain ⟨rfl, rfl⟩ := Prod.mk.inj (Except.ok.inj h)
      exact ⟨1, hn, fun d₁ d₂ hd => by simp only [decodeMetadataType, hd]⟩
  · next d₀ hn =>
      obtain ⟨rfl, rfl⟩ := Prod.mk.inj (Except.ok.inj h)
      exact ⟨2, hn, fun d₁ d₂ hd => by simp only [decodeMetadataType, hd]⟩
  · cases h

theorem decodeMetadataType_whole : decodeMetadataType.Whole := by
  intro o d a d' h hd
  obtain ⟨n, hn, -⟩ := decodeMetadataType_eq_ok h
  exact decodeUnsigned_whole 8 hn hd

theorem decodeMetadataType_stable : decodeMetadataType.Stable := by
  intro t o d rest stack a d' ht hordered hd h r
  obtain ⟨n, hn, hmore⟩ := decodeMetadataType_eq_ok h
  exact hmore _ _ (decodeUnsigned_stable 8 ht hordered hd hn r)

theorem metadataEntry_whole (s : MetadataFields) (k : Bytes) : (metadataEntry s k).Whole := by
  unfold metadataEntry
  exact .ite (field_whole decodeMetadataType_whole) <| .ite (field_whole (decodeUnsigned_whole 32))
    <| .ite (field_whole (decodeUnsigned_whole 32)) (unknownField_whole s)

theorem metadataEntry_stable (s : MetadataFields) (k : Bytes) : (metadataEntry s k).Stable := by
  unfold metadataEntry
  exact .ite (field_stable decodeMetadataType_stable) <|
    .ite (field_stable (decodeUnsigned_stable 32)) <|
    .ite (field_stable (decodeUnsigned_stable 32)) (unknownField_stable s)

/-- The fields of the dictionary, and what is made of them whatever the decoder. -/
theorem decodeMetadata_eq_ok {o : Object} {d d' : Decoder} {m : Metadata}
    (h : decodeMetadata o d = .ok (m, d')) :
    ∃ s, dictLoop metadataEntry ⟨none, none, none⟩ o d = .ok (s, d') ∧
      ∀ d₁ d₂, dictLoop metadataEntry ⟨none, none, none⟩ o d₁ = .ok (s, d₂) →
        decodeMetadata o d₁ = .ok (m, d₂) := by
  obtain ⟨⟨s, d₀⟩, hloop, h⟩ := Checked.bind_eq_ok.mp h
  obtain ⟨msgType, hmsg, h⟩ := Checked.bind_eq_ok.mp h
  obtain ⟨piece, hpiece, h⟩ := Checked.bind_eq_ok.mp h
  split at h
  · cases h
  · next hsize =>
      obtain ⟨rfl, rfl⟩ := Prod.mk.inj (Except.ok.inj h)
      refine ⟨s, hloop, fun d₁ d₂ hd => ?_⟩
      show Except.bind (dictLoop metadataEntry _ o d₁) _ = _
      rw [hd]
      show Except.bind (required "msg_type" s.msgType) _ = _
      rw [hmsg]
      show Except.bind (required "piece" s.piece) _ = _
      rw [hpiece]
      exact if_neg hsize

theorem decodeMetadata_whole : decodeMetadata.Whole := by
  intro o d m d' h hd
  obtain ⟨s, hloop, -⟩ := decodeMetadata_eq_ok h
  exact dictLoop_whole metadataEntry_whole _ hloop hd

theorem decodeMetadata_stable : decodeMetadata.Stable := by
  intro t o d rest stack m d' ht hordered hd h r
  obtain ⟨s, hloop, hmore⟩ := decodeMetadata_eq_ok h
  exact hmore _ _
    (dictLoop_stable metadataEntry_whole metadataEntry_stable _ ht hordered hd hloop r)

/-! ## The split -/

/-- The handler of a data message is then given the bytes behind the header. -/
theorem handleUtMetadata_append {header data : Bytes} {piece totalSize limit : ℕ}
    (hheader : Dictionary header)
    (h : Metadata.fromBencode header = .ok ⟨.data, piece, some totalSize⟩)
    (hordered : Ordered header) (hlimit : totalSize ≤ limit) (s : State) (k peer : ℕ) :
    s.handleUtMetadata limit k peer (header ++ data) =
      (s.setPeer peer ((s.peers peer).initMetadataPiece totalSize)).setTask k peer
        (some (.initialized piece data)) := by
  have hsplit : Metadata.fromBencodeFirst (header ++ data) = .ok (_, header.length) :=
    (fromBencodeFirst_append_iff decodeMetadata_whole decodeMetadata_stable hheader h data).mpr
      hordered
  simp only [State.handleUtMetadata, hsplit, List.drop_left]
  rw [if_neg (by omega)]

/-- **The header.**  Of a message that begins with a dictionary which `from_bencode` accepts,
`from_bencode_first` gives the same header and its length, whatever follows, if and only if all
keys of the dictionary ascend.  Then the data handler is given exactly what follows. -/
theorem headerSplit_iff {header : Bytes} {m : Metadata} (hheader : Dictionary header)
    (h : Metadata.fromBencode header = .ok m) (data : Bytes) :
    (Metadata.fromBencodeFirst (header ++ data) = .ok (m, header.length) ↔ Ordered header) ∧
      (Ordered header → ∀ piece totalSize limit, m = ⟨.data, piece, some totalSize⟩ →
        totalSize ≤ limit → ∀ (s : State) (k peer : ℕ),
          s.handleUtMetadata limit k peer (header ++ data) =
            (s.setPeer peer ((s.peers peer).initMetadataPiece totalSize)).setTask k peer
              (some (.initialized piece data))) := by
  refine ⟨fromBencodeFirst_append_iff decodeMetadata_whole decodeMetadata_stable hheader h data, ?_⟩
  rintro hordered piece totalSize limit rfl hlimit s k peer
  exact handleUtMetadata_append hheader h hordered hlimit s k peer

/-! ## Two headers -/

/-- The input is one dictionary, which can be skipped. -/
def skipsDictionary (input : Bytes) : Bool :=
  match (Decoder.new input false expectedRecursionDepth).nextObject with
  | .ok (some (.dict start), d) =>
      match dropObject (.dict start) d with
      | .ok d' => d'.offset = input.length
      | .error _ => false
  | _ => false

/-- A dictionary that can be skipped is one. -/
theorem dictionary_of_skips {input : Bytes} (h : skipsDictionary input = true) :
    Dictionary input := by
  unfold skipsDictionary at h
  split at h
  · next start d hobj =>
      split at h
      · next d' hdrop =>
          obtain ⟨raw, stack, hread, hopened, -⟩ := Decoder.nextObject_opened hobj
          obtain ⟨-, slice, hslice, hconsumes⟩ := dictionary_of_dropObject hread hopened hdrop
          -- all of the input was read
          have hend : d'.offset = input.length := of_decide_eq_true h
          have hbytes := hconsumes.bytes
          rw [hend] at hbytes
          have hall : input = slice := by simpa [Decoder.new] using hbytes
          exact hall ▸ hslice
      · cases h
  · cases h

/-- The header of the test of the repository. -/
def sortedHeader : Bytes := key "d8:msg_typei1e5:piecei0e10:total_sizei3425ee"

/-- The header that is commented out there. -/
def unsortedHeader : Bytes := key "d5:piecei0e8:msg_typei1e10:total_sizei3425ee"

/-- The piece that follows them. -/
def somePiece : Bytes := [1, 2, 3, 4, 5, 6, 7, 8]

theorem headerSplit_sorted :
    Metadata.fromBencodeFirst (sortedHeader ++ somePiece) =
      .ok (⟨.data, 0, some 3425⟩, sortedHeader.length) ∧ Ordered sortedHeader := by
  have hfirst : Metadata.fromBencodeFirst (sortedHeader ++ somePiece) =
      .ok (⟨.data, 0, some 3425⟩, sortedHeader.length) := by decide +kernel
  exact ⟨hfirst, (headerSplit_iff (dictionary_of_skips (by decide +kernel))
    (by decide +kernel) somePiece).1.mp hfirst⟩

/-- The unsorted header is accepted alone, and refused in front of a piece. -/
theorem headerSplit_unsorted :
    Dictionary unsortedHeader ∧
      Metadata.fromBencode unsortedHeader = .ok ⟨.data, 0, some 3425⟩ ∧
      Metadata.fromBencodeFirst (unsortedHeader ++ somePiece) =
        .error (.ofStructure .unsortedKeys) :=
  ⟨dictionary_of_skips (by decide +kernel), by decide +kernel, by decide +kernel⟩

end MagnetMetadata
