/-
# Torrents (`bt/torrent.rs`)

The torrent data model, its decoding from bencode, and the mapping from a range of a
piece to ranges of files.

* `Info.new` computes, for every file, the prefix sum of the lengths and the first and
  last piece it overlaps (`calculateFilePiece`);
* `Info.findFileOfPieceIndex` selects the files of a piece with two
  `partition_point`s and cuts the range into `BlockInfo`s;
* `decodeFile`, `decodeInfo` and `decodeTorrent` are the `FromBencode` instances.

Integers are natural numbers; sums and products that the code computes in `u64` or
casts to `u32` are reduced as there.  `Info.Regular` describes the torrents for which
none of these reductions changes a value.  SHA-1 is a parameter.
-/
import Dorodoro.Bendy
import Dorodoro.LexicalPath
import Mathlib.Algebra.Order.Floor.Div

open Bendy LexicalPath

/-! ## Machine arithmetic -/

/-- Reduction to `u64`. -/
def u64 (n : ℕ) : ℕ := n % 2 ^ 64

/-- Reduction to `u32`. -/
def u32 (n : ℕ) : ℕ := n % 2 ^ 32

/-- `a - b` in `u64`. -/
def u64Sub (a b : ℕ) : ℕ := u64 (a + 2 ^ 64 - b)

/-- `a as u32 - 1`. -/
def u32Pred (a : ℕ) : ℕ := u32 (u32 a + 2 ^ 32 - 1)

/-- `u64::div_ceil`. -/
def divCeil (a b : ℕ) : ℕ := a / b + if a % b = 0 then 0 else 1

/-! ## `partition_point` -/

section PartitionPoint

variable {α : Type}

/-- The loop of the binary search under `slice::partition_point`. -/
def partitionPointLoop (p : α → Bool) (xs : List α) : ℕ → ℕ → ℕ → ℕ
  | 0, _, base => base
  | fuel + 1, size, base =>
      if size ≤ 1 then base
      else
        let half := size / 2
        let mid := base + half
        partitionPointLoop p xs fuel (size - half)
          (if xs[mid]?.any p then mid else base)

/-- `slice::partition_point`. -/
def partitionPoint (p : α → Bool) (xs : List α) : ℕ :=
  if xs = [] then 0
  else
    let base := partitionPointLoop p xs xs.length xs.length 0
    if xs[base]?.any p then base + 1 else base

end PartitionPoint

/-! ## The data model -/

/-- `File`. -/
structure File where
  length : ℕ
  path : List String
  lengthPrefixSum : ℕ
  md5sum : Option String
  deriving DecidableEq

/-- `File::new`. -/
def File.new (length : ℕ) (path : List String) (md5sum : Option String) : File :=
  ⟨length, path, 0, md5sum⟩

/-- `Info`. -/
structure Info where
  length : ℕ
  pieceLength : ℕ
  pieces : Bytes
  name : String
  files : List File
  md5sum : Option String
  isPrivate : Option ℕ
  filePiece : List (ℕ × ℕ)
  deriving DecidableEq

/-- `Torrent`. -/
structure Torrent where
  announce : String
  announceList : List (List String)
  createdBy : Option String
  creationDate : ℕ
  info : Info
  infoHash : Bytes
  comment : Option String
  encoding : Option String
  deriving DecidableEq

/-- `Torrent::new`. -/
def Torrent.new (info : Info) (infoHash : Bytes) (announces : List String) : Torrent where
  announce := ""
  announceList := [announces]
  createdBy := none
  creationDate := 0
  info := info
  infoHash := infoHash
  comment := none
  encoding := none

/-- `Torrent::piece_num`. -/
def Info.pieceNum (info : Info) : ℕ := info.pieces.length / 20

/-- `Torrent::bitfield_len`. -/
def Info.bitfieldLen (info : Info) : ℕ := (info.pieceNum + 7) / 8

/-- `Torrent::piece_length`. -/
def Info.pieceLengthOf (info : Info) (pieceIdx : ℕ) : ℕ :=
  u32 (min info.pieceLength (info.length - u64 (pieceIdx * info.pieceLength)))

/-! ## Files and pieces -/

/-- The loop of `Info::calculate_file_piece`, from the sum of the lengths so far and the
end of the previous file. -/
def calculateFilePieceLoop (pieceLength : ℕ) : ℕ → ℕ → List File → List (File × (ℕ × ℕ))
  | _, _, [] => []
  | sum, prev, file :: files =>
      let start := u64 (prev + if sum % pieceLength = 0 then 1 else 0)
      let sum' := u64 (sum + file.length)
      let last := divCeil sum' pieceLength
      ({ file with lengthPrefixSum := sum' }, (u32Pred start, u32Pred last)) ::
        calculateFilePieceLoop pieceLength sum' last files

/-- `Info::calculate_file_piece`: the files with their prefix sums, and their first and
last pieces. -/
def calculateFilePiece (files : List File) (pieceLength : ℕ) : List File × List (ℕ × ℕ) :=
  (calculateFilePieceLoop pieceLength 0 0 files).unzip

/-- `Info::new`; a piece length of zero panics on the first file. -/
def Info.new (name : String) (length pieceLength : ℕ) (pieces : Bytes) (files : List File)
    (md5sum : Option String) (isPrivate : Option ℕ) : Except Error Info :=
  if pieceLength = 0 ∧ files ≠ [] then
    .error (.ofKind (.panicked "attempt to calculate the remainder with a divisor of zero"))
  else
    let (files, filePiece) := calculateFilePiece files pieceLength
    .ok ⟨length, pieceLength, pieces, name, files, md5sum, isPrivate, filePiece⟩

/-- `BlockInfo`. -/
structure BlockInfo where
  filepath : Path
  start : ℕ
  len : ℕ
  fileLen : ℕ
  deriving DecidableEq

/-- The path of a file of a multi-file torrent. -/
def Info.filePath (info : Info) (pathBuf : Path) (file : File) : Path :=
  (pathBuf.join (.ofString info.name)).join (.collect file.path)

/-- The part of the range from `first` to `last` that lies in one file, if the file is
selected; `left` bounds its length. -/
def Info.blockOf (info : Info) (pathBuf : Path) (first last left : ℕ) (file : File) :
    Option BlockInfo :=
  let lps := file.lengthPrefixSum
  let base := u64Sub lps file.length
  if first ≤ lps ∧ base < last then
    let start := if first ≤ base then 0 else first - base
    let len := min (if last ≤ lps then last - base else file.length - start) left
    some ⟨info.filePath pathBuf file, start, len, file.length⟩
  else none

/-- The loop of `Info::find_file_of_piece_index` over the files of a piece. -/
def Info.findBlocks (info : Info) (pathBuf : Path) (first last : ℕ) : ℕ → List File →
    List BlockInfo
  | _, [] => []
  | left, file :: files =>
      match info.blockOf pathBuf first last left file with
      | some b => b :: info.findBlocks pathBuf first last (left - b.len) files
      | none => info.findBlocks pathBuf first last left files

/-- `Info::find_file_of_piece_index`. -/
def Info.findFileOfPieceIndex (info : Info) (pathBuf : Path) (pieceIndex offset len : ℕ) :
    List BlockInfo :=
  let first := u64 (pieceIndex * info.pieceLength + offset)
  if info.filePiece = [] then
    [⟨pathBuf.join (.ofString info.name), first, len, info.length⟩]
  else
    let low := partitionPoint (fun lr => decide (lr.2 < pieceIndex)) info.filePiece
    let high := partitionPoint (fun lr => decide (lr.1 ≤ pieceIndex)) info.filePiece
    info.findBlocks pathBuf first (u64 (first + len)) len ((info.files.take high).drop low)

/-! ## Decoding -/

/-- The key of a dictionary entry. -/
def key (s : String) : Bytes := s.toUTF8.toList

/-- The optional fields collected while decoding a `File`. -/
structure FileFields where
  length : Option ℕ
  path : Option (List String)
  md5sum : Option String

/-- Decode a value into a field, naming the field in errors. -/
def field {σ T : Type} (name : String) (decode : Decode T) (set : T → σ) : Decode σ :=
  fun value d => (context name (decode value d)).map fun (a, d') => (set a, d')

/-- An unknown field: the value is dropped. -/
def unknownField {σ : Type} (s : σ) : Decode σ :=
  fun value d => (dropObject value d).map fun d' => (s, d')

/-- One entry of a `File` dictionary. -/
def fileEntry (s : FileFields) (k : Bytes) : Decode FileFields :=
  if k = key "length" then field "length" (decodeUnsigned 64) ({ s with length := some · })
  else if k = key "path" then field "path" (decodeVec decodeString) ({ s with path := some · })
  else if k = key "md5sum" then field "md5sum" decodeString ({ s with md5sum := some · })
  else unknownField s

/-- `Option::ok_or_else` with `Error::missing_field`. -/
def required {α : Type} (name : String) : Option α → Except Error α
  | some a => .ok a
  | none => .error (.missingField name)

/-- `impl FromBencode for File`. -/
def decodeFile : Decode File := fun o d => do
  let (s, d') ← dictLoop fileEntry ⟨none, none, none⟩ o d
  let length ← required "length" s.length
  let path ← required "path" s.path
  return (File.new length path s.md5sum, d')

/-- The optional fields collected while decoding an `Info`. -/
structure InfoFields where
  name : Option String
  length : Option ℕ
  pieceLength : Option ℕ
  pieces : Option Bytes
  files : Option (List File)
  md5sum : Option String
  isPrivate : Option ℕ

/-- One entry of an `Info` dictionary. -/
def infoEntry (s : InfoFields) (k : Bytes) : Decode InfoFields :=
  if k = key "name" then field "name" decodeString ({ s with name := some · })
  else if k = key "length" then field "length" (decodeUnsigned 64) ({ s with length := some · })
  else if k = key "piece length" then
    field "piece length" (decodeUnsigned 64) ({ s with pieceLength := some · })
  else if k = key "pieces" then
    fun value d => (decodeBytes value d).map fun (a, d') => ({ s with pieces := some a }, d')
  else if k = key "files" then field "files" (decodeVec decodeFile) ({ s with files := some · })
  else if k = key "md5sum" then field "md5sum" decodeString ({ s with md5sum := some · })
  else if k = key "private" then
    field "private" (decodeUnsigned 8) ({ s with isPrivate := some · })
  else unknownField s

/-- The total length of the files. -/
def filesLength (files : List File) : ℕ := (files.map File.length).sum

/-- The length of the resource: the sum over the files, or the field `length`. -/
def resourceLength : Option (List File) → Option ℕ → Except Error ℕ
  | some files, _ => .ok (u64 (filesLength files))
  | none, length => required "length" length

/-- `impl FromBencode for Info`. -/
def decodeInfo : Decode Info := fun o d => do
  let (s, d') ← dictLoop infoEntry ⟨none, none, none, none, none, none, none⟩ o d
  let name ← required "name" s.name
  let pieceLength ← required "piece length" s.pieceLength
  let pieces ← required "pieces" s.pieces
  let length ← resourceLength s.files s.length
  let info ← Info.new name length pieceLength pieces (s.files.getD []) s.md5sum s.isPrivate
  return (info, d')

/-- `Info::from_bencode`. -/
def Info.fromBencode (bytes : Bytes) : Except Error Info :=
  Bendy.fromBencode decodeInfo false expectedRecursionDepth bytes

/-- The optional fields collected while decoding a `Torrent`. -/
structure TorrentFields where
  announce : Option String
  announceList : Option (List (List String))
  createdBy : Option String
  creationDate : Option ℕ
  info : Option Info
  infoHash : Option Bytes
  comment : Option String
  encoding : Option String

section Sha1

variable (sha1 : Bytes → Bytes)

/-- The entry `info` of a `Torrent` dictionary: the raw bytes of a dictionary are hashed
and decoded, any other value is an unknown field. -/
def infoValue (s : TorrentFields) : Decode TorrentFields
  | .dict startPoint, d => do
      let d' ← dropObject (.dict startPoint) d
      let infoBytes := (d'.source.take d'.offset).drop startPoint
      let info ← context "info" (Info.fromBencode infoBytes)
      return ({ s with info := some info, infoHash := some (sha1 infoBytes) }, d')
  | value, d => unknownField s value d

/-- One entry of a `Torrent` dictionary. -/
def torrentEntry (s : TorrentFields) (k : Bytes) : Decode TorrentFields :=
  if k = key "announce" then field "announce" decodeString ({ s with announce := some · })
  else if k = key "announce-list" then
    field "announce-list" (decodeVec (decodeVec decodeString)) ({ s with announceList := some · })
  else if k = key "created by" then
    field "created by" decodeString ({ s with createdBy := some · })
  else if k = key "creation date" then
    field "creation date" (decodeUnsigned 64) ({ s with creationDate := some · })
  else if k = key "info" then infoValue sha1 s
  else if k = key "comment" then field "comment" decodeString ({ s with comment := some · })
  else if k = key "encoding" then field "encoding" decodeString ({ s with encoding := some · })
  else unknownField s

/-- `impl FromBencode for Torrent`. -/
def decodeTorrent : Decode Torrent := fun o d => do
  let (s, d') ← dictLoop (torrentEntry sha1) ⟨none, none, none, none, none, none, none, none⟩ o d
  let announce ← required "announce" s.announce
  let announceList ← required "announce_list" s.announceList
  let creationDate ← required "creation_date" s.creationDate
  let info ← required "info" s.info
  let infoHash ← required "info_hash" s.infoHash
  return (⟨announce, announceList, s.createdBy, creationDate, info, infoHash, s.comment,
    s.encoding⟩, d')

/-- `Torrent::from_bencode`. -/
def Torrent.fromBencode (bytes : Bytes) : Except Error Torrent :=
  Bendy.fromBencode (decodeTorrent sha1) false expectedRecursionDepth bytes

end Sha1
