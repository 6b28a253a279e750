/-
# The download swarm (`bt/default_servant.rs`, `bt/base_peer.rs`, `core/task/content.rs`)

One download task: the servant's bookkeeping, the peers, the handler tasks the peers'
messages start, the saved row, and what restarts do.

* `Piece` is a reception of a piece by one peer, `Peer` the state of a connection and
  `State` everything the handlers share;
* `Effect` lists the accesses to the shared state that change it, one call of a
  bookkeeping function each; `Effect.exec` is what they do;
* `Pc` is the place a handler task stands at, between two accesses, and `taskStep` the
  code from there to the next one;
* `step` lets the environment choose the next action: a message, a task to run, the abort
  of a task of a closed connection, a closing connection, a save, a restart.

Integers wrap as in a release build.
-/
import Dorodoro.Bitmap
import Dorodoro.Bytes
import Dorodoro.Torrent
import Mathlib.Logic.Function.Basic

open LexicalPath Bitmap

namespace Swarm

/-- What a download task is created with. -/
structure Config where
  info : Info
  savePath : Path
  blockSize : ℕ
  blockSize_pos : 0 < blockSize

/-- `Torrent::piece_length`. -/
def Config.pieceLength (C : Config) (i : ℕ) : ℕ := C.info.pieceLengthOf i

/-- `Torrent::piece_num`. -/
def Config.pieceNum (C : Config) : ℕ := C.info.pieceNum

/-- A download of one file in blocks of `n + 1` bytes. -/
def Config.singleFile (length pieceLength : ℕ) (pieces : Bytes) (n : ℕ) : Config where
  info := ⟨length, pieceLength, pieces, "f", [], none, none, []⟩
  savePath := .ofString "/save"
  blockSize := n + 1
  blockSize_pos := Nat.succ_pos n

/-! ## Receptions -/

/-- `Piece`: the blocks of a piece that one peer has delivered.  `blockOffset` is the end
of the gapless part. -/
structure Piece where
  blockOffset : ℕ
  bitmap : Bytes
  blockSize : ℕ
  pieceLength : ℕ
  finish : Bool
  deriving DecidableEq

/-- `Piece::block_offset_idx`. -/
def Piece.blockOffsetIdx (blockOffset blockSize : ℕ) : ℕ := divCeil blockOffset blockSize

/-- `Piece::new`. -/
def Piece.new (blockOffset pieceLength blockSize : ℕ) : Piece where
  blockOffset := blockOffset
  bitmap := List.replicate ((Piece.blockOffsetIdx pieceLength blockSize + 7) / 8) 0
  blockSize := blockSize
  pieceLength := pieceLength
  finish := false

/-- The index of the first block behind the gapless part. -/
def Piece.frontier (P : Piece) : ℕ := Piece.blockOffsetIdx P.blockOffset P.blockSize

/-- The slice `bitmap[idx..]` in `Piece::add_finish` is out of range. -/
def Piece.outOfRange (P : Piece) : Bool :=
  !P.finish && decide (P.bitmap.length < (bitmapOffset P.frontier).1)

/-- `Piece::add_finish`; when the slice is out of range the call panics with the bit
already set. -/
def Piece.addFinish (P : Piece) (blockOffset : ℕ) : Piece :=
  if P.finish then P
  else
    let bitmap := set P.bitmap (Piece.blockOffsetIdx blockOffset P.blockSize)
    if P.outOfRange then { P with bitmap := bitmap }
    else
      let offset := (fun o => u32 (o + P.blockSize))^[ones bitmap P.frontier] P.blockOffset
      { P with
        bitmap := bitmap
        blockOffset := offset
        finish := decide (P.pieceLength ≤ offset) }

/-! ## The shared state -/

/-- `PieceStatus`. -/
inductive PieceStatus where
  | ing (offset : ℕ)
  | pause (offset : ℕ)
  deriving DecidableEq

/-- The offset of a status. -/
def PieceStatus.offset : PieceStatus → ℕ
  | ing offset => offset
  | pause offset => offset

/-- Whether the status is `Ing`. -/
def PieceStatus.isIng : PieceStatus → Bool
  | ing _ => true
  | pause _ => false

/-- `TorrentStatus`. -/
inductive TorrentStatus where
  | download
  | upload
  | pasue
  | finished
  deriving DecidableEq

/-- The part of `PeerInner` the scheduler uses.  `unchoked` is the status `UnChoke`. -/
structure Peer where
  requestPieces : ℕ → Option ℕ
  responsePieces : ℕ → Option Piece
  unchoked : Bool
  recvBitfield : Bool
  opBitfield : Bytes

/-- A connection just made. -/
def Peer.new : Peer := ⟨fun _ => none, fun _ => none, false, false, []⟩

/-- `is_can_be_download`. -/
def Peer.isCanBeDownload (P : Peer) : Bool := P.unchoked && P.recvBitfield

/-- The row of table `torrent`, without the columns no handler reads. -/
structure Row where
  bytefield : Bytes
  underway : List (ℕ × PieceStatus)
  download : ℕ
  status : TorrentStatus
  deriving DecidableEq

/-- The row `add_torrent` inserts. -/
def Row.added (C : Config) : Row :=
  ⟨List.replicate C.info.bitfieldLen 0, [], 0, .download⟩

/-- A block message of a peer. -/
structure Msg where
  pieceIdx : ℕ
  blockOffset : ℕ
  blockData : Bytes
  deriving DecidableEq

/-- Where `save_progress` returns to. -/
inductive Ret where
  /-- Nothing is left to do. -/
  | done
  /-- `request_piece` returns; the block message that caused it is still to be written. -/
  | back (k : Option Msg)
  /-- `on_verify_piece_success` goes on with `download_finished_after_handle`. -/
  | after
  deriving DecidableEq

/-- The place a task stands at: what it does next. -/
inductive Pc where
  -- `request_piece`; `k` is the block message to be written when it returns
  | request (k : Option Msg)
  | lock (k : Option Msg)
  | find (k : Option Msg)
  | trim (k : Option Msg) (i offset : ℕ)
  | scan (k : Option Msg) (j : ℕ)
  | applied (k : Option Msg) (i offset : ℕ)
  | advance (k : Option Msg) (i offset : ℕ)
  | send (k : Option Msg) (i offset : ℕ)
  | idle (k : Option Msg)
  | relist (k : Option Msg) (pieces : List (ℕ × ℕ))
  -- `try_loot_slow_peer` and `try_free_slow_piece`
  | loot (k : Option Msg)
  | lootLock (k : Option Msg)
  | lootNext (k : Option Msg) (peers : List ℕ)
  | retain (k : Option Msg) (v : ℕ) (todo peers : List ℕ) (freePiece : List (ℕ × ℕ))
  | lootExit (k : Option Msg) (v : ℕ) (peers : List ℕ) (freePiece : List (ℕ × ℕ))
  | give (k : Option Msg) (freePiece : List (ℕ × ℕ))
  | leave (k : Option Msg)
  -- `write_file`; `start` is the clock when it read the frontier
  | begin (m : Msg)
  | write (m : Msg) (realOffset start : ℕ) (blocks : List BlockInfo) (pos : ℕ)
  | failed (m : Msg)
  | offset (m : Msg) (realOffset start : ℕ)
  | mark (m : Msg) (start : ℕ)
  | count (m : Msg)
  | check (i : ℕ)
  | remove (i : ℕ)
  -- `checkout_piece_hash` and the callbacks behind it
  | verify (i : ℕ)
  | reject (i : ℕ)
  | discount (i : ℕ)
  | accept (i : ℕ)
  | clear (i : ℕ)
  | checkFinished
  | setFinished
  | afterHandle
  -- `TaskControl::finish` and `save_progress`; `start` is the clock when the copy was made
  | finish (r : Ret)
  | saveUnderway (r : Ret)
  | saveBytefield (r : Ret) (start : ℕ) (ub : List (ℕ × PieceStatus))
  | saveDownload (r : Ret) (start : ℕ) (ub : List (ℕ × PieceStatus)) (bytefield : Bytes)
  | saveStatus (r : Ret) (start : ℕ) (ub : List (ℕ × PieceStatus)) (bytefield : Bytes)
      (download : ℕ)
  | saveRow (r : Ret) (start : ℕ) (row : Row)
  -- `peer_exit`: of the caller after an error, and its loop over the pieces of the peer
  | quit
  | exiting (todo : List ℕ)
  deriving DecidableEq

/-- A task on behalf of a peer. -/
structure Task where
  peer : ℕ
  pc : Pc
  deriving DecidableEq

/-- What the tasks of a download share.  `clock` counts the steps; no step depends on it. -/
structure State where
  bytefield : Bytes
  underway : ℕ → Option PieceStatus
  pieceFinished : Bool
  status : TorrentStatus
  download : ℕ
  peers : ℕ → Peer
  registered : List ℕ
  nextId : ℕ
  disk : Loc → ℕ → Option UInt8
  row : Row
  ended : Bool
  clock : ℕ
  tasks : List Task

/-- A state in which a download starts: with the bitmap, the statuses and the counter of
`DownloadContent::new`, and no peer. -/
def State.boot (bytefield : Bytes) (row : Row) (disk : Loc → ℕ → Option UInt8) (clock : ℕ) :
    State where
  bytefield := bytefield
  underway := fun i => (row.underway.findRev? fun e => e.1 == i).map Prod.snd
  pieceFinished := decide (row.status ≠ .download)
  status := row.status
  download := row.download
  peers := fun _ => .new
  registered := []
  nextId := 0
  disk := disk
  row := row
  ended := false
  clock := clock
  tasks := []

/-- `DownloadContent::new` with a row in the database. -/
def State.load (row : Row) (disk : Loc → ℕ → Option UInt8) (clock : ℕ) : State :=
  .boot row.bytefield row disk clock

/-- `DownloadContent::new` without a row: `add_torrent` inserts one, and the task starts
from the default entity, whose bitmap is empty. -/
def State.fresh (C : Config) (disk : Loc → ℕ → Option UInt8) : State :=
  .boot [] (.added C) disk 0

/-- `DownloadContent::new` with the row of `add_torrent`. -/
def State.added (C : Config) (disk : Loc → ℕ → Option UInt8) : State :=
  .load (.added C) disk 0

/-! ## Reading the shared state -/

section Read

variable (C : Config) (s : State)

/-- The offset `apply_download_piece` hands out, if it hands the piece out. -/
def State.applyOffset (i : ℕ) : Option ℕ :=
  if (bitmapOffset i).1 < s.bytefield.length ∧ get s.bytefield i = false then
    match s.underway i with
    | some (.pause offset) => some offset
    | some (.ing _) => none
    | none => some 0
  else none

/-- The loop of `check_piece_download_finished`, from the last byte on. -/
def checkFinishedLoop : UInt8 → Bytes → Bool
  | _, [] => true
  | lastV, v :: vs => v == lastV && checkFinishedLoop 255 vs

/-- What `check_piece_download_finished` returns. -/
def State.checkPieceDownloadFinished : Bool :=
  s.pieceFinished ||
    checkFinishedLoop (255 <<< (7 - (C.pieceNum - 1) % 8).toUInt8) s.bytefield.reverse

/-- `response_pieces` of a peer at a piece. -/
def State.response (p i : ℕ) : Option Piece := (s.peers p).responsePieces i

/-- `request_pieces` of a peer at a piece. -/
def State.requested (p i : ℕ) : Option ℕ := (s.peers p).requestPieces i

/-- Whether the peer told us it has the piece. -/
def State.peerHas (p i : ℕ) : Bool := get (s.peers p).opBitfield i

/-- Some block of the piece at the entry is not requested yet. -/
def State.unrequested (p i : ℕ) : Bool := (s.requested p i).any (· < C.pieceLength i)

/-- The keys of `response_pieces`. -/
def State.responseKeys (p : ℕ) : List ℕ :=
  (List.range C.pieceNum).filter fun i => (s.response p i).isSome

/-- `request_pieces.is_empty()`. -/
def State.requestsEmpty (p : ℕ) : Bool :=
  (List.range C.pieceNum).all fun i => (s.requested p i).isNone

/-- `has_transfer_data`, given whether bytes are in flight. -/
def State.hasTransferData (p : ℕ) (inflight : Bool) : Bool :=
  (!(s.responseKeys C p).isEmpty && inflight) ||
    ((s.peers p).unchoked && !(s.peers p).recvBitfield)

/-- The early return of `reset_request_piece_origin`: a lower offset is still to be
requested. -/
def State.keepsOrigin (p i offset : ℕ) : Bool := (s.requested p i).any (· < offset)

/-- The copy of the statuses `save_progress` makes, with `Ing` turned into `Pause`. -/
def State.savedUnderway : List (ℕ × PieceStatus) :=
  (List.range C.pieceNum).filterMap fun i => (s.underway i).map fun st => (i, .pause st.offset)

end Read

/-! ## Changing the shared state -/

/-- The calls that change the shared state. -/
inductive Effect where
  | nop
  /-- `*request_pieces[i] = offset`. -/
  | setRequest (p i offset : ℕ)
  /-- `request_pieces.remove(i)`. -/
  | removeRequest (p i : ℕ)
  /-- `apply_download_piece`. -/
  | apply (i : ℕ)
  /-- `reset_request_piece_origin`. -/
  | resetOrigin (p i offset : ℕ)
  /-- The closure of `retain` takes the piece away from its peer. -/
  | take (v i : ℕ)
  /-- `peers.remove(id)`. -/
  | deregister (p : ℕ)
  /-- `set_piece_status_pause`. -/
  | pause (i : ℕ)
  /-- The copy of `FileWriter::write`. -/
  | store (path : Path) (start : ℕ) (data : Bytes)
  /-- `update_write_piece_offset`. -/
  | updateOffset (i offset : ℕ)
  /-- `update_resoponse_piece`. -/
  | updateResponse (p i offset : ℕ)
  /-- `download.fetch_add`. -/
  | count (n : ℕ)
  /-- `Peer::remove_finish_piece`. -/
  | removeResponse (p i : ℕ)
  /-- `reset_underway_piece`. -/
  | resetUnderway (i : ℕ)
  /-- `download.fetch_sub`. -/
  | discount (n : ℕ)
  /-- The first half of `mark_piece_finish`. -/
  | setBit (i : ℕ)
  /-- `DefaultServant::remove_finish_piece`. -/
  | removeUnderway (i : ℕ)
  /-- `piece_finished.store(true)`. -/
  | setPieceFinished
  /-- `*status = Finished`. -/
  | setStatus
  /-- `tasks.remove(id)` of the task manager. -/
  | endTask
  /-- The `update` of `save_progress`. -/
  | save (row : Row)
  deriving DecidableEq

/-- Change the state of a peer. -/
@[simps]
def State.modifyPeer (s : State) (p : ℕ) (f : Peer → Peer) : State :=
  { s with peers := Function.update s.peers p (f (s.peers p)) }

/-- Change `request_pieces` of a peer at a piece. -/
@[simps]
def State.setRequested (s : State) (p i : ℕ) (v : Option ℕ) : State :=
  { s with
    peers := Function.update s.peers p
      { s.peers p with requestPieces := Function.update (s.peers p).requestPieces i v } }

/-- Change `response_pieces` of a peer at a piece. -/
@[simps]
def State.setResponse (s : State) (p i : ℕ) (v : Option Piece) : State :=
  { s with
    peers := Function.update s.peers p
      { s.peers p with responsePieces := Function.update (s.peers p).responsePieces i v } }

/-- Change the status of a piece. -/
@[simps]
def State.setUnderway (s : State) (i : ℕ) (v : Option PieceStatus) : State :=
  { s with underway := Function.update s.underway i v }

/-- Change the counter of downloaded bytes. -/
@[simps]
def State.setDownload (s : State) (n : ℕ) : State := { s with download := n }

/-- Copy bytes into a file. -/
def storeAt (disk : Loc → ℕ → Option UInt8) (l : Loc) (start : ℕ) (data : Bytes) :
    Loc → ℕ → Option UInt8 :=
  fun l' n => if l' = l ∧ start ≤ n ∧ n < start + data.length then data[n - start]? else disk l' n

/-- What the calls do. -/
def Effect.exec (C : Config) (s : State) : Effect → State
  | nop => s
  | setRequest p i offset => s.setRequested p i (some offset)
  | removeRequest p i => s.setRequested p i none
  | apply i => s.setUnderway i ((s.applyOffset i).map .ing <|> s.underway i)
  | resetOrigin p i offset =>
      if s.keepsOrigin p i offset then s
      else
        (s.setResponse p i (some (.new offset (C.pieceLength i) C.blockSize))).setRequested p i
          (some offset)
  | take v i => (s.setRequested v i none).setResponse v i none
  | deregister p => { s with registered := s.registered.erase p }
  | pause i => s.setUnderway i ((s.underway i).map fun st => .pause st.offset)
  | store path start data => { s with disk := storeAt s.disk path.normalize start data }
  | updateOffset i offset =>
      s.setUnderway i ((s.underway i).map fun st =>
        match st with
        | .ing _ => .ing offset
        | .pause old => .pause old)
  | updateResponse p i offset => s.setResponse p i ((s.response p i).map (·.addFinish offset))
  | count n => s.setDownload (u64 (s.download + n))
  | removeResponse p i => s.setResponse p i none
  | resetUnderway i => s.setUnderway i (some (.pause 0))
  | discount n => s.setDownload (u64Sub s.download n)
  | setBit i => { s with bytefield := set s.bytefield i }
  | removeUnderway i => s.setUnderway i none
  | setPieceFinished => { s with pieceFinished := true }
  | setStatus => { s with status := .finished }
  | endTask => { s with ended := true }
  | save row => { s with row := row }

/-! ## Tasks -/

/-- What happens to a write: it succeeds, the file cannot be mapped, or the flush after the
copy fails. -/
inductive WriteResult where
  | ok
  | unmapped
  | unflushed
  deriving DecidableEq

/-- What the environment decides when a task runs. -/
inductive Choice where
  | go
  /-- The result of a test on the network, the window or the disk. -/
  | flag (b : Bool)
  /-- The entry an iteration over a map meets next. -/
  | entry (i : ℕ)
  /-- The slower peers, slowest first. -/
  | order (peers : List ℕ)
  | io (r : WriteResult)
  deriving DecidableEq

/-- Whether the task holds the `sync_lock` of its peer. -/
def Pc.locked : Pc → Bool
  | find _ | trim _ _ _ | scan _ _ | applied _ _ _ | advance _ _ _ | send _ _ _ | idle _
  | relist _ _ | lootNext _ _ | retain _ _ _ _ _ | lootExit _ _ _ _ | give _ _ => true
  | _ => false

/-- Whether the task can stand at an await point here, where an abort stops it. -/
def Pc.awaits : Pc → Bool
  | lock _ | send _ _ _ | lootLock _ | lootNext _ _ | give _ _ | begin _ | write _ _ _ _ _
  | check _ | verify _ | finish _ | saveUnderway _ => true
  | _ => false

/-- The `sync_lock` of the peer is free. -/
def State.lockFree (s : State) (p : ℕ) : Bool :=
  s.tasks.all fun t => !(t.peer == p && t.pc.locked)

/-- `request_piece` returns. -/
def returns : Option Msg → List Pc
  | none => []
  | some m => [.begin m]

/-- `save_progress` returns. -/
def Ret.pcs : Ret → List Pc
  | done => []
  | back k => returns k
  | after => [.afterHandle]

/-- Tasks of one peer. -/
def onPeer (p : ℕ) (pcs : List Pc) : List Task := pcs.map (Task.mk p)

/-- The start of `peer_exit`: take the peer out, and give its pieces back. -/
def exits (C : Config) (s : State) (v : ℕ) : Effect × List Task :=
  if v ∈ s.registered then (.deregister v, [⟨v, .exiting (List.range C.pieceNum)⟩]) else (.nop, [])

/-- The code of a task of peer `p` from where it stands to its next access to the shared
state: that access, and what the task goes on with. -/
def taskStep (C : Config) (s : State) (p : ℕ) : Pc → Choice → Option (Effect × List Task)
  | .request k, .go =>
      if p ∈ s.registered then
        if (s.peers p).isCanBeDownload then some (.nop, onPeer p [.lock k])
        else some (.nop, onPeer p (returns k))
      else some (.nop, onPeer p [.quit])
  | .lock k, .go => if s.lockFree p then some (.nop, onPeer p [.find k]) else none
  -- no space in the send window
  | .find k, .flag false => some (.nop, onPeer p (returns k))
  | .find k, .flag true =>
      if !(s.peers p).isCanBeDownload then some (.nop, onPeer p [.idle k])
      else if (List.range C.pieceNum).all fun i => !s.unrequested C p i then
        some (.nop, onPeer p [.scan k 0])
      else none
  | .find k, .entry i =>
      match s.requested p i with
      | some v =>
          if (s.peers p).isCanBeDownload ∧ v < C.pieceLength i ∧ i < C.pieceNum then
            some (.setRequest p i (u32 (v + C.blockSize)), onPeer p [.trim k i v])
          else none
      | none => none
  | .trim k i offset, .go =>
      if (s.requested p i).any fun v => decide (C.pieceLength i ≤ v) then
        some (.removeRequest p i, onPeer p [.send k i offset])
      else some (.nop, onPeer p [.send k i offset])
  | .scan k j, .go =>
      if C.pieceNum ≤ j then some (.nop, onPeer p [.idle k])
      else if s.peerHas p (u32 j) then
        match s.applyOffset (u32 j) with
        | some offset => some (.apply (u32 j), onPeer p [.applied k (u32 j) offset])
        | none => some (.nop, onPeer p [.scan k (j + 1)])
      else some (.nop, onPeer p [.scan k (j + 1)])
  | .applied k i offset, .go => some (.resetOrigin p i offset, onPeer p [.advance k i offset])
  | .advance k i offset, .go =>
      match s.requested p i with
      | some v => some (.setRequest p i (u32 (v + C.blockSize)), onPeer p [.send k i offset])
      | none => some (.nop, onPeer p [.send k i offset])
  | .send k _ _, .flag true => some (.nop, onPeer p [.find k])
  | .send _ _ _, .flag false => some (.nop, onPeer p [.quit])
  | .idle k, .flag inflight =>
      if !inflight && !(s.responseKeys C p).isEmpty && s.requestsEmpty C p then
        some (.nop, onPeer p [.relist k ((s.responseKeys C p).filterMap fun i =>
          (s.response p i).map fun P => (i, P.blockOffset))])
      else some (.nop, onPeer p [.loot k])
  | .relist k [], .go => some (.nop, onPeer p [.find k])
  | .relist k ((i, offset) :: pieces), .go =>
      some (.resetOrigin p i offset, onPeer p [.relist k pieces])
  | .loot k, .go =>
      if s.checkPieceDownloadFinished C then
        some (.setPieceFinished, onPeer p [.finish (.back k)])
      else some (.nop, onPeer p [.lootLock k])
  | .lootLock k, .order peers =>
      if s.lockFree p ∧ peers.Nodup ∧ ∀ v ∈ peers, v ≠ p ∧ v ∈ s.registered then
        some (.nop, onPeer p [.lootNext k peers])
      else none
  | .lootNext k [], .flag inflight =>
      if s.hasTransferData C p inflight then some (.nop, onPeer p (returns k))
      else some (.nop, onPeer p [.leave k])
  | .lootNext k (v :: peers), .go =>
      some (.nop, onPeer p [.retain k v (List.range C.pieceNum) peers []])
  | .retain k v todo peers freePiece, .entry i =>
      if i ∈ todo then
        if (s.response v i).isSome && s.peerHas p i then
          match s.underway i with
          | some st =>
              some (.take v i,
                onPeer p [.retain k v (todo.filter (· != i)) peers (freePiece ++ [(i, st.offset)])])
          -- `unwrap` panics
          | none => some (.nop, onPeer p [.quit])
        else some (.nop, onPeer p [.retain k v (todo.filter (· != i)) peers freePiece])
      else none
  | .retain k v [] peers freePiece, .go =>
      some (.nop, onPeer p [.lootExit k v peers freePiece])
  | .lootExit k v peers freePiece, .flag inflight =>
      let next := if freePiece.isEmpty then Pc.lootNext k peers else .give k freePiece
      if s.hasTransferData C v inflight then some (.nop, onPeer p [next])
      else some ((exits C s v).1, (exits C s v).2 ++ onPeer p [next])
  | .give k [], .go => some (.nop, onPeer p [.request k])
  | .give k ((i, offset) :: freePiece), .go =>
      some (.resetOrigin p i offset, onPeer p [.give k freePiece])
  | .leave k, .go => some ((exits C s p).1, (exits C s p).2 ++ onPeer p (returns k))
  | .begin m, .go =>
      match s.response p m.pieceIdx with
      | some P =>
          some (.nop, onPeer p [.write m P.blockOffset s.clock
            (C.info.findFileOfPieceIndex C.savePath m.pieceIdx m.blockOffset m.blockData.length) 0])
      | none => some (.nop, [])
  | .write m realOffset start [] _, .go => some (.nop, onPeer p [.offset m realOffset start])
  | .write m realOffset start (b :: blocks) pos, .io r =>
      let data := (m.blockData.drop pos).take b.len
      let last := u64 (b.start + data.length)
      if r = .unmapped ∨ b.fileLen < last then some (.nop, onPeer p [.failed m])
      -- the slice `offset..end` of the mapping panics
      else if last < b.start then some (.nop, onPeer p [.quit])
      else if r = .unflushed then some (.store b.filepath b.start data, onPeer p [.failed m])
      else some (.store b.filepath b.start data,
        onPeer p [.write m realOffset start blocks (pos + b.len)])
  | .failed m, .go => some (.resetOrigin p m.pieceIdx m.blockOffset, [])
  | .offset m realOffset start, .go =>
      some (.updateOffset m.pieceIdx realOffset, onPeer p [.mark m start])
  | .mark m _, .go =>
      if (s.response p m.pieceIdx).any Piece.outOfRange then
        some (.updateResponse p m.pieceIdx m.blockOffset, onPeer p [.quit])
      else some (.updateResponse p m.pieceIdx m.blockOffset, onPeer p [.count m])
  | .count m, .go => some (.count (u32 m.blockData.length), onPeer p [.check m.pieceIdx])
  | .check i, .go =>
      if (s.response p i).any Piece.finish then some (.nop, onPeer p [.remove i])
      else some (.nop, [])
  | .remove i, .go => some (.removeResponse p i, onPeer p [.verify i])
  | .verify i, .flag ok =>
      -- the slice of `info.pieces` panics
      if C.pieceNum ≤ i then some (.nop, onPeer p [.quit])
      else some (.nop, onPeer p [if ok then .accept i else .reject i])
  | .reject i, .go => some (.resetUnderway i, onPeer p [.discount i])
  | .discount i, .flag limit =>
      some (.discount (C.pieceLength i), onPeer p (if limit then [.quit] else []))
  | .accept i, .go => some (.setBit i, onPeer p [.clear i])
  | .clear i, .go => some (.removeUnderway i, onPeer p [.checkFinished])
  | .checkFinished, .go =>
      if s.status = .finished then some (.nop, onPeer p [.saveUnderway .after])
      else if s.checkPieceDownloadFinished C then some (.setPieceFinished, onPeer p [.setFinished])
      else some (.nop, onPeer p [.saveUnderway .after])
  | .setFinished, .go => some (.setStatus, onPeer p [.saveUnderway .after])
  | .afterHandle, .go =>
      some (.nop, onPeer p (if s.status = .finished then [.finish .done] else []))
  | .finish r, .go =>
      if s.ended then some (.nop, onPeer p r.pcs) else some (.endTask, onPeer p [.saveUnderway r])
  | .saveUnderway r, .go =>
      some (.nop, onPeer p [.saveBytefield r s.clock (s.savedUnderway C)])
  | .saveBytefield r start ub, .go => some (.nop, onPeer p [.saveDownload r start ub s.bytefield])
  | .saveDownload r start ub bytefield, .go =>
      some (.nop, onPeer p [.saveStatus r start ub bytefield s.download])
  | .saveStatus r start ub bytefield download, .go =>
      some (.nop, onPeer p [.saveRow r start ⟨bytefield, ub, download, s.status⟩])
  | .saveRow r _ row, .go => some (.save row, onPeer p r.pcs)
  | .quit, .go => some (exits C s p)
  | .exiting todo, .entry i =>
      if i ∈ todo then
        some (if (s.response p i).isSome then .pause i else .nop,
          onPeer p [.exiting (todo.filter (· != i))])
      else none
  | .exiting [], .go => some (.nop, [])
  | _, _ => none

/-! ## The system -/

/-- What the environment does. -/
inductive Act where
  /-- A handshake succeeds and `add_peer` registers the connection. -/
  | connect
  | choke (p : ℕ)
  | unChoke (p : ℕ)
  | have (p : ℕ) (payload : Bytes)
  | bitfield (p : ℕ) (payload : Bytes)
  | piece (p : ℕ) (payload : Bytes)
  /-- The `k`-th task runs to its next access. -/
  | run (k : ℕ) (c : Choice)
  /-- The `k`-th task is aborted: its connection has been shut down. -/
  | abort (k : ℕ)
  /-- `peer_exit` from outside the handlers. -/
  | peerExit (p : ℕ)
  /-- `save_progress` from outside the handlers, at shutdown. -/
  | saveProgress
  /-- The process stops, and a later one loads the row. -/
  | restart
  deriving DecidableEq

/-- Put the tasks `ts` in the place of the `k`-th one. -/
def replaceTask (tasks : List Task) (k : ℕ) (ts : List Task) : List Task :=
  tasks.take k ++ ts ++ tasks.drop (k + 1)

/-- Start tasks. -/
@[simps]
def State.spawn (s : State) (ts : List Task) : State := { s with tasks := s.tasks ++ ts }

/-- Count a step. -/
@[simps]
def State.tick (s : State) : State := { s with clock := s.clock + 1 }

/-- `handle`, for the messages that are not blocks: what the message changes, and the place
its task starts at. -/
def State.handle (s : State) (p : ℕ) (f : Peer → Peer) (pc : Pc) : State :=
  if p ∈ s.registered then (s.modifyPeer p f).spawn [⟨p, pc⟩] else s

/-- `handle_piece` up to `received_block`. -/
def State.handlePiece (s : State) (p : ℕ) (payload : Bytes) : State :=
  if p ∉ s.registered then s
  else if payload.length < 8 then s.spawn [⟨p, .quit⟩]
  else
    let m : Msg := ⟨fromBeSlice 4 (payload.take 4), fromBeSlice 4 ((payload.drop 4).take 4),
      payload.drop 8⟩
    if (s.response p m.pieceIdx).isSome then s.spawn [⟨p, .request (some m)⟩] else s

/-- One action, before the clock. -/
def act (C : Config) (s : State) : Act → Option State
  | .connect =>
      some { s with
        peers := Function.update s.peers s.nextId .new
        registered := s.nextId :: s.registered
        nextId := s.nextId + 1 }
  | .choke p =>
      some (if p ∈ s.registered then s.modifyPeer p fun P => { P with unchoked := false } else s)
  | .unChoke p => some (s.handle p (fun P => { P with unchoked := true }) (.request none))
  | .have p payload =>
      some (if payload.length = 4 then
          s.handle p (fun P => { P with opBitfield := set P.opBitfield (fromBeSlice 4 payload) })
            (.request none)
        else s.handle p id .quit)
  | .bitfield p payload =>
      some (if payload.length = C.info.bitfieldLen then
          s.handle p (fun P => { P with opBitfield := payload, recvBitfield := true })
            (.request none)
        else s.handle p id .quit)
  | .piece p payload => some (s.handlePiece p payload)
  | .run k c =>
      match s.tasks[k]? with
      | some t =>
          (taskStep C s t.peer t.pc c).map fun r =>
            { r.1.exec C s with tasks := replaceTask s.tasks k r.2 }
      | none => none
  | .abort k =>
      match s.tasks[k]? with
      | some t =>
          if t.peer ∉ s.registered ∧ t.pc.awaits then
            some { s with tasks := replaceTask s.tasks k [] }
          else none
      | none => none
  | .peerExit p => some (((exits C s p).1.exec C s).spawn (exits C s p).2)
  | .saveProgress => some (s.spawn [⟨s.nextId, .saveUnderway .done⟩])
  | .restart => if s.row.status = .download then some (.load s.row s.disk s.clock) else none

/-- The transition function. -/
def step (C : Config) (s : State) (a : Act) : Option State := (act C s a).map State.tick

/-! ## A small download -/

/-- One piece of four bytes, in blocks of 16384 bytes. -/
def onePiece : Config := .singleFile 4 4 (List.replicate 20 97) 16383

/-- One piece of four bytes, in two blocks. -/
def twoBlocks : Config := .singleFile 4 4 (List.replicate 20 97) 1

/-- The download of `onePiece`, from the first connection to the end of the task. -/
def onePieceRun : List Act :=
  [.connect, .bitfield 0 [128], .run 0 .go, .unChoke 0, .run 0 .go, .run 0 .go,
    .run 0 (.flag true), .run 0 .go, .run 0 .go, .run 0 .go, .run 0 (.flag true),
    .run 0 (.flag false), .piece 0 [0, 0, 0, 0, 0, 0, 0, 0, 1, 2, 3, 4],
    .run 0 .go, .run 0 .go, .run 0 (.flag false), .run 0 .go, .run 0 (.io .ok), .run 0 .go,
    .run 0 .go, .run 0 .go, .run 0 .go, .run 0 .go, .run 0 .go, .run 0 (.flag true),
    .run 0 .go, .run 0 .go, .run 0 .go, .run 0 .go, .run 0 .go, .run 0 .go, .run 0 .go,
    .run 0 .go, .run 0 .go, .run 0 .go, .run 0 .go]

/-- The start of `onePieceRun`: peer 0 has connected and has asked for piece 0. -/
def onePieceAssigned : List Act := onePieceRun.take 12

/-- A peer is assigned the piece and sends its only block twice; both handlers have read the
frontier before the first one removes the finished piece. -/
def duplicateRun : List Act :=
  onePieceAssigned ++
  ([.piece 0 [0, 0, 0, 0, 0, 0, 0, 0, 1, 2, 3, 4], .piece 0 [0, 0, 0, 0, 0, 0, 0, 0, 1, 2, 3, 4],
    .run 0 .go, .run 0 .go, .run 0 (.flag false), .run 0 .go, .run 0 (.io .ok), .run 0 .go,
    .run 0 .go, .run 0 .go, .run 0 .go,
    .run 1 .go, .run 1 .go, .run 1 (.flag false), .run 1 .go, .run 1 (.io .ok), .run 1 .go,
    .run 1 .go, .run 1 .go, .run 1 .go] : List Act)

end Swarm
