/-
# What the swarm can do in one step

* `Next` lists, for every place a task can stand at, the access it makes and what it goes on
  with (`next_of_taskStep`);
* `Step` lists what an action does to the whole state (`step_cases`);
* the lemmas about `response`, `requested` and `Effect.exec` say what each access leaves
  unchanged.

Every result about runs of the swarm goes by cases on `Step` and `Next`.
-/
import Dorodoro.Swarm
import Dorodoro.Transition

open LexicalPath Bitmap

namespace Swarm

/-! ## What a task can do -/

/-- Everything a task of peer `p` can do at each place: the access it makes, and what it
goes on with. -/
inductive Next (C : Config) (s : State) (p : ℕ) : Pc → Effect → List Task → Prop
  | requestLock {k} : p ∈ s.registered → Next C s p (.request k) .nop [⟨p, .lock k⟩]
  | requestChoked {k} : p ∈ s.registered → Next C s p (.request k) .nop (onPeer p (returns k))
  | requestLost {k} : p ∉ s.registered → Next C s p (.request k) .nop [⟨p, .quit⟩]
  | lock {k} : s.lockFree p = true → Next C s p (.lock k) .nop [⟨p, .find k⟩]
  | findFull {k} : Next C s p (.find k) .nop (onPeer p (returns k))
  | findChoked {k} : Next C s p (.find k) .nop [⟨p, .idle k⟩]
  | findScan {k} : Next C s p (.find k) .nop [⟨p, .scan k 0⟩]
  | findEntry {k i v} : s.requested p i = some v → v < C.pieceLength i → i < C.pieceNum →
      Next C s p (.find k) (.setRequest p i (u32 (v + C.blockSize))) [⟨p, .trim k i v⟩]
  | trimRemove {k i offset} :
      Next C s p (.trim k i offset) (.removeRequest p i) [⟨p, .send k i offset⟩]
  | trimKeep {k i offset} : Next C s p (.trim k i offset) .nop [⟨p, .send k i offset⟩]
  | scanEnd {k j} : C.pieceNum ≤ j → Next C s p (.scan k j) .nop [⟨p, .idle k⟩]
  | scanNext {k j} : Next C s p (.scan k j) .nop [⟨p, .scan k (j + 1)⟩]
  | scanApply {k j offset} : j < C.pieceNum → s.applyOffset (u32 j) = some offset →
      Next C s p (.scan k j) (.apply (u32 j)) [⟨p, .applied k (u32 j) offset⟩]
  | applied {k i offset} :
      Next C s p (.applied k i offset) (.resetOrigin p i offset) [⟨p, .advance k i offset⟩]
  | advance {k i offset v} : s.requested p i = some v →
      Next C s p (.advance k i offset) (.setRequest p i (u32 (v + C.blockSize)))
        [⟨p, .send k i offset⟩]
  | advanceLost {k i offset} : s.requested p i = none →
      Next C s p (.advance k i offset) .nop [⟨p, .send k i offset⟩]
  | sendOk {k i offset} : Next C s p (.send k i offset) .nop [⟨p, .find k⟩]
  | sendFail {k i offset} : Next C s p (.send k i offset) .nop [⟨p, .quit⟩]
  | idleRelist {k} : Next C s p (.idle k) .nop [⟨p, .relist k
      ((s.responseKeys C p).filterMap fun i => (s.response p i).map fun P => (i, P.blockOffset))⟩]
  | idleLoot {k} : Next C s p (.idle k) .nop [⟨p, .loot k⟩]
  | relistEnd {k} : Next C s p (.relist k []) .nop [⟨p, .find k⟩]
  | relist {k i offset pieces} :
      Next C s p (.relist k ((i, offset) :: pieces)) (.resetOrigin p i offset)
        [⟨p, .relist k pieces⟩]
  | lootFinished {k} : s.checkPieceDownloadFinished C = true →
      Next C s p (.loot k) .setPieceFinished [⟨p, .finish (.back k)⟩]
  | loot {k} : Next C s p (.loot k) .nop [⟨p, .lootLock k⟩]
  | lootLock {k peers} : s.lockFree p = true → peers.Nodup →
      (∀ v ∈ peers, v ≠ p ∧ v ∈ s.registered) →
      Next C s p (.lootLock k) .nop [⟨p, .lootNext k peers⟩]
  | lootNone {k} : Next C s p (.lootNext k []) .nop (onPeer p (returns k))
  | lootLeave {k} : Next C s p (.lootNext k []) .nop [⟨p, .leave k⟩]
  | lootNext {k v peers} : Next C s p (.lootNext k (v :: peers)) .nop
      [⟨p, .retain k v (List.range C.pieceNum) peers []⟩]
  | retainTake {k v i todo peers freePiece st} : i ∈ todo → (s.response v i).isSome = true →
      s.underway i = some st →
      Next C s p (.retain k v todo peers freePiece) (.take v i)
        [⟨p, .retain k v (todo.filter (· != i)) peers (freePiece ++ [(i, st.offset)])⟩]
  | retainPanic {k v i todo peers freePiece} : s.underway i = none → i ∈ todo →
      (s.response v i).isSome = true → Next C s p (.retain k v todo peers freePiece) .nop [⟨p, .quit⟩]
  | retainKeep {k v i todo peers freePiece} : i ∈ todo →
      Next C s p (.retain k v todo peers freePiece) .nop
        [⟨p, .retain k v (todo.filter (· != i)) peers freePiece⟩]
  | retainEnd {k v peers freePiece} :
      Next C s p (.retain k v [] peers freePiece) .nop [⟨p, .lootExit k v peers freePiece⟩]
  | lootExitNext {k v peers} :
      Next C s p (.lootExit k v peers []) .nop [⟨p, .lootNext k peers⟩]
  | lootExitGive {k v peers freePiece} :
      Next C s p (.lootExit k v peers freePiece) .nop [⟨p, .give k freePiece⟩]
  | lootExitDropNext {k v peers} : v ∈ s.registered →
      Next C s p (.lootExit k v peers []) (.deregister v)
        [⟨v, .exiting (List.range C.pieceNum)⟩, ⟨p, .lootNext k peers⟩]
  | lootExitDropGive {k v peers freePiece} : v ∈ s.registered →
      Next C s p (.lootExit k v peers freePiece) (.deregister v)
        [⟨v, .exiting (List.range C.pieceNum)⟩, ⟨p, .give k freePiece⟩]
  | giveEnd {k} : Next C s p (.give k []) .nop [⟨p, .request k⟩]
  | give {k i offset freePiece} :
      Next C s p (.give k ((i, offset) :: freePiece)) (.resetOrigin p i offset)
        [⟨p, .give k freePiece⟩]
  | leave {k} : p ∈ s.registered → Next C s p (.leave k) (.deregister p)
      (⟨p, .exiting (List.range C.pieceNum)⟩ :: onPeer p (returns k))
  | leaveLost {k} : p ∉ s.registered → Next C s p (.leave k) .nop (onPeer p (returns k))
  | begin {m P} : s.response p m.pieceIdx = some P →
      Next C s p (.begin m) .nop [⟨p, .write m P.blockOffset s.clock
        (C.info.findFileOfPieceIndex C.savePath m.pieceIdx m.blockOffset m.blockData.length) 0⟩]
  | beginLost {m} : s.response p m.pieceIdx = none → Next C s p (.begin m) .nop []
  | writeEnd {m realOffset start pos} : Next C s p (.write m realOffset start [] pos) .nop
      [⟨p, .offset m realOffset start⟩]
  | write {m realOffset start} {b : BlockInfo} {blocks pos} :
      u64 (b.start + ((m.blockData.drop pos).take b.len).length) ≤ b.fileLen →
      b.start ≤ u64 (b.start + ((m.blockData.drop pos).take b.len).length) →
      Next C s p (.write m realOffset start (b :: blocks) pos)
        (.store b.filepath b.start ((m.blockData.drop pos).take b.len))
        [⟨p, .write m realOffset start blocks (pos + b.len)⟩]
  | writeUnflushed {m realOffset start} {b : BlockInfo} {blocks pos} :
      u64 (b.start + ((m.blockData.drop pos).take b.len).length) ≤ b.fileLen →
      b.start ≤ u64 (b.start + ((m.blockData.drop pos).take b.len).length) →
      Next C s p (.write m realOffset start (b :: blocks) pos)
        (.store b.filepath b.start ((m.blockData.drop pos).take b.len)) [⟨p, .failed m⟩]
  | writeFail {m realOffset start b blocks pos} :
      Next C s p (.write m realOffset start (b :: blocks) pos) .nop [⟨p, .failed m⟩]
  | writePanic {m realOffset start b blocks pos} :
      Next C s p (.write m realOffset start (b :: blocks) pos) .nop [⟨p, .quit⟩]
  | failed {m} : Next C s p (.failed m) (.resetOrigin p m.pieceIdx m.blockOffset) []
  | offset {m realOffset start} : Next C s p (.offset m realOffset start)
      (.updateOffset m.pieceIdx realOffset) [⟨p, .mark m start⟩]
  | mark {m start} : Next C s p (.mark m start) (.updateResponse p m.pieceIdx m.blockOffset)
      [⟨p, .count m⟩]
  | markPanic {m start} : (s.response p m.pieceIdx).any Piece.outOfRange = true →
      Next C s p (.mark m start) (.updateResponse p m.pieceIdx m.blockOffset) [⟨p, .quit⟩]
  | count {m} : Next C s p (.count m) (.count (u32 m.blockData.length)) [⟨p, .check m.pieceIdx⟩]
  | checkFinish {i} : (s.response p i).any Piece.finish = true →
      Next C s p (.check i) .nop [⟨p, .remove i⟩]
  | checkOpen {i} : (s.response p i).any Piece.finish = false → Next C s p (.check i) .nop []
  | remove {i} : Next C s p (.remove i) (.removeResponse p i) [⟨p, .verify i⟩]
  | verifyPanic {i} : C.pieceNum ≤ i → Next C s p (.verify i) .nop [⟨p, .quit⟩]
  | verifyOk {i} : i < C.pieceNum → Next C s p (.verify i) .nop [⟨p, .accept i⟩]
  | verifyFail {i} : i < C.pieceNum → Next C s p (.verify i) .nop [⟨p, .reject i⟩]
  | reject {i} : Next C s p (.reject i) (.resetUnderway i) [⟨p, .discount i⟩]
  | discount {i} : Next C s p (.discount i) (.discount (C.pieceLength i)) []
  | discountQuit {i} : Next C s p (.discount i) (.discount (C.pieceLength i)) [⟨p, .quit⟩]
  | accept {i} : Next C s p (.accept i) (.setBit i) [⟨p, .clear i⟩]
  | clear {i} : Next C s p (.clear i) (.removeUnderway i) [⟨p, .checkFinished⟩]
  | checkFinished : s.checkPieceDownloadFinished C = true →
      Next C s p .checkFinished .setPieceFinished [⟨p, .setFinished⟩]
  | checkUnfinished : Next C s p .checkFinished .nop [⟨p, .saveUnderway .after⟩]
  | setFinished : Next C s p .setFinished .setStatus [⟨p, .saveUnderway .after⟩]
  | afterFinish : s.status = .finished → Next C s p .afterHandle .nop [⟨p, .finish .done⟩]
  | afterEnd : Next C s p .afterHandle .nop []
  | finish {r} : Next C s p (.finish r) .endTask [⟨p, .saveUnderway r⟩]
  | finishEnded {r} : s.ended = true → Next C s p (.finish r) .nop (onPeer p r.pcs)
  | saveUnderway {r} : Next C s p (.saveUnderway r) .nop
      [⟨p, .saveBytefield r s.clock (s.savedUnderway C)⟩]
  | saveBytefield {r start ub} : Next C s p (.saveBytefield r start ub) .nop
      [⟨p, .saveDownload r start ub s.bytefield⟩]
  | saveDownload {r start ub bytefield} : Next C s p (.saveDownload r start ub bytefield) .nop
      [⟨p, .saveStatus r start ub bytefield s.download⟩]
  | saveStatus {r start ub bytefield download} :
      Next C s p (.saveStatus r start ub bytefield download) .nop
        [⟨p, .saveRow r start ⟨bytefield, ub, download, s.status⟩⟩]
  | saveRow {r start row} : Next C s p (.saveRow r start row) (.save row) (onPeer p r.pcs)
  | quit : p ∈ s.registered →
      Next C s p .quit (.deregister p) [⟨p, .exiting (List.range C.pieceNum)⟩]
  | quitLost : p ∉ s.registered → Next C s p .quit .nop []
  | exitPause {i todo} : i ∈ todo → (s.response p i).isSome = true →
      Next C s p (.exiting todo) (.pause i) [⟨p, .exiting (todo.filter (· != i))⟩]
  | exitSkip {i todo} : i ∈ todo → s.response p i = none →
      Next C s p (.exiting todo) .nop [⟨p, .exiting (todo.filter (· != i))⟩]
  | exitEnd : Next C s p (.exiting []) .nop []

section Next

variable {C : Config} {s : State} {p : ℕ} {e : Effect} {ts : List Task}

/-- `peer_exit` either takes the peer out or does nothing. -/
theorem exits_cases (C : Config) (s : State) (v : ℕ) :
    (v ∈ s.registered ∧
      exits C s v = (.deregister v, [⟨v, .exiting (List.range C.pieceNum)⟩])) ∨
      (v ∉ s.registered ∧ exits C s v = (.nop, [])) := by
  by_cases hv : v ∈ s.registered
  · exact Or.inl ⟨hv, if_pos hv⟩
  · exact Or.inr ⟨hv, if_neg hv⟩

/-- A looted peer with requests under way stays, another one exits if it is registered. -/
theorem next_lootExit {k : Option Msg} {v : ℕ} {peers : List ℕ} {freePiece : List (ℕ × ℕ)}
    {inflight : Bool}
    (h : taskStep C s p (.lootExit k v peers freePiece) (.flag inflight) = some (e, ts)) :
    Next C s p (.lootExit k v peers freePiece) e ts := by
  delta taskStep at h
  dsimp only at h
  cases freePiece with
  | nil =>
      split at h
      · cases h
        exact .lootExitNext
      · rcases exits_cases C s v with ⟨hv, he⟩ | ⟨-, he⟩ <;> rw [he] at h <;> cases h
        · exact .lootExitDropNext hv
        · exact .lootExitNext
  | cons x freePiece =>
      split at h
      · cases h
        exact .lootExitGive
      · rcases exits_cases C s v with ⟨hv, he⟩ | ⟨-, he⟩ <;> rw [he] at h <;> cases h
        · exact .lootExitDropGive hv
        · exact .lootExitGive

/-- A peer that leaves exits if it is still registered. -/
theorem next_leave {k : Option Msg} (h : taskStep C s p (.leave k) .go = some (e, ts)) :
    Next C s p (.leave k) e ts := by
  delta taskStep at h
  dsimp only at h
  rcases exits_cases C s p with ⟨hp, he⟩ | ⟨hp, he⟩ <;> rw [he] at h <;> cases h
  · exact .leave hp
  · exact .leaveLost hp

/-- A connection that ends exits if it is still registered. -/
theorem next_quit (h : taskStep C s p .quit .go = some (e, ts)) : Next C s p .quit e ts := by
  delta taskStep at h
  dsimp only at h
  rcases exits_cases C s p with ⟨hp, he⟩ | ⟨hp, he⟩ <;> rw [he] at h <;> cases h
  · exact .quit hp
  · exact .quitLost hp

/-- A write fails, panics, or stores one block and goes on with the next one. -/
theorem next_write {m : Msg} {realOffset start pos : ℕ} {b : BlockInfo} {blocks : List BlockInfo}
    {r : WriteResult}
    (h : taskStep C s p (.write m realOffset start (b :: blocks) pos) (.io r) = some (e, ts)) :
    Next C s p (.write m realOffset start (b :: blocks) pos) e ts := by
  delta taskStep at h
  dsimp only at h
  split at h
  · cases h
    exact .writeFail
  · next hfits =>
      have hfile := Nat.le_of_not_lt (not_or.mp hfits).2
      split at h
      · cases h
        exact .writePanic
      · next hstart =>
          split at h <;> cases h
          · exact .writeUnflushed hfile (Nat.le_of_not_lt hstart)
          · exact .write hfile (Nat.le_of_not_lt hstart)

/-- **What a task does is in the list.** -/
theorem next_of_taskStep {pc : Pc} {c : Choice} (h : taskStep C s p pc c = some (e, ts)) :
    Next C s p pc e ts := by
  cases pc
  -- the places whose branches go by a list
  case' relist _ pieces => cases pieces
  case' lootNext _ peers => cases peers
  case' retain _ _ todo _ _ => cases todo
  case' give _ freePiece => cases freePiece
  case' write _ _ _ blocks _ => cases blocks
  case' exiting todo => cases todo
  -- a choice that is not the one the place waits for gives no step
  all_goals cases c <;> try (cases h; done)
  case' find.flag _ ready => cases ready
  case' send.flag _ _ _ sent => cases sent
  all_goals first
    | exact next_lootExit h
    | exact next_leave h
    | exact next_quit h
    | exact next_write h
    | skip
  all_goals
    unfold taskStep at h
    dsimp only at h
  all_goals repeat' split at h
  all_goals cases h
  all_goals constructor
  all_goals first
    | assumption
    | exact Option.not_isSome_iff_eq_none.mp ‹_›
    | grind

end Next

/-! ## What an access changes -/

section Exec

variable (C : Config) (s : State)

theorem State.response_setResponse (p i q j : ℕ) (v : Option Piece) :
    (s.setResponse p i v).response q j = if q = p ∧ j = i then v else s.response q j := by
  by_cases hq : q = p
  · subst hq
    by_cases hj : j = i
    · subst hj
      simp [response]
    · simp [response, hj]
  · simp [response, hq]

@[simp] theorem State.response_setRequested (p i q j : ℕ) (v : Option ℕ) :
    (s.setRequested p i v).response q j = s.response q j := by
  by_cases hq : q = p
  · subst hq
    simp [response]
  · simp [response, hq]

theorem State.requested_setRequested (p i q j : ℕ) (v : Option ℕ) :
    (s.setRequested p i v).requested q j = if q = p ∧ j = i then v else s.requested q j := by
  by_cases hq : q = p
  · subst hq
    by_cases hj : j = i
    · subst hj
      simp [requested]
    · simp [requested, hj]
  · simp [requested, hq]

@[simp] theorem State.requested_setResponse (p i q j : ℕ) (v : Option Piece) :
    (s.setResponse p i v).requested q j = s.requested q j := by
  by_cases hq : q = p
  · subst hq
    simp [requested]
  · simp [requested, hq]

@[simp] theorem State.response_setUnderway (i q j : ℕ) (v : Option PieceStatus) :
    (s.setUnderway i v).response q j = s.response q j := rfl

@[simp] theorem State.requested_setUnderway (i q j : ℕ) (v : Option PieceStatus) :
    (s.setUnderway i v).requested q j = s.requested q j := rfl

@[simp] theorem State.response_tick (q j : ℕ) : s.tick.response q j = s.response q j := rfl

@[simp] theorem State.requested_tick (q j : ℕ) : s.tick.requested q j = s.requested q j := rfl

@[simp] theorem State.response_spawn (ts : List Task) (q j : ℕ) :
    (s.spawn ts).response q j = s.response q j := rfl

@[simp] theorem State.response_setDownload (n q j : ℕ) :
    (s.setDownload n).response q j = s.response q j := rfl

@[simp] theorem State.requested_setDownload (n q j : ℕ) :
    (s.setDownload n).requested q j = s.requested q j := rfl

theorem State.underway_setDownload (n : ℕ) : (s.setDownload n).underway = s.underway := rfl

theorem State.disk_setDownload (n : ℕ) : (s.setDownload n).disk = s.disk := rfl

/-- Messages do not touch the pieces of a peer. -/
theorem State.response_modifyPeer {f : Peer → Peer}
    (hf : ∀ P, (f P).responsePieces = P.responsePieces) (p q j : ℕ) :
    (s.modifyPeer p f).response q j = s.response q j := by
  by_cases hq : q = p
  · subst hq
    simp [response, hf]
  · simp [response, hq]

theorem State.requested_modifyPeer {f : Peer → Peer}
    (hf : ∀ P, (f P).requestPieces = P.requestPieces) (p q j : ℕ) :
    (s.modifyPeer p f).requested q j = s.requested q j := by
  by_cases hq : q = p
  · subst hq
    simp [requested, hf]
  · simp [requested, hq]

/-- Moving the origin is the only access that looks before it writes. -/
theorem Effect.exec_resetOrigin (p i offset : ℕ) : (resetOrigin p i offset).exec C s =
    if s.keepsOrigin p i offset then s
    else (s.setResponse p i (some (.new offset (C.pieceLength i) C.blockSize))).setRequested p i
      (some offset) := rfl

@[simp] theorem Effect.exec_tasks (e : Effect) : (e.exec C s).tasks = s.tasks := by
  cases e with
  | resetOrigin p i offset =>
      rw [exec_resetOrigin]
      split <;> rfl
  | count n => exact State.setDownload_tasks ..
  | discount n => exact State.setDownload_tasks ..
  | _ => rfl

@[simp] theorem Effect.exec_clock (e : Effect) : (e.exec C s).clock = s.clock := by
  cases e with
  | resetOrigin p i offset =>
      rw [exec_resetOrigin]
      split <;> rfl
  | count n => exact State.setDownload_clock ..
  | discount n => exact State.setDownload_clock ..
  | _ => rfl

@[simp] theorem Effect.exec_bytefield (e : Effect) : (e.exec C s).bytefield =
    match e with
    | setBit i => set s.bytefield i
    | _ => s.bytefield := by
  cases e with
  | resetOrigin p i offset =>
      rw [exec_resetOrigin]
      split <;> rfl
  | count n => exact State.setDownload_bytefield ..
  | discount n => exact State.setDownload_bytefield ..
  | _ => rfl

@[simp] theorem Effect.exec_underway (e : Effect) : (e.exec C s).underway =
    match e with
    | apply i => Function.update s.underway i ((s.applyOffset i).map .ing <|> s.underway i)
    | pause i => Function.update s.underway i ((s.underway i).map fun st => .pause st.offset)
    | updateOffset i offset =>
        Function.update s.underway i ((s.underway i).map fun st =>
          match st with
          | .ing _ => .ing offset
          | .pause old => .pause old)
    | resetUnderway i => Function.update s.underway i (some (.pause 0))
    | removeUnderway i => Function.update s.underway i none
    | _ => s.underway := by
  cases e with
  | resetOrigin p i offset =>
      rw [exec_resetOrigin]
      split <;> rfl
  | count n => exact State.underway_setDownload _ _
  | discount n => exact State.underway_setDownload _ _
  | _ => rfl

@[simp] theorem Effect.exec_pieceFinished (e : Effect) : (e.exec C s).pieceFinished =
    match e with
    | setPieceFinished => true
    | _ => s.pieceFinished := by
  cases e with
  | resetOrigin p i offset =>
      rw [exec_resetOrigin]
      split <;> rfl
  | count n => exact State.setDownload_pieceFinished ..
  | discount n => exact State.setDownload_pieceFinished ..
  | _ => rfl

@[simp] theorem Effect.exec_status (e : Effect) : (e.exec C s).status =
    match e with
    | setStatus => .finished
    | _ => s.status := by
  cases e with
  | resetOrigin p i offset =>
      rw [exec_resetOrigin]
      split <;> rfl
  | count n => exact State.setDownload_status ..
  | discount n => exact State.setDownload_status ..
  | _ => rfl

@[simp] theorem Effect.exec_download (e : Effect) : (e.exec C s).download =
    match e with
    | count n => u64 (s.download + n)
    | discount n => u64Sub s.download n
    | _ => s.download := by
  cases e with
  | resetOrigin p i offset =>
      rw [exec_resetOrigin]
      split <;> rfl
  | count n => exact State.setDownload_download ..
  | discount n => exact State.setDownload_download ..
  | _ => rfl

@[simp] theorem Effect.exec_registered (e : Effect) : (e.exec C s).registered =
    match e with
    | deregister p => s.registered.erase p
    | _ => s.registered := by
  cases e with
  | resetOrigin p i offset =>
      rw [exec_resetOrigin]
      split <;> rfl
  | count n => exact State.setDownload_registered ..
  | discount n => exact State.setDownload_registered ..
  | _ => rfl

@[simp] theorem Effect.exec_nextId (e : Effect) : (e.exec C s).nextId = s.nextId := by
  cases e with
  | resetOrigin p i offset =>
      rw [exec_resetOrigin]
      split <;> rfl
  | count n => exact State.setDownload_nextId ..
  | discount n => exact State.setDownload_nextId ..
  | _ => rfl

@[simp] theorem Effect.exec_disk (e : Effect) : (e.exec C s).disk =
    match e with
    | store path start data => storeAt s.disk path.normalize start data
    | _ => s.disk := by
  cases e with
  | resetOrigin p i offset =>
      rw [exec_resetOrigin]
      split <;> rfl
  | count n => exact State.disk_setDownload _ _
  | discount n => exact State.disk_setDownload _ _
  | _ => rfl

@[simp] theorem Effect.exec_row (e : Effect) : (e.exec C s).row =
    match e with
    | save row => row
    | _ => s.row := by
  cases e with
  | resetOrigin p i offset =>
      rw [exec_resetOrigin]
      split <;> rfl
  | count n => exact State.setDownload_row ..
  | discount n => exact State.setDownload_row ..
  | _ => rfl

@[simp] theorem Effect.exec_ended (e : Effect) : (e.exec C s).ended =
    match e with
    | endTask => true
    | _ => s.ended := by
  cases e with
  | resetOrigin p i offset =>
      rw [exec_resetOrigin]
      split <;> rfl
  | count n => exact State.setDownload_ended ..
  | discount n => exact State.setDownload_ended ..
  | _ => rfl

/-- The pieces of a peer after an access. -/
@[simp] theorem Effect.exec_response (e : Effect) (p i : ℕ) : (e.exec C s).response p i =
    match e with
    | resetOrigin q j offset =>
        if (p = q ∧ i = j) ∧ s.keepsOrigin q j offset = false then
          some (.new offset (C.pieceLength j) C.blockSize)
        else s.response p i
    | take v j => if p = v ∧ i = j then none else s.response p i
    | updateResponse q j offset =>
        if p = q ∧ i = j then (s.response q j).map (·.addFinish offset) else s.response p i
    | removeResponse q j => if p = q ∧ i = j then none else s.response p i
    | _ => s.response p i := by
  cases e with
  | resetOrigin q j offset =>
      rw [exec_resetOrigin]
      cases hk : s.keepsOrigin q j offset with
      | false => simp [State.response_setResponse, hk]
      | true => simp [hk]
  | take v j =>
      show ((s.setRequested v j none).setResponse v j none).response p i = _
      rw [State.response_setResponse, State.response_setRequested]
  | updateResponse q j offset => exact State.response_setResponse ..
  | removeResponse q j => exact State.response_setResponse ..
  | setRequest q j offset => exact State.response_setRequested ..
  | removeRequest q j => exact State.response_setRequested ..
  | count n => exact State.response_setDownload _ _ _ _
  | discount n => exact State.response_setDownload _ _ _ _
  | _ => rfl

/-- The entries of a peer after an access. -/
@[simp] theorem Effect.exec_requested (e : Effect) (p i : ℕ) : (e.exec C s).requested p i =
    match e with
    | setRequest q j offset => if p = q ∧ i = j then some offset else s.requested p i
    | removeRequest q j => if p = q ∧ i = j then none else s.requested p i
    | resetOrigin q j offset =>
        if (p = q ∧ i = j) ∧ s.keepsOrigin q j offset = false then some offset
        else s.requested p i
    | take v j => if p = v ∧ i = j then none else s.requested p i
    | _ => s.requested p i := by
  cases e with
  | resetOrigin q j offset =>
      rw [exec_resetOrigin]
      cases hk : s.keepsOrigin q j offset with
      | false => simp [State.requested_setRequested, hk]
      | true => simp [hk]
  | take v j =>
      show ((s.setRequested v j none).setResponse v j none).requested p i = _
      rw [State.requested_setResponse, State.requested_setRequested]
  | setRequest q j offset => exact State.requested_setRequested ..
  | removeRequest q j => exact State.requested_setRequested ..
  | updateResponse q j offset => exact State.requested_setResponse ..
  | removeResponse q j => exact State.requested_setResponse ..
  | count n => exact State.requested_setDownload _ _ _ _
  | discount n => exact State.requested_setDownload _ _ _ _
  | _ => rfl

/-- A peer gets a piece only by `reset_request_piece_origin`. -/
theorem Effect.isSome_of_exec_response {C : Config} {s : State} {e : Effect} {p i : ℕ}
    (h : ((e.exec C s).response p i).isSome = true) :
    (s.response p i).isSome = true ∨ ∃ offset, e = .resetOrigin p i offset := by
  rw [Effect.exec_response] at h
  cases e with
  | resetOrigin q j offset =>
      dsimp only at h
      split at h
      · next heq => exact Or.inr ⟨offset, by rw [heq.1.1, heq.1.2]⟩
      · exact Or.inl h
  | take v j =>
      dsimp only at h
      split at h
      · cases h
      · exact Or.inl h
  | updateResponse q j offset =>
      dsimp only at h
      split at h
      · next heq => rw [heq.1, heq.2]; exact Or.inl (by simpa using h)
      · exact Or.inl h
  | removeResponse q j =>
      dsimp only at h
      split at h
      · cases h
      · exact Or.inl h
  | _ => exact Or.inl h

/-- The access gives no piece to a peer and marks no block. -/
def Effect.shrinks : Effect → Bool
  | resetOrigin _ _ _ | updateResponse _ _ _ => false
  | _ => true

/-- An effect that only removes receptions invents none. -/
theorem Effect.response_of_shrinks {C : Config} {s : State} {e : Effect} {p i : ℕ} {P : Piece}
    (he : e.shrinks = true) (h : (e.exec C s).response p i = some P) :
    s.response p i = some P := by
  rw [Effect.exec_response] at h
  cases e with
  | resetOrigin q j offset => cases he
  | updateResponse q j offset => cases he
  | take v j =>
      dsimp only at h
      split at h
      · cases h
      · exact h
  | removeResponse q j =>
      dsimp only at h
      split at h
      · cases h
      · exact h
  | _ => exact h

end Exec

/-- The statuses of a loaded row are in the row. -/
theorem mem_underway_of_load {row : Row} {disk : Loc → ℕ → Option UInt8} {clock i : ℕ}
    {st : PieceStatus} (h : (State.load row disk clock).underway i = some st) :
    (i, st) ∈ row.underway := by
  obtain ⟨q, hq, rfl⟩ := Option.map_eq_some_iff.mp h
  rw [List.findRev?_eq_find?_reverse] at hq
  have hkey : q.1 = i := by simpa using List.find?_some hq
  rw [← hkey]
  exact List.mem_reverse.mp (List.mem_of_find?_eq_some hq)

/-! ## What an action can do -/

/-- The action is a message or the end of a connection. -/
def Act.external : Act → Bool
  | run _ _ | abort _ | restart => false
  | _ => true

/-- Everything an action can do. -/
inductive Step (C : Config) (s : State) : Act → State → Prop
  | connect : Step C s .connect
      { s with
        peers := Function.update s.peers s.nextId .new
        registered := s.nextId :: s.registered
        nextId := s.nextId + 1
        clock := s.clock + 1 }
  /-- A message nobody handles, and the exit of a peer that is gone. -/
  | ignored {a} : a.external = true → Step C s a s.tick
  | choke {p} : p ∈ s.registered →
      Step C s (.choke p) (s.modifyPeer p fun P => { P with unchoked := false }).tick
  /-- A message other than a block; an ill-formed one closes the connection. -/
  | message {a p f pc} : a.external = true → p ∈ s.registered →
      (∀ P : Peer, (f P).responsePieces = P.responsePieces) →
      (∀ P : Peer, (f P).requestPieces = P.requestPieces) → (pc = .request none ∨ pc = .quit) →
      Step C s a ((s.modifyPeer p f).spawn [⟨p, pc⟩]).tick
  | block {p payload m} : p ∈ s.registered → (s.response p m.pieceIdx).isSome = true →
      Step C s (.piece p payload) (s.spawn [⟨p, .request (some m)⟩]).tick
  | run {k c t e ts} : s.tasks[k]? = some t → taskStep C s t.peer t.pc c = some (e, ts) →
      Step C s (.run k c) { e.exec C s with tasks := replaceTask s.tasks k ts }.tick
  | abort {k t} : s.tasks[k]? = some t → t.peer ∉ s.registered → t.pc.awaits = true →
      Step C s (.abort k) { s with tasks := replaceTask s.tasks k [] }.tick
  | peerExit {p} : p ∈ s.registered →
      Step C s (.peerExit p)
        (((Effect.deregister p).exec C s).spawn [⟨p, .exiting (List.range C.pieceNum)⟩]).tick
  | saveProgress : Step C s .saveProgress (s.spawn [⟨s.nextId, .saveUnderway .done⟩]).tick
  | restart : s.row.status = .download →
      Step C s .restart (State.load s.row s.disk s.clock).tick

section Step

variable {C : Config} {s s' : State} {a : Act}

theorem step_handle {p : ℕ} {f : Peer → Peer} {pc : Pc}
    (hr : ∀ P : Peer, (f P).responsePieces = P.responsePieces)
    (hq : ∀ P : Peer, (f P).requestPieces = P.requestPieces) (hpc : pc = .request none ∨ pc = .quit)
    (ha : a.external = true) : Step C s a (s.handle p f pc).tick := by
  unfold State.handle
  split
  · next hp => exact .message ha hp hr hq hpc
  · exact .ignored ha

theorem step_handlePiece {p : ℕ} {payload : Bytes} :
    Step C s (.piece p payload) (s.handlePiece p payload).tick := by
  unfold State.handlePiece
  split
  · exact .ignored rfl
  · next hp =>
      have hp := not_not.mp hp
      split
      · have hquit : Step C s (.piece p payload) ((s.modifyPeer p id).spawn [⟨p, .quit⟩]).tick :=
          .message rfl hp (fun _ => rfl) (fun _ => rfl) (Or.inr rfl)
        rwa [show s.modifyPeer p id = s by simp [State.modifyPeer]] at hquit
      · dsimp only
        split
        · next hsome => exact .block hp hsome
        · exact .ignored rfl

/-- **What an action does is in the list.** -/
theorem step_cases (h : step C s a = some s') : Step C s a s' := by
  rw [step, Option.map_eq_some_iff] at h
  obtain ⟨s₁, h, rfl⟩ := h
  cases a with
  | connect =>
      cases h
      exact .connect
  | choke p =>
      cases h
      split
      · next hp => exact .choke hp
      · exact .ignored rfl
  | unChoke p =>
      cases h
      exact step_handle (fun _ => rfl) (fun _ => rfl) (Or.inl rfl) rfl
  | «have» p payload =>
      cases h
      split
      · exact step_handle (fun _ => rfl) (fun _ => rfl) (Or.inl rfl) rfl
      · exact step_handle (fun _ => rfl) (fun _ => rfl) (Or.inr rfl) rfl
  | bitfield p payload =>
      cases h
      split
      · exact step_handle (fun _ => rfl) (fun _ => rfl) (Or.inl rfl) rfl
      · exact step_handle (fun _ => rfl) (fun _ => rfl) (Or.inr rfl) rfl
  | piece p payload =>
      cases h
      exact step_handlePiece
  | run k c =>
      simp only [act] at h
      split at h
      · next t ht =>
          obtain ⟨⟨e, ts⟩, hstep, rfl⟩ := Option.map_eq_some_iff.mp h
          exact .run ht hstep
      · cases h
  | abort k =>
      simp only [act] at h
      split at h
      · next t ht =>
          split at h
          · next hok =>
              cases h
              exact .abort ht hok.1 hok.2
          · cases h
      · cases h
  | peerExit p =>
      cases h
      rcases exits_cases C s p with ⟨hp, he⟩ | ⟨-, he⟩ <;> rw [he]
      · exact .peerExit hp
      · show Step C s (.peerExit p) (s.spawn []).tick
        rw [show s.spawn [] = s by simp [State.spawn]]
        exact .ignored rfl
  | saveProgress =>
      cases h
      exact .saveProgress
  | restart =>
      simp only [act] at h
      split at h
      · next hst =>
          cases h
          exact .restart hst
      · cases h

/-- A task that runs has one effect and is replaced by what it has still to do. -/
theorem step_run {k : ℕ} {c : Choice} (h : step C s (.run k c) = some s') :
    ∃ t e ts, s.tasks[k]? = some t ∧ taskStep C s t.peer t.pc c = some (e, ts) ∧
      s' = State.tick { e.exec C s with tasks := replaceTask s.tasks k ts } := by
  cases step_cases h with
  | ignored ha => cases ha
  | message ha => cases ha
  | run ht hrun => exact ⟨_, _, _, ht, hrun, rfl⟩

/-- A task is aborted only where it waits, and leaves no effect. -/
theorem step_abort {k : ℕ} (h : step C s (.abort k) = some s') :
    ∃ t, s.tasks[k]? = some t ∧ t.pc.awaits = true ∧
      s' = State.tick { s with tasks := replaceTask s.tasks k [] } := by
  cases step_cases h with
  | ignored ha => cases ha
  | message ha => cases ha
  | abort ht _ hawaits => exact ⟨_, ht, hawaits, rfl⟩

/-- A restart loads the row and keeps the disk. -/
theorem step_restart (h : step C s .restart = some s') :
    s.row.status = .download ∧ s' = (State.load s.row s.disk s.clock).tick := by
  cases step_cases h with
  | ignored ha => cases ha
  | message ha => cases ha
  | restart hst => exact ⟨hst, rfl⟩

end Step

/-! ## Tasks of a step -/

section Tasks

variable {tasks ts : List Task} {k : ℕ} {t : Task}

/-- A task of the new list was there, or is what comes instead. -/
theorem mem_replaceTask (h : t ∈ replaceTask tasks k ts) : t ∈ tasks ∨ t ∈ ts := by
  rw [replaceTask, List.mem_append, List.mem_append] at h
  rcases h with (h | h) | h
  · exact Or.inl (List.mem_of_mem_take h)
  · exact Or.inr h
  · exact Or.inl (List.mem_of_mem_drop h)

theorem mem_replaceTask_new (k : ℕ) (tasks : List Task) (h : t ∈ ts) : t ∈ replaceTask tasks k ts :=
  List.mem_append_left _ (List.mem_append_right _ h)

/-- The other tasks stay. -/
theorem mem_replaceTask_of_mem {t₀ : Task} (ts : List Task) (h : tasks[k]? = some t)
    (h₀ : t₀ ∈ tasks) : t₀ = t ∨ t₀ ∈ replaceTask tasks k ts := by
  obtain ⟨hk, rfl⟩ := List.getElem?_eq_some_iff.mp h
  rw [← List.take_append_drop k tasks, List.drop_eq_getElem_cons hk, List.mem_append,
    List.mem_cons] at h₀
  rcases h₀ with h₀ | rfl | h₀
  · exact Or.inr (List.mem_append_left _ (List.mem_append_left _ h₀))
  · exact Or.inl rfl
  · exact Or.inr (List.mem_append_right _ h₀)

/-- The replaced task goes, the new ones come. -/
theorem replaceTask_perm (ts : List Task) (h : tasks[k]? = some t) :
    (t :: replaceTask tasks k ts).Perm (tasks ++ ts) := by
  obtain ⟨hk, rfl⟩ := List.getElem?_eq_some_iff.mp h
  have hsplit : tasks.take k ++ tasks[k] :: tasks.drop (k + 1) = tasks := by
    rw [← List.drop_eq_getElem_cons hk, List.take_append_drop]
  have hlast : (tasks[k] :: (tasks.take k ++ ts ++ tasks.drop (k + 1))).Perm
      (tasks[k] :: (tasks.take k ++ tasks.drop (k + 1)) ++ ts) := by
    rw [List.cons_append, List.append_assoc, List.append_assoc]
    exact (List.perm_append_comm.append_left _).cons _
  have hback : (tasks[k] :: (tasks.take k ++ tasks.drop (k + 1)) ++ ts).Perm
      (tasks.take k ++ tasks[k] :: tasks.drop (k + 1) ++ ts) :=
    List.perm_middle.symm.append_right ts
  rw [hsplit] at hback
  exact hlast.trans hback

/-- Counting what the tasks list. -/
theorem count_flatMap_replaceTask (f : Task → List ℕ) (i : ℕ) (ts : List Task)
    (h : tasks[k]? = some t) :
    ((replaceTask tasks k ts).flatMap f).count i + (f t).count i =
      (tasks.flatMap f).count i + (ts.flatMap f).count i := by
  have hcount := ((replaceTask_perm ts h).flatMap_right f).count_eq i
  rw [List.flatMap_cons, List.flatMap_append, List.count_append, List.count_append] at hcount
  omega

/-- Counting tasks. -/
theorem countP_replaceTask (f : Task → Bool) (ts : List Task) (h : tasks[k]? = some t) :
    (replaceTask tasks k ts).countP f + [t].countP f = tasks.countP f + ts.countP f := by
  have hcount := (replaceTask_perm ts h).countP_eq f
  rw [← List.singleton_append, List.countP_append, List.countP_append] at hcount
  omega

end Tasks

section Returns

variable {P : Task → Prop} {p : ℕ}

/-- `request_piece` returns to `write_file`, if to anything. -/
theorem forall_mem_returns {k : Option Msg} (h : ∀ m, k = some m → P ⟨p, .begin m⟩) :
    ∀ t ∈ onPeer p (returns k), P t := by
  intro t ht
  cases k with
  | none => cases ht
  | some m =>
      cases List.mem_singleton.mp ht
      exact h m rfl

/-- `save_progress` returns to `request_piece` or to the callback. -/
theorem forall_mem_pcs {r : Ret} (h : ∀ m, r = .back (some m) → P ⟨p, .begin m⟩)
    (hafter : P ⟨p, .afterHandle⟩) : ∀ t ∈ onPeer p r.pcs, P t := by
  cases r with
  | done => intro t ht; cases ht
  | back k => exact forall_mem_returns fun m hm => h m (by rw [hm])
  | after =>
      intro t ht
      cases List.mem_singleton.mp ht
      exact hafter

end Returns

/-! ## Histories and invariants -/

/-- What a history notes: the step of a task, with the access it makes and what it goes on
with, and a restart. -/
structure Recorder (η : Type) where
  onRun : State → Task → Effect → List Task → η → η
  onRestart : State → η → η

/-- The history after an action. -/
def Recorder.record {η : Type} (R : Recorder η) (C : Config) (s : State) : Act → η → η
  | .run k c, h =>
      match s.tasks[k]? with
      | some t =>
          match taskStep C s t.peer t.pc c with
          | some (e, ts) => R.onRun s t e ts h
          | none => h
      | none => h
  | .restart, h => R.onRestart s h
  | _, h => h

/-- A recorder sees the effect of the task that runs. -/
theorem Recorder.record_run {η : Type} (R : Recorder η) {C : Config} {s : State} {k : ℕ}
    {c : Choice} {t : Task} {e : Effect} {ts : List Task} (ht : s.tasks[k]? = some t)
    (hc : taskStep C s t.peer t.pc c = some (e, ts)) (h : η) :
    R.record C s (.run k c) h = R.onRun s t e ts h := by
  simp only [record, ht, hc]

/-- The swarm with a history. -/
def Recorder.step {η : Type} (R : Recorder η) (C : Config) :
    State × η → Act → Option (State × η) :=
  Transition.observe (Swarm.step C) (R.record C)

/-- No history. -/
def Recorder.silent : Recorder Unit := ⟨fun _ _ _ _ h => h, fun _ h => h⟩

theorem Recorder.silent_step {C : Config} {s s' : State} {a : Act}
    (h : Swarm.step C s a = some s') :
    Recorder.silent.step C (s, ()) a = some (s', ()) :=
  Transition.observe_eq_some.mpr ⟨h, rfl⟩

/-- The task an action runs. -/
def State.running (s : State) : Act → Option Task
  | .run k _ => s.tasks[k]?
  | _ => none

/-- `s'` differs from `s` only in the tasks, the connections and the clock, which does not
go back. -/
structure SameData (s s' : State) : Prop where
  bytefield : s'.bytefield = s.bytefield
  underway : s'.underway = s.underway
  pieceFinished : s'.pieceFinished = s.pieceFinished
  status : s'.status = s.status
  download : s'.download = s.download
  disk : s'.disk = s.disk
  row : s'.row = s.row
  ended : s'.ended = s.ended
  response : ∀ p i, s'.response p i = s.response p i ∨ s'.response p i = none
  clock : s.clock ≤ s'.clock

/-- The places a task starts at. -/
inductive Starts (s : State) : Task → Prop
  | request {p} : Starts s ⟨p, .request none⟩
  | block {p m} : (s.response p m.pieceIdx).isSome = true → Starts s ⟨p, .request (some m)⟩
  | quit {p} : Starts s ⟨p, .quit⟩
  | exiting {p todo} : Starts s ⟨p, .exiting todo⟩
  | save {p} : Starts s ⟨p, .saveUnderway .done⟩

section Invariant

variable {C : Config} {η : Type} {R : Recorder η} {s s' : State} {h h' : η} {a : Act}

theorem SameData.refl (s : State) : SameData s s :=
  ⟨rfl, rfl, rfl, rfl, rfl, rfl, rfl, rfl, fun _ _ => Or.inl rfl, le_rfl⟩

/-- Only connections, tasks and the clock differ. -/
theorem SameData.of_response {s s' : State} (hb : s'.bytefield = s.bytefield)
    (hu : s'.underway = s.underway) (hpf : s'.pieceFinished = s.pieceFinished)
    (hst : s'.status = s.status) (hd : s'.download = s.download) (hdisk : s'.disk = s.disk)
    (hrow : s'.row = s.row) (he : s'.ended = s.ended)
    (hr : ∀ p i, s'.response p i = s.response p i) (hc : s.clock ≤ s'.clock) : SameData s s' :=
  ⟨hb, hu, hpf, hst, hd, hdisk, hrow, he, fun p i => Or.inl (hr p i), hc⟩

theorem SameData.tick (s : State) (ts : List Task) : SameData s { s with tasks := ts }.tick :=
  .of_response rfl rfl rfl rfl rfl rfl rfl rfl (fun _ _ => rfl) (Nat.le_succ _)

theorem SameData.connect (s : State) : SameData s
    { s with
      peers := Function.update s.peers s.nextId .new
      registered := s.nextId :: s.registered
      nextId := s.nextId + 1
      clock := s.clock + 1 } := by
  refine ⟨rfl, rfl, rfl, rfl, rfl, rfl, rfl, rfl, ?_, Nat.le_succ _⟩
  intro p i
  by_cases hp : p = s.nextId
  · subst hp
    right
    simp [State.response, Peer.new]
  · left
    simp [State.response, hp]

theorem SameData.modifyPeer (s : State) {f : Peer → Peer}
    (hf : ∀ P, (f P).responsePieces = P.responsePieces) (p : ℕ) (ts : List Task) :
    SameData s ((s.modifyPeer p f).spawn ts).tick :=
  .of_response rfl rfl rfl rfl rfl rfl rfl rfl (fun q i => s.response_modifyPeer hf p q i)
    (Nat.le_succ _)

/-- A message or the end of a connection changes no data; it can start tasks. -/
theorem external_step (ha : a.external = true) (hstep : Step C s a s') :
    ∃ ts, SameData s s' ∧ s'.tasks = s.tasks ++ ts ∧ ∀ t ∈ ts, Starts s t := by
  cases hstep with
  | run _ _ => cases ha
  | abort _ _ _ => cases ha
  | restart _ => cases ha
  | ignored _ => exact ⟨[], SameData.tick s s.tasks, by simp, by simp⟩
  | connect => exact ⟨[], SameData.connect s, by simp, by simp⟩
  | choke _ =>
      refine ⟨[], .of_response rfl rfl rfl rfl rfl rfl rfl rfl ?_ (Nat.le_succ _), by simp, by simp⟩
      intro q i
      rw [State.response_tick]
      apply State.response_modifyPeer
      intro P
      rfl
  | message _ _ hf _ hpc =>
      refine ⟨_, SameData.modifyPeer s hf _ _, rfl, ?_⟩
      intro t ht
      cases List.mem_singleton.mp ht
      rcases hpc with rfl | rfl
      · exact .request
      · exact .quit
  | block _ hsome =>
      refine ⟨_, SameData.tick s _, rfl, ?_⟩
      intro t ht
      cases List.mem_singleton.mp ht
      exact .block hsome
  | peerExit _ =>
      refine ⟨_, ?_, rfl, ?_⟩
      · exact .of_response rfl rfl rfl rfl rfl rfl rfl rfl (fun _ _ => rfl) (Nat.le_succ _)
      · intro t ht
        cases List.mem_singleton.mp ht
        exact .exiting
  | saveProgress =>
      refine ⟨_, SameData.tick s _, rfl, ?_⟩
      intro t ht
      cases List.mem_singleton.mp ht
      exact .save

/-- **The invariant rule of the swarm.**  `S` is about the shared state and the history, `T`
about each task.  What is left to show is that both survive a change of the connections, that
a task starts in `T`, and what the step of one task and a restart do. -/
theorem Recorder.step_invariant {S : State → η → Prop} {T : State → η → Task → Prop}
    (hstep : R.step C (s, h) a = some (s', h')) (hS : S s h) (hT : ∀ t ∈ s.tasks, T s h t)
    (same : ∀ {s s' : State} {h : η}, SameData s s' → S s h → S s' h)
    (sameT : ∀ {s s' : State} {h : η} {t : Task}, SameData s s' → S s h → T s h t → T s' h t)
    (start : ∀ t, Starts s t → T s h t)
    (run : ∀ k c t e ts, a = .run k c → s.tasks[k]? = some t → t ∈ s.tasks →
      Next C s t.peer t.pc e ts →
      S (e.exec C s) (R.onRun s t e ts h) ∧
        (∀ t' ∈ s.tasks, T (e.exec C s) (R.onRun s t e ts h) t') ∧
        ∀ t' ∈ ts, T (e.exec C s) (R.onRun s t e ts h) t')
    (restart : a = .restart → s.row.status = .download →
      S (.load s.row s.disk s.clock) (R.onRestart s h)) :
    S s' h' ∧ ∀ t ∈ s'.tasks, T s' h' t := by
  obtain ⟨hs, hh⟩ := Transition.observe_eq_some.mp hstep
  simp only at hs hh
  cases a with
  | run k c =>
      obtain ⟨t, e, ts, ht, hc, rfl⟩ := step_run hs
      rw [R.record_run ht hc] at hh
      subst hh
      obtain ⟨hS', hT', hts⟩ := run k c t e ts rfl ht (List.mem_of_getElem? ht)
        (next_of_taskStep hc)
      have hd := SameData.tick (e.exec C s) (replaceTask s.tasks k ts)
      refine ⟨same hd hS', ?_⟩
      intro t' ht'
      rcases mem_replaceTask ht' with ht' | ht'
      · exact sameT hd hS' (hT' t' ht')
      · exact sameT hd hS' (hts t' ht')
  | restart =>
      obtain ⟨hst, rfl⟩ := step_restart hs
      subst hh
      have hd := SameData.tick (State.load s.row s.disk s.clock) []
      exact ⟨same hd (restart rfl hst), fun t ht => by cases ht⟩
  | abort k =>
      obtain ⟨t, ht, -, rfl⟩ := step_abort hs
      subst hh
      have hd := SameData.tick s (replaceTask s.tasks k [])
      refine ⟨same hd hS, ?_⟩
      intro t' ht'
      rcases mem_replaceTask ht' with ht' | ht'
      · exact sameT hd hS (hT t' ht')
      · cases ht'
  | _ =>
      subst hh
      obtain ⟨ts, hd, htasks, hts⟩ := external_step rfl (step_cases hs)
      refine ⟨same hd hS, ?_⟩
      intro t ht
      rw [htasks, List.mem_append] at ht
      rcases ht with ht | ht
      · exact sameT hd hS (hT t ht)
      · exact sameT hd hS (start t (hts t ht))

end Invariant

/-! ## Pieces in range -/

/-- The piece of a block message. -/
def msgPieces (k : Option Msg) : List ℕ := k.toList.map Msg.pieceIdx

/-- The pieces `save_progress` goes on with. -/
def Ret.pieces : Ret → List ℕ
  | back k => msgPieces k
  | _ => []

/-- The pieces a task works on. -/
def Pc.pieces : Pc → List ℕ
  | request k | lock k | find k | scan k _ | idle k | loot k | lootLock k | lootNext k _
  | leave k => msgPieces k
  | trim k i _ | applied k i _ | advance k i _ | send k i _ => i :: msgPieces k
  | relist k l | give k l | retain k _ _ _ l | lootExit k _ _ l => l.map Prod.fst ++ msgPieces k
  | begin m | write m _ _ _ _ | failed m | offset m _ _ | mark m _ | count m => [m.pieceIdx]
  | check i | remove i | verify i | reject i | discount i | accept i | clear i => [i]
  | finish r | saveUnderway r | saveBytefield r _ _ | saveDownload r _ _ _
  | saveStatus r _ _ _ _ | saveRow r _ _ => r.pieces
  | checkFinished | setFinished | afterHandle | quit | exiting _ => []

/-- The pieces a task holds between two places, with their offsets. -/
def Pc.held : Pc → List (ℕ × ℕ)
  | applied _ i o => [(i, o)]
  | retain _ _ _ _ l | lootExit _ _ _ l | give _ l => l
  | _ => []

section InRange

variable {C : Config} {s : State} {p : ℕ} {pc : Pc} {e : Effect} {ts : List Task} {t : Task} {i : ℕ}

theorem mem_pieces_returns {k : Option Msg} (ht : t ∈ onPeer p (returns k))
    (hi : i ∈ t.pc.pieces) : i ∈ msgPieces k := by
  cases k with
  | none => cases ht
  | some m =>
      cases List.mem_singleton.mp ht
      exact hi

theorem mem_pieces_pcs {r : Ret} (ht : t ∈ onPeer p r.pcs) (hi : i ∈ t.pc.pieces) :
    i ∈ r.pieces := by
  cases r with
  | done => cases ht
  | back k => exact mem_pieces_returns ht hi
  | after =>
      cases List.mem_singleton.mp ht
      cases hi

theorem u32_le (n : ℕ) : u32 n ≤ n := Nat.mod_le _ _

/-- A task goes on with pieces it had, or with pieces of the torrent. -/
theorem mem_pieces_next (hr : ∀ q j, (s.response q j).isSome = true → j < C.pieceNum)
    (hnext : Next C s p pc e ts) (ht : t ∈ ts) (hi : i ∈ t.pc.pieces) :
    i ∈ pc.pieces ∨ i < C.pieceNum := by
  cases hnext with
  | requestChoked _ => exact Or.inl (mem_pieces_returns ht hi)
  | findFull => exact Or.inl (mem_pieces_returns ht hi)
  | lootNone => exact Or.inl (mem_pieces_returns ht hi)
  | leaveLost _ => exact Or.inl (mem_pieces_returns ht hi)
  | leave _ =>
      rcases List.mem_cons.mp ht with rfl | ht
      · cases hi
      · exact Or.inl (mem_pieces_returns ht hi)
  | finishEnded _ => exact Or.inl (mem_pieces_pcs ht hi)
  | saveRow => exact Or.inl (mem_pieces_pcs ht hi)
  | findEntry _ _ hlt =>
      cases List.mem_singleton.mp ht
      rcases List.mem_cons.mp hi with rfl | hi
      · exact Or.inr hlt
      · exact Or.inl hi
  | scanApply hj _ =>
      cases List.mem_singleton.mp ht
      rcases List.mem_cons.mp hi with rfl | hi
      · exact Or.inr (lt_of_le_of_lt (u32_le _) hj)
      · exact Or.inl hi
  | idleRelist =>
      cases List.mem_singleton.mp ht
      rcases List.mem_append.mp hi with hi | hi
      · obtain ⟨⟨j, offset⟩, hmem, rfl⟩ := List.mem_map.mp hi
        obtain ⟨j', hj', hval⟩ := List.mem_filterMap.mp hmem
        obtain ⟨P, hP, hpair⟩ := Option.map_eq_some_iff.mp hval
        cases hpair
        exact Or.inr (hr _ _ (by rw [hP]; rfl))
      · exact Or.inl hi
  | retainTake _ hsome _ =>
      cases List.mem_singleton.mp ht
      simp only [Pc.pieces, List.map_append, List.map_cons, List.map_nil, List.mem_append,
        List.mem_singleton] at hi ⊢
      rcases hi with (hi | rfl) | hi
      · exact Or.inl (Or.inl hi)
      · exact Or.inr (hr _ _ hsome)
      · exact Or.inl (Or.inr hi)
  | lootExitDropNext _ =>
      rcases List.mem_cons.mp ht with rfl | ht
      · cases hi
      · cases List.mem_singleton.mp ht
        exact Or.inl hi
  | lootExitDropGive _ =>
      rcases List.mem_cons.mp ht with rfl | ht
      · cases hi
      · cases List.mem_singleton.mp ht
        exact Or.inl hi
  | _ =>
      -- nothing is left to do, or the task goes on with pieces it has
      first
      | (cases ht; done)
      | (cases List.mem_singleton.mp ht
         first
         | exact Or.inl hi
         | exact Or.inl (List.mem_cons_of_mem _ hi)
         | cases hi)

/-- A task takes up a piece for its own peer, and one it works on. -/
theorem mem_pieces_of_resetOrigin {q offset : ℕ}
    (hnext : Next C s p pc (.resetOrigin q i offset) ts) :
    q = p ∧ i ∈ pc.pieces := by
  cases hnext <;> simp [Pc.pieces]

/-- The pieces of the peers are pieces of the torrent. -/
def State.ResponsesInRange (C : Config) (s : State) : Prop :=
  ∀ q j, (s.response q j).isSome = true → j < C.pieceNum

/-- The pieces a task works on are pieces of the torrent. -/
def Task.InRange (C : Config) (t : Task) : Prop := ∀ i ∈ t.pc.pieces, i < C.pieceNum

/-- The receptions stay within the pieces of the torrent. -/
theorem response_exec_inRange (hr : s.ResponsesInRange C) (hpc : ∀ j ∈ pc.pieces, j < C.pieceNum)
    (hnext : Next C s p pc e ts) : (e.exec C s).ResponsesInRange C := by
  intro q j hsome
  rcases Effect.isSome_of_exec_response hsome with hold | ⟨offset, rfl⟩
  · exact hr q j hold
  · exact hpc j (mem_pieces_of_resetOrigin hnext).2

variable {η : Type} {R : Recorder η} {s' : State} {h h' : η} {a : Act}

/-- **Every piece the swarm works on is one of the torrent.** -/
theorem inRange_step (hstep : R.step C (s, h) a = some (s', h')) (hr : s.ResponsesInRange C)
    (ht : ∀ t ∈ s.tasks, t.InRange C) :
    s'.ResponsesInRange C ∧ ∀ t ∈ s'.tasks, t.InRange C := by
  refine R.step_invariant (S := fun s _ => s.ResponsesInRange C) (T := fun _ _ t => t.InRange C)
    hstep hr ht ?_ (fun _ _ ht => ht) ?_ ?_ ?_
  · intro s s' _ hd hr q j hsome
    rcases hd.response q j with heq | hnone
    · exact hr q j (heq ▸ hsome)
    · rw [hnone] at hsome
      cases hsome
  · intro t hstart i hi
    cases hstart with
    | block hsome =>
        cases List.mem_singleton.mp hi
        exact hr _ _ hsome
    | _ => cases hi
  · intro k c t e ts _ _ hmem hnext
    refine ⟨response_exec_inRange hr (ht t hmem) hnext, ht, ?_⟩
    intro t' ht' i hi
    rcases mem_pieces_next hr hnext ht' hi with hi | hi
    · exact ht t hmem i hi
    · exact hi
  · intro _ _ q j hsome
    cases hsome

end InRange

end Swarm
