/-
# The accounts of the write buffer (`bt/store.rs`)

A `Store` maps files into memory and counts the bytes that were written and not flushed: in every
`FileWriter`, under the lock of its shard of the map, and in one atomic counter for all of them.
Writing, flushing a file and flushing all files are run by many tasks.

* `State` are the writers, the counter and the tasks; `step` lets one task take its next step, at
  the places where others can come in between, and says what the file system answers;
* `State.buffered` is what the writers count, `State.due` what is in the counter and not in a
  writer;
* `Keeps` is the condition on a step, in the state before it;
* `store_accounts`: in a run whose steps all meet it, the counter is right whenever no task is at
  work, and what is subtracted from it is always in it.

The copy into the mapped file is kept, the paths it is written to disk by are not.
-/
import Dorodoro.Counting
import Dorodoro.Torrent
import Dorodoro.Transition
import Mathlib.Algebra.Order.BigOperators.Group.List

open LexicalPath Transition

namespace StoreBuffer

/-! ## Writers -/

/-- `usize` addition of an atomic. -/
def addUsize (a b : ℕ) : ℕ := (a + b) % 2 ^ 64

/-- `usize` subtraction of an atomic. -/
def subUsize (a b : ℕ) : ℕ := (a + 2 ^ 64 - b % 2 ^ 64) % 2 ^ 64

/-- `FileWriter`. -/
structure FileWriter where
  path : Path
  mmap : Option Bytes
  bufSize : ℕ
  fileLen : ℕ
  writeLen : ℕ
  deriving DecidableEq

/-- `FileWriter::new`. -/
def FileWriter.new (path : Path) (fileLen : ℕ) : FileWriter := ⟨path, none, 0, fileLen, 0⟩

/-- `FileWriter::flush`, with the answer of `mmap.flush()`: whether the file is complete, and the
bytes that were flushed. -/
def FileWriter.flush (synced : Bool) (w : FileWriter) : Option (FileWriter × Bool × ℕ) :=
  match w.mmap with
  | none => some (w, false, 0)
  | some _ =>
      if synced then
        let writeLen := w.writeLen + w.bufSize
        some ({ w with writeLen, bufSize := 0 }, decide (w.fileLen ≤ writeLen), w.bufSize)
      else none

/-- `FileWriter::write`, with the mapped file if it can be had: the writer, and whether all went
well.  The length is counted first. -/
def FileWriter.write (mapped : Option Bytes) (offset : ℕ) (data : Bytes) (w : FileWriter) :
    FileWriter × Bool :=
  let w := { w with bufSize := addUsize w.bufSize data.length }
  match w.mmap.or mapped with
  | none => (w, false)
  | some mmap =>
      let stop := offset + data.length
      if w.fileLen < stop ∨ mmap.length < stop then ({ w with mmap := some mmap }, false)
      else ({ w with mmap := some (writeAt mmap offset data) }, true)

/-! ## The map of writers -/

/-- `DashMap::get_mut`. -/
def lookup (path : Path) : List (Path × FileWriter) → Option FileWriter
  | [] => none
  | (p, w) :: entries => if p = path then some w else lookup path entries

/-- An entry is put into the map, or changed. -/
def insert (path : Path) (writer : FileWriter) : List (Path × FileWriter) → List (Path × FileWriter)
  | [] => [(path, writer)]
  | (p, w) :: entries =>
      if p = path then (p, writer) :: entries else (p, w) :: insert path writer entries

/-- `DashMap::remove`. -/
def remove (path : Path) : List (Path × FileWriter) → List (Path × FileWriter)
  | [] => []
  | (p, w) :: entries => if p = path then entries else (p, w) :: remove path entries

/-- What the writers count. -/
def total (entries : List (Path × FileWriter)) : ℕ := (entries.map fun e => e.2.bufSize).sum

/-- What one of them counts. -/
def sizeAt (path : Path) (entries : List (Path × FileWriter)) : ℕ :=
  ((lookup path entries).map FileWriter.bufSize).getD 0

theorem total_insert (path : Path) (writer : FileWriter) (entries : List (Path × FileWriter)) :
    total (insert path writer entries) + sizeAt path entries = total entries + writer.bufSize := by
  induction entries with
  | nil => simp [insert, total, sizeAt, lookup]
  | cons e entries ih =>
      obtain ⟨p, w⟩ := e
      simp only [total, sizeAt] at ih
      simp only [insert, total, sizeAt, lookup]
      split
      · simp only [List.map_cons, List.sum_cons, Option.map_some, Option.getD_some]
        omega
      · simp only [List.map_cons, List.sum_cons]
        omega

theorem total_remove (path : Path) (entries : List (Path × FileWriter)) :
    total (remove path entries) + sizeAt path entries = total entries := by
  induction entries with
  | nil => rfl
  | cons e entries ih =>
      obtain ⟨p, w⟩ := e
      simp only [total, sizeAt] at ih
      simp only [remove, total, sizeAt, lookup]
      split
      · simp only [List.map_cons, List.sum_cons, Option.map_some, Option.getD_some]
        omega
      · simp only [List.map_cons, List.sum_cons]
        omega

theorem sizeAt_le_total (path : Path) (entries : List (Path × FileWriter)) :
    sizeAt path entries ≤ total entries := by
  have := total_remove path entries
  omega

/-! ## Tasks -/

/-- Where a task is. -/
inductive Pc where
  /-- `write`: before the addition to the counter. -/
  | write (block : BlockInfo) (data : Bytes)
  /-- `write`: before the entry is written. -/
  | entry (block : BlockInfo) (data : Bytes)
  /-- `write`: before the counter is read. -/
  | load
  /-- `flush`: before the entry is taken. -/
  | flush (path : Path)
  /-- `flush`: before the subtraction, with the lock of the entry. -/
  | sub (path : Path) (remove : Bool) (n : ℕ)
  /-- `flush`: before the entry is removed. -/
  | remove (path : Path)
  /-- `flush_all`: in the loop, with the shards and the entries of the locked shard that are
  left. -/
  | flushAll (shards : List ℕ) (locked : Option ℕ) (todo removeKeys : List Path)
  /-- `flush_all`: before the next entry is removed, or the counter set to zero. -/
  | removeKeys (keys : List Path)
  | done
  deriving DecidableEq

/-- What a store is given. -/
structure Config where
  bufLimit : ℕ
  shardCount : ℕ
  /-- The shard of a key. -/
  shard : Path → ℕ

/-- The start of `flush_all`. -/
def Config.flushAll (C : Config) : Pc := .flushAll (List.range C.shardCount) none [] []

/-- The operations. -/
inductive Op where
  | write (block : BlockInfo) (data : Bytes)
  | flush (path : Path)
  | flushAll

/-- The start of an operation. -/
def Op.start (C : Config) : Op → Pc
  | .write block data => .write block data
  | .flush path => .flush path
  | .flushAll => C.flushAll

/-- The shard that a task has locked. -/
def Pc.locked (C : Config) : Pc → Option ℕ
  | .sub path _ _ => some (C.shard path)
  | .flushAll _ locked _ _ => locked
  | _ => none

/-- The store. -/
structure State where
  fileWriter : List (Path × FileWriter)
  bufSize : ℕ
  tasks : List Pc
  deriving DecidableEq

/-- The store at the start. -/
def State.init : State := ⟨[], 0, []⟩

/-- What the file system answers in a step. -/
structure Answer where
  mapped : Option Bytes
  synced : Bool

/-- No other task has locked the shard of the key. -/
def Free (C : Config) (s : State) (i : ℕ) (shard : ℕ) : Prop :=
  ∀ pc ∈ s.tasks.eraseIdx i, pc.locked C ≠ some shard

instance (C : Config) (s : State) (i shard : ℕ) : Decidable (Free C s i shard) :=
  inferInstanceAs (Decidable (∀ pc ∈ s.tasks.eraseIdx i, _))

/-- The next step of task `i`, which is at a place; the task is then at another one. -/
def next (C : Config) (s : State) (i : ℕ) (answer : Answer) : Pc → Option (State × Pc)
  | .write block data =>
      some ({ s with bufSize := addUsize s.bufSize block.len }, .entry block data)
  | .entry block data =>
      if Free C s i (C.shard block.filepath) then
        let writer := (lookup block.filepath s.fileWriter).getD (.new block.filepath block.fileLen)
        let (writer, ok) := writer.write answer.mapped block.start data
        some ({ s with fileWriter := insert block.filepath writer s.fileWriter },
          if ok then .load else .done)
      else none
  | .load => some (s, if C.bufLimit ≤ s.bufSize then C.flushAll else .done)
  | .flush path =>
      if Free C s i (C.shard path) then
        match lookup path s.fileWriter with
        | none => some (s, .done)
        | some writer =>
            match writer.flush answer.synced with
            | none => some (s, .done)
            | some (writer, remove, n) =>
                some ({ s with fileWriter := insert path writer s.fileWriter }, .sub path remove n)
      else none
  | .sub path remove n =>
      some ({ s with bufSize := subUsize s.bufSize n }, if remove then .remove path else .done)
  | .remove path =>
      if Free C s i (C.shard path) then
        some ({ s with fileWriter := remove path s.fileWriter }, .done)
      else none
  | .flushAll shards locked (path :: todo) keys =>
      match lookup path s.fileWriter with
      -- nobody else removes entries of a locked shard
      | none => none
      | some writer =>
          match writer.flush answer.synced with
          | none => some (s, .done)
          | some (writer, remove, _) =>
              some ({ s with fileWriter := insert path writer s.fileWriter },
                .flushAll shards locked todo (if remove then keys ++ [writer.path] else keys))
  | .flushAll (shard :: shards) _ [] keys =>
      if Free C s i shard then
        let todo := (s.fileWriter.map Prod.fst).filter fun path => C.shard path = shard
        some (s, .flushAll shards (some shard) todo keys)
      else none
  | .flushAll [] _ [] keys => some (s, .removeKeys keys)
  | .removeKeys (path :: keys) =>
      if Free C s i (C.shard path) then
        some ({ s with fileWriter := remove path s.fileWriter }, .removeKeys keys)
      else none
  | .removeKeys [] => some ({ s with bufSize := 0 }, .done)
  | .done => none

/-- An operation begins, or a task goes on. -/
inductive Act where
  | spawn (op : Op)
  | run (i : ℕ) (answer : Answer)

/-- One step of the store. -/
def step (C : Config) (s : State) : Act → Option State
  | .spawn op => some { s with tasks := s.tasks ++ [op.start C] }
  | .run i answer =>
      (s.tasks[i]?).bind fun pc =>
        (next C s i answer pc).map fun (s', pc') => { s' with tasks := s.tasks.set i pc' }

/-! ## The accounts -/

/-- What is in the counter and not in a writer: a write that has not reached its entry yet, and a
flush that has emptied its entry. -/
def Pc.due : Pc → ℕ
  | .entry block _ => block.len
  | .sub _ _ n => n
  | _ => 0

/-- The task is in `flush_all`. -/
def Pc.flushing : Pc → Bool
  | .flushAll .. => true
  | .removeKeys _ => true
  | _ => false

/-- What the writers count. -/
def State.buffered (s : State) : ℕ := total s.fileWriter

/-- What the tasks have in the counter and not in a writer. -/
def State.due (s : State) : ℕ := (s.tasks.map Pc.due).sum

/-- Another task is in `flush_all`. -/
def Others (s : State) (i : ℕ) : Prop := ∃ pc ∈ s.tasks.eraseIdx i, pc.flushing = true

instance (s : State) (i : ℕ) : Decidable (Others s i) :=
  inferInstanceAs (Decidable (∃ pc ∈ s.tasks.eraseIdx i, _))

/-- The condition on the next step of task `i`, which is at a place. -/
def KeepsAt (s : State) (i : ℕ) (answer : Answer) : Pc → Prop
  | .write block data => data.length = block.len ∧ s.bufSize + block.len < 2 ^ 64
  | .remove path => sizeAt path s.fileWriter = 0 ∨ Others s i
  | .flushAll _ _ (path :: _) _ =>
      ((lookup path s.fileWriter).bind (FileWriter.flush answer.synced)).isSome ∨
        s.bufSize = s.buffered + s.due ∨ Others s i
  | .removeKeys [] => s.buffered + s.due = 0
  | _ => True

/-- **The condition.**  A write brings as many bytes as its block has, and the counter does not
overflow; an entry that `flush` removes has nothing buffered again; a `flush_all` that fails at an
entry has not flushed anything; when `flush_all` sets the counter to zero nothing is buffered and
no task is between its two updates.  The second and the third may be otherwise while another
`flush_all` is at work. -/
def Keeps (s : State) : Act → Prop
  | .spawn _ => True
  | .run i answer => ∀ pc ∈ s.tasks[i]?, KeepsAt s i answer pc

instance (s : State) (i : ℕ) (answer : Answer) : (pc : Pc) → Decidable (KeepsAt s i answer pc)
  | .write _ _ => inferInstanceAs (Decidable (_ ∧ _))
  | .remove _ => inferInstanceAs (Decidable (_ ∨ _))
  | .flushAll _ _ (_ :: _) _ => inferInstanceAs (Decidable (_ ∨ _ ∨ _))
  | .removeKeys [] => inferInstanceAs (Decidable (_ = _))
  | .entry _ _ | .load | .flush _ | .sub _ _ _ | .flushAll _ _ [] _ | .removeKeys (_ :: _) | .done =>
      isTrue trivial

instance (s : State) (a : Act) : Decidable (Keeps s a) :=
  match a with
  | .spawn _ => isTrue trivial
  | .run i answer => inferInstanceAs (Decidable (∀ pc ∈ s.tasks[i]?, KeepsAt s i answer pc))

/-! ## One step -/

theorem addUsize_of_lt {a b : ℕ} (h : a + b < 2 ^ 64) : addUsize a b = a + b := Nat.mod_eq_of_lt h

theorem subUsize_of_le {a b : ℕ} (h : b ≤ a) (ha : a < 2 ^ 64) : subUsize a b = a - b := by
  unfold subUsize
  omega

/-- What is flushed was buffered. -/
theorem FileWriter.bufSize_of_flush {synced remove : Bool} {w w' : FileWriter} {n : ℕ}
    (h : w.flush synced = some (w', remove, n)) : w'.bufSize + n = w.bufSize := by
  unfold flush at h
  split at h
  · obtain ⟨rfl, -, rfl⟩ : w = w' ∧ false = remove ∧ 0 = n := by simpa using h
    rfl
  · split at h
    · obtain ⟨rfl, -, rfl⟩ := by simpa only [Option.some.injEq, Prod.mk.injEq] using h
      exact Nat.zero_add _
    · cases h

theorem FileWriter.bufSize_write (mapped : Option Bytes) (offset : ℕ) (data : Bytes)
    (w : FileWriter) :
    (w.write mapped offset data).1.bufSize = addUsize w.bufSize data.length := by
  unfold write
  dsimp only
  split
  · rfl
  · split <;> rfl

/-- A write that is on its way brings as many bytes as its block has. -/
def Pc.Fits : Pc → Prop
  | .entry block data => data.length = block.len
  | _ => True

/-- **The invariant.**  The counter is not below what it stands for, and not above it unless a
`flush_all` is going to set it. -/
structure Inv (entries : List (Path × FileWriter)) (bufSize : ℕ) (tasks : List Pc) : Prop where
  fits : ∀ pc ∈ tasks, pc.Fits
  le : total entries + (tasks.map Pc.due).sum ≤ bufSize
  lt : bufSize < 2 ^ 64
  settled : bufSize = total entries + (tasks.map Pc.due).sum ∨ ∃ pc ∈ tasks, pc.flushing = true

variable {C : Config} {s s' : State} {i : ℕ} {answer : Answer} {pc pc' : Pc} {others : List Pc}

theorem Inv.of_perm {entries : List (Path × FileWriter)} {bufSize : ℕ} {tasks tasks' : List Pc}
    (h : Inv entries bufSize tasks) (hp : tasks.Perm tasks') : Inv entries bufSize tasks' := by
  have hsum := (hp.map Pc.due).sum_eq
  refine ⟨fun pc hpc => h.fits pc (hp.mem_iff.mpr hpc), hsum ▸ h.le, h.lt, ?_⟩
  rcases h.settled with heq | ⟨pc, hpc, hflushing⟩
  · exact Or.inl (hsum ▸ heq)
  · exact Or.inr ⟨pc, hp.mem_iff.mp hpc, hflushing⟩

section OneTask

variable {entries entries' : List (Path × FileWriter)} {bufSize bufSize' : ℕ}

/-- The counter and what it stands for change alike. -/
theorem Inv.move (h : Inv entries bufSize (pc :: others)) (hfits : pc'.Fits)
    (hbalance : total entries' + pc'.due + bufSize = total entries + pc.due + bufSize')
    (hlt : bufSize' < 2 ^ 64) (hflushing : pc.flushing = true → pc'.flushing = true) :
    Inv entries' bufSize' (pc' :: others) := by
  have hle := h.le
  have hsettled := h.settled
  rw [List.map_cons, List.sum_cons] at hle hsettled
  refine ⟨?_, ?_, hlt, ?_⟩
  · exact List.forall_mem_cons.mpr ⟨hfits, (List.forall_mem_cons.mp h.fits).2⟩
  · rw [List.map_cons, List.sum_cons]
    omega
  · rw [List.map_cons, List.sum_cons, List.exists_mem_cons_iff]
    rcases hsettled with heq | hsome
    · exact Or.inl (by omega)
    · exact Or.inr (((List.exists_mem_cons_iff _ _ _).mp hsome).imp_left hflushing)

/-- The counter stays, and is right or will be set. -/
theorem Inv.settle (h : Inv entries bufSize (pc :: others)) (hfits : pc'.Fits)
    (hle : total entries' + pc'.due ≤ total entries + pc.due)
    (hsettled : bufSize = total entries' + (pc'.due + (others.map Pc.due).sum) ∨
      pc'.flushing = true ∨ ∃ pc ∈ others, pc.flushing = true) :
    Inv entries' bufSize (pc' :: others) := by
  have hold := h.le
  rw [List.map_cons, List.sum_cons] at hold
  refine ⟨?_, ?_, h.lt, ?_⟩
  · exact List.forall_mem_cons.mpr ⟨hfits, (List.forall_mem_cons.mp h.fits).2⟩
  · rw [List.map_cons, List.sum_cons]
    omega
  · rw [List.map_cons, List.sum_cons, List.exists_mem_cons_iff]
    exact hsettled

/-- What one task has in the counter is in it. -/
theorem Inv.due_le (h : Inv entries bufSize (pc :: others)) : total entries + pc.due ≤ bufSize := by
  have hle := h.le
  rw [List.map_cons, List.sum_cons] at hle
  omega

end OneTask

/-- What an entry holds after it was changed. -/
theorem total_insert_of_lookup {path : Path} {entries : List (Path × FileWriter)}
    {w : FileWriter} (h : lookup path entries = some w) (w' : FileWriter) :
    total (insert path w' entries) + w.bufSize = total entries + w'.bufSize := by
  have hinsert := total_insert path w' entries
  rwa [sizeAt, h] at hinsert

/-- The write of an entry: what is counted moves from the task to the writer. -/
theorem Inv.next_entry {block : BlockInfo} {data : Bytes}
    (h : Inv s.fileWriter s.bufSize (.entry block data :: others))
    (hn : StoreBuffer.next C s i answer (.entry block data) = some (s', pc')) :
    Inv s'.fileWriter s'.bufSize (pc' :: others) := by
  have hlen : data.length = block.len := h.fits _ List.mem_cons_self
  have hin : total s.fileWriter + block.len ≤ s.bufSize := h.due_le
  simp only [StoreBuffer.next] at hn
  obtain ⟨-, hn⟩ := of_ite_eq_some hn
  obtain ⟨rfl, rfl⟩ := Prod.mk.inj hn
  set writer := (lookup block.filepath s.fileWriter).getD (.new block.filepath block.fileLen)
    with hwriter
  have hold : writer.bufSize = sizeAt block.filepath s.fileWriter := by
    rw [hwriter, sizeAt]
    cases lookup block.filepath s.fileWriter <;> rfl
  have hnew : (writer.write answer.mapped block.start data).1.bufSize =
      writer.bufSize + block.len := by
    have hsmall := sizeAt_le_total block.filepath s.fileWriter
    have hmax := h.lt
    rw [FileWriter.bufSize_write, hlen, addUsize_of_lt (by omega)]
  have htotal := total_insert block.filepath (writer.write answer.mapped block.start data).1
    s.fileWriter
  refine h.move ?_ ?_ h.lt nofun
  · split <;> exact trivial
  · have hnone : Pc.due (if (writer.write answer.mapped block.start data).2 = true then .load
        else .done) = 0 := by split <;> rfl
    rw [hnone]
    show total (insert block.filepath (writer.write answer.mapped block.start data).1
      s.fileWriter) + 0 + s.bufSize = total s.fileWriter + block.len + s.bufSize
    omega

/-- The flush of a file: what is counted moves from the writer to the task. -/
theorem Inv.next_flush {path : Path} (h : Inv s.fileWriter s.bufSize (.flush path :: others))
    (hn : StoreBuffer.next C s i answer (.flush path) = some (s', pc')) :
    Inv s'.fileWriter s'.bufSize (pc' :: others) := by
  simp only [StoreBuffer.next] at hn
  split at hn
  · split at hn
    · obtain ⟨rfl, rfl⟩ := Prod.mk.inj (Option.some.inj hn)
      exact h.move trivial rfl h.lt nofun
    · next w hlookup =>
        split at hn
        · obtain ⟨rfl, rfl⟩ := Prod.mk.inj (Option.some.inj hn)
          exact h.move trivial rfl h.lt nofun
        · next w' remove n hflush =>
            obtain ⟨rfl, rfl⟩ := Prod.mk.inj (Option.some.inj hn)
            have htotal := total_insert_of_lookup hlookup w'
            have hbytes := FileWriter.bufSize_of_flush hflush
            refine h.move trivial ?_ h.lt nofun
            show total (insert path w' s.fileWriter) + n + s.bufSize =
              total s.fileWriter + 0 + s.bufSize
            omega
  · cases hn

/-- A step of `flush_all` in its loop. -/
theorem Inv.next_flushAll {shards : List ℕ} {locked : Option ℕ} {todo keys : List Path}
    (h : Inv s.fileWriter s.bufSize (.flushAll shards locked todo keys :: s.tasks.eraseIdx i))
    (hdue : s.due = ((s.tasks.eraseIdx i).map Pc.due).sum)
    (hk : KeepsAt s i answer (.flushAll shards locked todo keys))
    (hn : StoreBuffer.next C s i answer (.flushAll shards locked todo keys) = some (s', pc')) :
    Inv s'.fileWriter s'.bufSize (pc' :: s.tasks.eraseIdx i) := by
  cases todo with
  | cons path todo =>
      simp only [StoreBuffer.next] at hn
      split at hn
      · cases hn
      · next w hlookup =>
          split at hn
          · next hfails =>
              -- the function returns with the error
              obtain ⟨rfl, rfl⟩ := Prod.mk.inj (Option.some.inj hn)
              rcases hk with hok | hright | hothers
              · rw [hlookup, Option.bind_some, hfails] at hok
                cases hok
              · refine h.settle trivial le_rfl (Or.inl ?_)
                rw [hright, hdue]
                show _ = total s.fileWriter + (0 + _)
                rw [Nat.zero_add]
                rfl
              · exact h.settle trivial le_rfl (Or.inr (Or.inr hothers))
          · next w' remove n hflush =>
              obtain ⟨rfl, rfl⟩ := Prod.mk.inj (Option.some.inj hn)
              have htotal := total_insert_of_lookup hlookup w'
              have hbytes := FileWriter.bufSize_of_flush hflush
              refine h.settle trivial ?_ (Or.inr (Or.inl rfl))
              show total (insert path w' s.fileWriter) + 0 ≤ total s.fileWriter + 0
              omega
  | nil =>
      cases shards with
      | cons shard shards =>
          simp only [StoreBuffer.next] at hn
          obtain ⟨-, hn⟩ := of_ite_eq_some hn
          obtain ⟨rfl, rfl⟩ := Prod.mk.inj hn
          exact h.move trivial rfl h.lt fun _ => rfl
      | nil =>
          obtain ⟨rfl, rfl⟩ := Prod.mk.inj (Option.some.inj hn)
          exact h.move trivial rfl h.lt fun _ => rfl

/-- **One step** of a task keeps the invariant under the condition. -/
theorem Inv.next (h : Inv s.fileWriter s.bufSize (pc :: s.tasks.eraseIdx i))
    (hdue : s.due = pc.due + ((s.tasks.eraseIdx i).map Pc.due).sum)
    (hk : KeepsAt s i answer pc) (hn : next C s i answer pc = some (s', pc')) :
    Inv s'.fileWriter s'.bufSize (pc' :: s.tasks.eraseIdx i) := by
  cases pc with
  | write block data =>
      obtain ⟨hlen, hmax⟩ := hk
      obtain ⟨rfl, rfl⟩ := Prod.mk.inj (Option.some.inj hn)
      have hadd := addUsize_of_lt hmax
      refine h.move hlen ?_ (hadd ▸ hmax) nofun
      show total s.fileWriter + block.len + s.bufSize =
        total s.fileWriter + 0 + addUsize s.bufSize block.len
      omega
  | entry block data => exact h.next_entry hn
  | load =>
      obtain ⟨rfl, rfl⟩ := Prod.mk.inj (Option.some.inj hn)
      refine h.move ?_ ?_ h.lt nofun
      · split <;> exact trivial
      · split <;> rfl
  | flush path => exact h.next_flush hn
  | sub path remove n =>
      obtain ⟨rfl, rfl⟩ := Prod.mk.inj (Option.some.inj hn)
      have hin : total s.fileWriter + n ≤ s.bufSize := h.due_le
      have hsub := subUsize_of_le (by omega : n ≤ s.bufSize) h.lt
      have hmax := h.lt
      have hnone : Pc.due (if remove = true then .remove path else .done) = 0 := by split <;> rfl
      refine h.move ?_ ?_ ?_ nofun
      · split <;> exact trivial
      · rw [hnone]
        show total s.fileWriter + 0 + s.bufSize =
          total s.fileWriter + n + subUsize s.bufSize n
        omega
      · show subUsize s.bufSize n < _
        omega
  | remove path =>
      simp only [StoreBuffer.next] at hn
      obtain ⟨-, hn⟩ := of_ite_eq_some hn
      obtain ⟨rfl, rfl⟩ := Prod.mk.inj hn
      have htotal := total_remove path s.fileWriter
      rcases hk with hnone | hothers
      · refine h.move trivial ?_ h.lt nofun
        show total (remove path s.fileWriter) + 0 + s.bufSize =
          total s.fileWriter + 0 + s.bufSize
        omega
      · refine h.settle trivial ?_ (Or.inr (Or.inr hothers))
        show total (remove path s.fileWriter) + 0 ≤ total s.fileWriter + 0
        omega
  | flushAll shards locked todo keys =>
      exact h.next_flushAll (hdue.trans (Nat.zero_add _)) hk hn
  | removeKeys keys =>
      cases keys with
      | cons path keys =>
          simp only [StoreBuffer.next] at hn
          obtain ⟨-, hn⟩ := of_ite_eq_some hn
          obtain ⟨rfl, rfl⟩ := Prod.mk.inj hn
          have htotal := total_remove path s.fileWriter
          refine h.settle trivial ?_ (Or.inr (Or.inl rfl))
          show total (remove path s.fileWriter) + 0 ≤ total s.fileWriter + 0
          omega
      | nil =>
          -- nothing is buffered, and zero is right
          obtain ⟨rfl, rfl⟩ := Prod.mk.inj (Option.some.inj hn)
          have hzero : s.buffered + s.due = 0 := hk
          rw [hdue] at hzero
          have hsum : total s.fileWriter +
              ((Pc.done :: s.tasks.eraseIdx i).map Pc.due).sum = 0 := by
            rw [List.map_cons, List.sum_cons]
            show s.buffered + (0 + _) = 0
            omega
          refine ⟨?_, hsum.le, by norm_num, Or.inl hsum.symm⟩
          exact List.forall_mem_cons.mpr ⟨trivial, (List.forall_mem_cons.mp h.fits).2⟩
  | done => cases hn

/-- **A step of the store** keeps the invariant under the condition. -/
theorem Inv.step {a : Act} (h : Inv s.fileWriter s.bufSize s.tasks) (hk : Keeps s a)
    (hs : step C s a = some s') : Inv s'.fileWriter s'.bufSize s'.tasks := by
  cases a with
  | spawn op =>
      obtain rfl := Option.some.inj hs
      have hnew : (op.start C).Fits ∧ (op.start C).due = 0 := by
        cases op <;> exact ⟨trivial, rfl⟩
      have hcons : Inv s.fileWriter s.bufSize (op.start C :: s.tasks) := by
        have hsum : ((op.start C :: s.tasks).map Pc.due).sum = (s.tasks.map Pc.due).sum := by
          rw [List.map_cons, List.sum_cons, hnew.2, Nat.zero_add]
        refine ⟨List.forall_mem_cons.mpr ⟨hnew.1, h.fits⟩, hsum ▸ h.le, h.lt, hsum ▸ ?_⟩
        rcases h.settled with heq | ⟨pc, hpc, hflushing⟩
        · exact Or.inl heq
        · exact Or.inr ⟨pc, List.mem_cons_of_mem _ hpc, hflushing⟩
      exact hcons.of_perm (List.perm_append_singleton _ _).symm
  | run i answer =>
      obtain ⟨pc, hpc, hs⟩ := Option.bind_eq_some_iff.mp hs
      obtain ⟨⟨s₁, pc'⟩, hnext, rfl⟩ := Option.map_eq_some_iff.mp hs
      have hperm := Counting.cons_eraseIdx_perm hpc
      have hdue : s.due = pc.due + ((s.tasks.eraseIdx i).map Pc.due).sum :=
        (hperm.map Pc.due).sum_eq.symm
      have hlt := (List.getElem?_eq_some_iff.mp hpc).1
      have hset : (pc' :: s.tasks.eraseIdx i).Perm (s.tasks.set i pc') := by
        have hat : (s.tasks.set i pc')[i]? = some pc' := List.getElem?_set_self hlt
        have hperm' := Counting.cons_eraseIdx_perm hat
        rwa [List.eraseIdx_set_eq] at hperm'
      exact ((h.of_perm hperm.symm).next hdue (hk pc hpc) hnext).of_perm hset

theorem inv_init : Inv State.init.fileWriter State.init.bufSize State.init.tasks :=
  ⟨nofun, le_rfl, by norm_num [State.init], Or.inl rfl⟩

/-! ## A run -/

/-- All operations have ended. -/
def Quiescent (s : State) : Prop := ∀ pc ∈ s.tasks, pc = .done

instance (s : State) : Decidable (Quiescent s) :=
  inferInstanceAs (Decidable (∀ pc ∈ s.tasks, pc = .done))

/-- **The accounts of the store.**  In a run whose steps all meet the condition, in every order of
the tasks and with all failures of the file system: whenever all operations have ended, the counter
is the sum over the writers, and what a `flush` is about to subtract is in the counter. -/
theorem store_accounts (C : Config) {as : List Act} {s : State}
    (hrun : Run (step C) Keeps .init as s) :
    (Quiescent s → s.bufSize = s.buffered) ∧
      ∀ path remove n, .sub path remove n ∈ s.tasks → n ≤ s.bufSize := by
  have hinv : Inv s.fileWriter s.bufSize s.tasks :=
    hrun.invariant (I := fun s => Inv s.fileWriter s.bufSize s.tasks) inv_init
      fun _ _ _ h hk hs => h.step hk hs
  refine ⟨fun hquiet => ?_, fun path remove n hmem => ?_⟩
  · have hdue : ((s.tasks.map Pc.due).sum) = 0 := by
      refine List.sum_eq_zero fun x hx => ?_
      obtain ⟨pc, hpc, rfl⟩ := List.mem_map.mp hx
      rw [hquiet pc hpc]
      rfl
    rcases hinv.settled with heq | ⟨pc, hpc, hflushing⟩
    · rw [heq, hdue]
      rfl
    · rw [hquiet pc hpc] at hflushing
      cases hflushing
  · have hle := List.single_le_sum (fun x _ => Nat.zero_le x) n
      (List.mem_map_of_mem (f := Pc.due) hmem)
    exact (hle.trans (Nat.le_add_left _ _)).trans hinv.le

/-- One shard, and a limit that is not reached. -/
def oneShard : Config := ⟨1000, 1, fun _ => 0⟩

/-- A block of the file `a`. -/
def blockOfA (len : ℕ) : BlockInfo := ⟨.ofString "a", 0, len, 8⟩

/-- The file system maps a file of eight bytes and flushes it. -/
def answers : Answer := ⟨some (List.replicate 8 0), true⟩

/-- Two writes and a flush of the same file: the second write is counted and not in its entry yet
when the first one is flushed. -/
def overlapping : List Act :=
  [.spawn (.write (blockOfA 5) [1, 2, 3, 4, 5]), .run 0 answers, .run 0 answers,
    .spawn (.write (blockOfA 3) [6, 7, 8]), .run 1 answers,
    .spawn (.flush (.ofString "a")), .run 2 answers]

theorem store_accounts_overlapping : ∃ s, Run (step oneShard) Keeps .init overlapping s ∧
    s.bufSize = 8 ∧ .sub (.ofString "a") false 5 ∈ s.tasks ∧ 5 ≤ s.bufSize := by
  have hexec : (execIf (step oneShard) Keeps .init overlapping).map
      (fun s => (s.bufSize, decide (.sub (.ofString "a") false 5 ∈ s.tasks))) = some (8, true) := by
    decide
  obtain ⟨s, hrun, hview⟩ := Run.exists_of_execIf hexec
  simp only [Prod.mk.injEq, decide_eq_true_eq] at hview
  exact ⟨s, hrun, hview.1, hview.2, (store_accounts oneShard hrun).2 _ _ _ hview.2⟩

/-- A write that fails, and then a `flush_all`. -/
def failedWrite : List Act :=
  [.spawn (.write (blockOfA 5) [1, 2, 3, 4, 5]), .run 0 answers, .run 0 ⟨none, true⟩,
    .spawn .flushAll, .run 1 answers, .run 1 answers, .run 1 answers, .run 1 answers]

/-- The next write of the file, and a flush up to its subtraction. -/
def nextWrite : List Act :=
  [.spawn (.write (blockOfA 3) [6, 7, 8]), .run 2 answers, .run 2 answers, .run 2 answers,
    .spawn (.flush (.ofString "a")), .run 3 answers]

/-- The file could not be mapped, so `flush_all` leaves its five bytes in the writer and sets the
counter to zero.  The flush after the next write subtracts eight from three. -/
theorem store_loses_count :
    (∃ s, FreeRun (step oneShard) .init failedWrite s ∧ Quiescent s ∧ s.bufSize = 0 ∧
      s.buffered = 5) ∧
    (∃ s, FreeRun (step oneShard) .init (failedWrite ++ nextWrite) s ∧
      .sub (.ofString "a") true 8 ∈ s.tasks ∧ s.bufSize = 3) ∧
    ∃ s, FreeRun (step oneShard) .init (failedWrite ++ nextWrite ++ [.run 3 answers]) s ∧
      s.bufSize = 2 ^ 64 - 5 := by
  refine ⟨?_, ?_, ?_⟩
  · have hexec : (exec (step oneShard) .init failedWrite).map
        (fun s => (decide (Quiescent s), s.bufSize, s.buffered)) = some (true, 0, 5) := by decide
    obtain ⟨s, hrun, hview⟩ := Run.exists_of_exec hexec
    simp only [Prod.mk.injEq, decide_eq_true_eq] at hview
    exact ⟨s, hrun, hview⟩
  · have hexec : (exec (step oneShard) .init (failedWrite ++ nextWrite)).map
        (fun s => (decide (.sub (.ofString "a") true 8 ∈ s.tasks), s.bufSize)) =
        some (true, 3) := by decide
    obtain ⟨s, hrun, hview⟩ := Run.exists_of_exec hexec
    simp only [Prod.mk.injEq, decide_eq_true_eq] at hview
    exact ⟨s, hrun, hview⟩
  · have hexec : (exec (step oneShard) .init (failedWrite ++ nextWrite ++ [.run 3 answers])).map
        State.bufSize = some (2 ^ 64 - 5) := by decide
    obtain ⟨s, hrun, hview⟩ := Run.exists_of_exec hexec
    exact ⟨s, hrun, hview⟩

end StoreBuffer
