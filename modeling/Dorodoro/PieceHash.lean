/-
# The hash of a piece

`Store::checkout` (`doro/src/bt/store.rs`) hashes the blocks of a piece chunk by chunk: for each
block it flushes and opens the file, moves to the start of the block and reads, at most a chunk
at a time, until the length of the block is used up.

* `Digest` is the incremental hash function, a parameter, and `Files` what the file system holds;
  how much each `read` hands over is free;
* `readLoop` is the inner loop, bounded by fuel, and `checkout` the function;
* `readLoop_eq` says that a block that is there is hashed as a whole, however it is read, and
  `readLoop_eq_none` that the loop does not end where the file does;
* `checkout_iff` says when the function does what it is for.
-/
import Dorodoro.Torrent

open LexicalPath

namespace PieceHash

/-! ## The environment -/

/-- An incremental hash function (the crate `sha1`): what is hashed is the concatenation of the
pieces it was updated with. -/
structure Digest where
  State : Type
  new : State
  update : State → Bytes → State
  finalize : State → Bytes
  hash : Bytes → Bytes
  finalize_foldl : ∀ chunks : List Bytes, finalize (chunks.foldl update new) = hash chunks.flatten

/-- The files: whether `Store::flush` succeeds for a path, and what can be read there. -/
structure Files where
  flush : Path → Bool
  contents : Path → Option Bytes

/-- Flush the file of a block, open it and move to the start of the block, which is a signed
number for the system: what the file holds, if all three succeed. -/
def Files.access (f : Files) (block : BlockInfo) : Option Bytes :=
  if f.flush block.filepath then
    (f.contents block.filepath).bind fun bytes =>
      if block.start < 2 ^ 63 then some bytes else none
  else none

/-- The number of bytes that a `read` hands over: as many as it likes, but one at least, if there
is room for one and the file has one left.  A `read` that fails, which would end the function as a
file that cannot be opened does, is not among them. -/
def readLen (wish room left : ℕ) : ℕ := min (max 1 wish) (min room left)

/-! ## The function -/

section Checkout

variable (H : Digest) (capacity : ℕ) (reads : ℕ → ℕ)

/-- The loop over a block, with at most `fuel` turns, from read number `k` on: the number of the
next read, and the hasher. -/
def readLoop (bytes : Bytes) : ℕ → ℕ → ℕ → ℕ → H.State → Option (ℕ × H.State)
  | _, k, _, 0, hasher => some (k, hasher)
  | 0, _, _, _ + 1, _ => none
  | fuel + 1, k, pos, len + 1, hasher =>
      let n := readLen (reads k) (min capacity (len + 1)) (bytes.length - pos)
      readLoop bytes fuel (k + 1) (pos + n) (len + 1 - n)
        (H.update hasher ((bytes.drop pos).take n))

/-- The loop over the blocks. -/
def hashBlocks (f : Files) (fuel : ℕ) :
    List BlockInfo → ℕ → H.State → Option (Except Unit (ℕ × H.State))
  | [], k, hasher => some (.ok (k, hasher))
  | block :: blocks, k, hasher =>
      match f.access block with
      | none => some (.error ())
      | some bytes =>
          (readLoop H capacity reads bytes fuel k block.start block.len hasher).bind
            fun (k', hasher') => hashBlocks f fuel blocks k' hasher'

/-- `Store::checkout`, with the permit at hand: nothing if the fuel does not suffice, else `Err`
or whether the hash is the expected one. -/
def checkout (f : Files) (src : List BlockInfo) (hash : Bytes) (fuel : ℕ) :
    Option (Except Unit Bool) :=
  (hashBlocks H capacity reads f fuel src 0 H.new).map fun r =>
    r.map fun (_, hasher) => decide (H.finalize hasher = hash)

end Checkout

/-! ## What it is for -/

/-- The file of a block can be read, and holds all of the block. -/
def Present (f : Files) (block : BlockInfo) : Prop :=
  ∃ bytes, f.access block = some bytes ∧
    (0 < block.len → block.start + block.len ≤ bytes.length)

/-- The bytes of a block. -/
def requested (f : Files) (block : BlockInfo) : Bytes :=
  (((f.access block).getD []).drop block.start).take block.len

/-- The function returns, and it returns `Ok(true)` exactly if all blocks are there and their
bytes have the expected hash. -/
def Decides (H : Digest) (capacity : ℕ) (reads : ℕ → ℕ) (f : Files) (src : List BlockInfo)
    (hash : Bytes) : Prop :=
  ∃ r, (∃ fuel, checkout H capacity reads f src hash fuel = some r) ∧
    (r = .ok true ↔ (∀ block ∈ src, Present f block) ∧ H.hash (src.flatMap (requested f)) = hash)

/-- The first block that is not there is one whose file cannot be read at all. -/
def StopsAtMissing (f : Files) (src : List BlockInfo) : Prop :=
  ∀ before block after, src = before ++ block :: after → (∀ b ∈ before, Present f b) →
    (f.access block).isSome → Present f block

/-! ## One block -/

section Block

variable {H : Digest} {capacity : ℕ} {reads : ℕ → ℕ} {bytes : Bytes}

theorem readLen_le_room (wish room left : ℕ) : readLen wish room left ≤ room := by
  unfold readLen
  omega

theorem readLen_le_left (wish room left : ℕ) : readLen wish room left ≤ left := by
  unfold readLen
  omega

theorem readLen_pos {room left : ℕ} (wish : ℕ) (hroom : 0 < room) (hleft : 0 < left) :
    0 < readLen wish room left := by
  unfold readLen
  omega

/-- An empty block needs no read. -/
theorem readLoop_zero (fuel k pos : ℕ) (hasher : H.State) :
    readLoop H capacity reads bytes fuel k pos 0 hasher = some (k, hasher) := by
  cases fuel with
  | zero => rfl
  | succ fuel => rfl

/-- **A block that is there**: whatever the reads hand over, the loop ends and the hasher was
given the bytes of the block, in some pieces. -/
theorem readLoop_eq (hcap : 0 < capacity) {fuel : ℕ} :
    ∀ {k pos len : ℕ} {hasher : H.State}, len ≤ fuel → (0 < len → pos + len ≤ bytes.length) →
      ∃ (k' : ℕ) (chunks : List Bytes), readLoop H capacity reads bytes fuel k pos len hasher =
          some (k', chunks.foldl H.update hasher) ∧
        chunks.flatten = (bytes.drop pos).take len := by
  induction fuel with
  | zero =>
      intro k pos len hasher hfuel _
      have hzero : len = 0 := Nat.le_zero.mp hfuel
      subst hzero
      exact ⟨k, [], readLoop_zero 0 k pos hasher, List.take_zero.symm⟩
  | succ fuel ih =>
      intro k pos len hasher hfuel hlen
      match len with
      | 0 => exact ⟨k, [], readLoop_zero _ k pos hasher, List.take_zero.symm⟩
      | len + 1 =>
          have hend := hlen (Nat.succ_pos len)
          obtain ⟨n, hn⟩ : ∃ n, readLen (reads k) (min capacity (len + 1)) (bytes.length - pos) = n :=
            ⟨_, rfl⟩
          have hroom : n ≤ min capacity (len + 1) := hn ▸ readLen_le_room _ _ _
          have hpos : 0 < n := hn ▸ readLen_pos (reads k) (by omega) (by omega)
          obtain ⟨k', chunks, hloop, hchunks⟩ := @ih (k + 1) (pos + n) (len + 1 - n)
            (H.update hasher ((bytes.drop pos).take n)) (by omega) (fun _ => by omega)
          refine ⟨k', (bytes.drop pos).take n :: chunks, ?_, ?_⟩
          · rw [readLoop, hn]
            exact hloop
          · rw [List.flatten_cons, hchunks, ← List.drop_drop, ← List.take_add]
            congr 1
            omega

/-- **A block that is not there**: behind the end of the file a `read` hands over nothing, and
the loop goes on. -/
theorem readLoop_eq_none {fuel : ℕ} :
    ∀ {k pos len : ℕ} {hasher : H.State}, 0 < len → bytes.length < pos + len →
      readLoop H capacity reads bytes fuel k pos len hasher = none := by
  induction fuel with
  | zero =>
      intro k pos len hasher hpos _
      match len with
      | len + 1 => rfl
  | succ fuel ih =>
      intro k pos len hasher hpos hshort
      match len with
      | len + 1 =>
          have hroom := readLen_le_room (reads k) (min capacity (len + 1)) (bytes.length - pos)
          have hleft := readLen_le_left (reads k) (min capacity (len + 1)) (bytes.length - pos)
          rw [readLoop]
          exact ih (by omega) (by omega)

end Block

/-- More fuel changes nothing. -/
theorem readLoop_mono {H : Digest} {capacity : ℕ} {reads : ℕ → ℕ} {bytes : Bytes} {fuel : ℕ} :
    ∀ {fuel' k pos len : ℕ} {hasher : H.State} {r : ℕ × H.State}, fuel ≤ fuel' →
      readLoop H capacity reads bytes fuel k pos len hasher = some r →
      readLoop H capacity reads bytes fuel' k pos len hasher = some r := by
  induction fuel with
  | zero =>
      intro fuel' k pos len hasher r _ h
      match len with
      | 0 => rwa [readLoop_zero] at h ⊢
      | len + 1 => cases h
  | succ fuel ih =>
      intro fuel' k pos len hasher r hle h
      match len with
      | 0 => rwa [readLoop_zero] at h ⊢
      | len + 1 =>
          obtain ⟨fuel', rfl⟩ := Nat.exists_eq_add_of_le' (Nat.one_le_of_lt hle)
          rw [readLoop] at h ⊢
          exact ih (Nat.le_of_succ_le_succ hle) h

/-! ## All blocks -/

section Blocks

variable {H : Digest} {capacity : ℕ} {reads : ℕ → ℕ} {f : Files} {fuel k : ℕ}
  {hasher : H.State} {src before after : List BlockInfo} {block : BlockInfo}

/-- Fuel enough for every block. -/
def enough (src : List BlockInfo) : ℕ := (src.map BlockInfo.len).sum

/-- A block that is there is read, in some pieces, and the function goes on with the others. -/
theorem hashBlocks_cons (reads : ℕ → ℕ) (hcap : 0 < capacity) (hblock : Present f block)
    (hfuel : block.len ≤ fuel) (k : ℕ) (hasher : H.State) :
    ∃ (k' : ℕ) (chunks : List Bytes), chunks.flatten = requested f block ∧
      ∀ rest, hashBlocks H capacity reads f fuel (block :: rest) k hasher =
        hashBlocks H capacity reads f fuel rest k' (chunks.foldl H.update hasher) := by
  obtain ⟨bytes, haccess, hlen⟩ := hblock
  obtain ⟨k', chunks, hloop, hchunks⟩ := @readLoop_eq H capacity reads bytes hcap fuel k
    block.start block.len hasher hfuel hlen
  refine ⟨k', chunks, ?_, fun rest => ?_⟩
  · rw [hchunks, requested, haccess]
    rfl
  · rw [hashBlocks, haccess]
    show (readLoop H capacity reads bytes fuel k block.start block.len hasher).bind _ = _
    rw [hloop]
    rfl

/-- **Blocks that are there** come to one string of bytes, in some pieces, and the function goes on
with the others. -/
theorem hashBlocks_append (reads : ℕ → ℕ) (hcap : 0 < capacity)
    (hbefore : ∀ b ∈ before, Present f b) (hfuel : enough before ≤ fuel) (k : ℕ) (hasher : H.State) :
    ∃ (k' : ℕ) (chunks : List Bytes), chunks.flatten = before.flatMap (requested f) ∧
      ∀ rest, hashBlocks H capacity reads f fuel (before ++ rest) k hasher =
        hashBlocks H capacity reads f fuel rest k' (chunks.foldl H.update hasher) := by
  induction before generalizing k hasher with
  | nil => exact ⟨k, [], rfl, fun _ => rfl⟩
  | cons block before ih =>
      have hfuel : block.len + enough before ≤ fuel := hfuel
      obtain ⟨hblock, hbefore⟩ := List.forall_mem_cons.mp hbefore
      obtain ⟨k₁, chunks₁, hchunks₁, hrun₁⟩ := hashBlocks_cons reads hcap hblock
        (Nat.le_of_add_right_le hfuel) k hasher
      obtain ⟨k₂, chunks₂, hchunks₂, hrun₂⟩ := ih hbefore (Nat.le_of_add_left_le hfuel) k₁
        (chunks₁.foldl H.update hasher)
      refine ⟨k₂, chunks₁ ++ chunks₂, ?_, fun rest => ?_⟩
      · rw [List.flatten_append, hchunks₁, hchunks₂, List.flatMap_cons]
      · rw [List.cons_append, hrun₁, hrun₂, List.foldl_append]

/-- A block whose file cannot be read ends the function. -/
theorem hashBlocks_error (hcap : 0 < capacity) (hbefore : ∀ b ∈ before, Present f b)
    (hblock : f.access block = none) (hfuel : enough before ≤ fuel) :
    hashBlocks H capacity reads f fuel (before ++ block :: after) k hasher = some (.error ()) := by
  obtain ⟨k', chunks, -, hrun⟩ := hashBlocks_append reads hcap hbefore hfuel k hasher
  rw [hrun, hashBlocks, hblock]

/-- A block whose file is too short is never left. -/
theorem hashBlocks_none {bytes : Bytes} (hblock : f.access block = some bytes)
    (hshort : ¬ Present f block) (hbefore : ∀ b ∈ before, (f.access b).isSome) :
    hashBlocks H capacity reads f fuel (before ++ block :: after) k hasher = none := by
  induction before generalizing k hasher with
  | nil =>
      have hlen : 0 < block.len ∧ bytes.length < block.start + block.len := by
        by_contra hnot
        exact hshort ⟨bytes, hblock, fun hpos => by omega⟩
      rw [List.nil_append, hashBlocks, hblock]
      show (readLoop H capacity reads bytes fuel k block.start block.len hasher).bind _ = none
      rw [readLoop_eq_none hlen.1 hlen.2]
      rfl
  | cons b before ih =>
      obtain ⟨bytes', haccess⟩ := Option.isSome_iff_exists.mp (hbefore b List.mem_cons_self)
      rw [List.cons_append, hashBlocks, haccess]
      show (readLoop H capacity reads bytes' fuel k b.start b.len hasher).bind _ = none
      cases readLoop H capacity reads bytes' fuel k b.start b.len hasher with
      | none => rfl
      | some r => exact ih fun b hb => hbefore b (List.mem_cons_of_mem _ hb)

theorem hashBlocks_mono {fuel' : ℕ} (hle : fuel ≤ fuel') {r : Except Unit (ℕ × H.State)}
    (h : hashBlocks H capacity reads f fuel src k hasher = some r) :
    hashBlocks H capacity reads f fuel' src k hasher = some r := by
  induction src generalizing k hasher with
  | nil => exact h
  | cons block src ih =>
      rw [hashBlocks] at h ⊢
      cases haccess : f.access block with
      | none =>
          rw [haccess] at h
          exact h
      | some bytes =>
          rw [haccess] at h
          obtain ⟨⟨k', hasher'⟩, hloop, hrest⟩ := Option.bind_eq_some_iff.mp h
          exact Option.bind_eq_some_iff.mpr ⟨_, readLoop_mono hle hloop, ih hrest⟩

/-- Either all blocks are there, or there is a first one that is not. -/
theorem all_present_or_first (f : Files) (src : List BlockInfo) :
    (∀ b ∈ src, Present f b) ∨
      ∃ before block after, src = before ++ block :: after ∧ (∀ b ∈ before, Present f b) ∧
        ¬ Present f block := by
  induction src with
  | nil => exact Or.inl fun b hb => absurd hb List.not_mem_nil
  | cons b src ih =>
      by_cases hb : Present f b
      · rcases ih with hall | ⟨before, block, after, rfl, hbefore, hblock⟩
        · exact Or.inl (List.forall_mem_cons.mpr ⟨hb, hall⟩)
        · exact Or.inr ⟨b :: before, block, after, rfl, List.forall_mem_cons.mpr ⟨hb, hbefore⟩,
            hblock⟩
      · exact Or.inr ⟨[], b, src, rfl, fun x hx => absurd hx List.not_mem_nil, hb⟩

end Blocks

/-! ## The function -/

section Function

variable {H : Digest} {capacity : ℕ} {reads : ℕ → ℕ} {f : Files} {src : List BlockInfo}
  {hash : Bytes}

/-- The function has one result, whatever fuel it takes to find it. -/
theorem checkout_unique {fuel fuel' : ℕ} {r r' : Except Unit Bool}
    (h : checkout H capacity reads f src hash fuel = some r)
    (h' : checkout H capacity reads f src hash fuel' = some r') : r = r' := by
  obtain ⟨x, hx, rfl⟩ := Option.map_eq_some_iff.mp h
  obtain ⟨x', hx', rfl⟩ := Option.map_eq_some_iff.mp h'
  have hmore := hashBlocks_mono (Nat.le_max_left fuel fuel') hx
  have hmore' := hashBlocks_mono (Nat.le_max_right fuel fuel') hx'
  rw [hmore, Option.some.injEq] at hmore'
  rw [hmore']

theorem stopsAtMissing_of_present (hsrc : ∀ b ∈ src, Present f b) : StopsAtMissing f src := by
  rintro before block after rfl - -
  exact hsrc block (List.mem_append_right before List.mem_cons_self)

/-- All blocks are there: the hash of their bytes is compared. -/
theorem checkout_of_present (hcap : 0 < capacity) (hsrc : ∀ b ∈ src, Present f b) :
    checkout H capacity reads f src hash (enough src) =
      some (.ok (decide (H.hash (src.flatMap (requested f)) = hash))) := by
  obtain ⟨k, chunks, hchunks, hrun⟩ := hashBlocks_append reads hcap hsrc le_rfl 0 H.new
  have hend := hrun []
  rw [List.append_nil] at hend
  rw [checkout, hend]
  show some (Except.ok (decide (H.finalize (chunks.foldl H.update H.new) = hash))) = _
  rw [H.finalize_foldl, hchunks]

/-- **When the check decides.**  For every list of blocks, all contents of the files, every chunk
size and however the reads are cut: the function returns, and says whether the blocks are there
with the expected hash, if and only if the first block that is not there, if any, is one whose
file cannot be read at all.  At the end of a file that is too short it never returns. -/
theorem checkout_iff (H : Digest) (capacity : ℕ) (hcap : 0 < capacity) (reads : ℕ → ℕ) (f : Files)
    (src : List BlockInfo) (hash : Bytes) :
    Decides H capacity reads f src hash ↔ StopsAtMissing f src := by
  constructor
  · rintro ⟨r, ⟨fuel, hrun⟩, -⟩ before block after rfl hbefore haccess
    by_contra hshort
    obtain ⟨bytes, hbytes⟩ := Option.isSome_iff_exists.mp haccess
    have hopen : ∀ b ∈ before, (f.access b).isSome := by
      intro b hb
      obtain ⟨bytes, hb, -⟩ := hbefore b hb
      rw [hb]
      rfl
    rw [checkout, hashBlocks_none hbytes hshort hopen] at hrun
    cases hrun
  · intro hstop
    rcases all_present_or_first f src with hall | ⟨before, block, after, rfl, hbefore, hblock⟩
    · refine ⟨_, ⟨_, checkout_of_present hcap hall⟩, ?_⟩
      simp only [Except.ok.injEq, decide_eq_true_eq]
      exact ⟨fun h => ⟨hall, h⟩, fun h => h.2⟩
    · have hmissing : f.access block = none := by
        by_contra hne
        exact hblock (hstop before block after rfl hbefore (Option.isSome_iff_ne_none.mpr hne))
      have hrun : checkout H capacity reads f (before ++ block :: after) hash (enough before) =
          some (.error ()) := by
        rw [checkout, hashBlocks_error hcap hbefore hmissing le_rfl]
        rfl
      refine ⟨_, ⟨_, hrun⟩, iff_of_false (fun h => by cases h) fun h => ?_⟩
      exact hblock (h.1 block (List.mem_append_right before List.mem_cons_self))

end Function

/-- `abc`. -/
def abc : Bytes := [97, 98, 99]

/-- The SHA-1 of `abc`. -/
def hashOfAbc : Bytes :=
  [0xa9, 0x99, 0x3e, 0x36, 0x47, 0x06, 0x81, 0x6a, 0xba, 0x3e, 0x25, 0x71, 0x78, 0x50, 0xc2, 0x6c,
    0x9c, 0xd0, 0xd8, 0x9d]

/-- A digest that collects what it was updated with, and knows the hash of `abc`. -/
def digestOfAbc : Digest where
  State := Bytes
  new := []
  update := (· ++ ·)
  finalize bytes := if bytes = abc then hashOfAbc else []
  hash bytes := if bytes = abc then hashOfAbc else []
  finalize_foldl chunks := by
    have hall : ∀ (chunks : List Bytes) (acc : Bytes),
        chunks.foldl (· ++ ·) acc = acc ++ chunks.flatten := by
      intro chunks
      induction chunks with
      | nil => exact fun acc => (List.append_nil acc).symm
      | cons c chunks ih =>
          intro acc
          rw [List.foldl_cons, ih, List.flatten_cons, List.append_assoc]
    rw [hall, List.nil_append]

/-- A file of three bytes, and one of one byte. -/
def twoFiles : Files where
  flush _ := true
  contents path :=
    if path = .ofString "a" then some [120, 97, 98]
    else if path = .ofString "b" then some [99] else none

/-- Two blocks that come to `abc`, and a third one in a file that cannot be opened. -/
def threeBlocks : List BlockInfo :=
  [⟨.ofString "a", 1, 2, 3⟩, ⟨.ofString "b", 0, 1, 1⟩, ⟨.ofString "c", 0, 4, 4⟩]

/-- The two blocks that are there are checked, read one byte at a time. -/
theorem checkout_iff_abc :
    Decides digestOfAbc 2 (fun _ => 1) twoFiles (threeBlocks.take 2) hashOfAbc ∧
      checkout digestOfAbc 2 (fun _ => 1) twoFiles (threeBlocks.take 2) hashOfAbc 3 =
        some (.ok true) := by
  have hsrc : ∀ b ∈ threeBlocks.take 2, Present twoFiles b := by
    intro b hb
    rcases List.mem_cons.mp hb with rfl | hb
    · exact ⟨[120, 97, 98], by decide +kernel, by decide⟩
    · rw [List.mem_singleton.mp hb]
      exact ⟨[99], by decide +kernel, by decide⟩
  refine ⟨?_, by decide +kernel⟩
  exact (checkout_iff digestOfAbc 2 (by decide) _ twoFiles _ _).mpr (stopsAtMissing_of_present hsrc)

/-- A block of two bytes in a file of one: the function never returns. -/
theorem checkout_diverges :
    let block : BlockInfo := ⟨.ofString "b", 0, 2, 2⟩
    (∀ fuel, checkout digestOfAbc 512 (fun _ => 512) twoFiles [block] hashOfAbc fuel = none) ∧
      ¬ Decides digestOfAbc 512 (fun _ => 512) twoFiles [block] hashOfAbc := by
  intro block
  have haccess : twoFiles.access block = some [99] := by decide +kernel
  have hnone : ∀ fuel,
      checkout digestOfAbc 512 (fun _ => 512) twoFiles [block] hashOfAbc fuel = none := by
    intro fuel
    have hshort : ¬ Present twoFiles block := by
      rintro ⟨bytes, hbytes, hlen⟩
      rw [haccess] at hbytes
      cases hbytes
      exact absurd (hlen (by decide)) (by decide)
    have hrun := @hashBlocks_none digestOfAbc 512 (fun _ => 512) twoFiles fuel 0 digestOfAbc.new []
      [] block [99] haccess hshort fun b hb => absurd hb List.not_mem_nil
    rw [List.nil_append] at hrun
    rw [checkout, hrun]
    rfl
  refine ⟨hnone, ?_⟩
  rintro ⟨r, ⟨fuel, hrun⟩, -⟩
  rw [hnone fuel] at hrun
  cases hrun

end PieceHash
