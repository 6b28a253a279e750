/-
# The blocks a peer is asked for

`request_piece` asks a peer for what `try_find_downloadable_peice` returns: the first block of a
piece comes from the branch that applies for it, the others from the entries of
`request_pieces`, which are advanced while the map is iterated and dropped behind it.

* `tiling` cuts an interval into blocks;
* `Assignment` is a piece a peer has to be asked for, with the blocks it has been asked for, and
  `Requests.record` notes them along a run;
* `Tiled` says what the entries of a peer are worth, by the place of the task behind its lock;
* `requests_tile` is the result about runs.
-/
import Dorodoro.PieceGeometry
import Dorodoro.RequestRecords

open LexicalPath Bitmap

namespace Swarm

/-! ## Cutting an interval into blocks -/

/-- The blocks of at most `size` bytes from `start` up to `stop`. -/
def tiling (size start stop : ℕ) : List (ℕ × ℕ) :=
  (List.range (divCeil (stop - start) size)).map fun k =>
    (start + k * size, min size (stop - start - k * size))

section Tiling

variable {size start stop : ℕ}

@[simp] theorem length_tiling (size start stop : ℕ) :
    (tiling size start stop).length = divCeil (stop - start) size := by
  simp [tiling]

theorem lt_length_tiling (hsize : 0 < size) {k : ℕ} :
    k < (tiling size start stop).length ↔ start + k * size < stop := by
  rw [length_tiling, lt_divCeil_iff hsize]
  omega

theorem getElem_tiling {k : ℕ} (hk : k < (tiling size start stop).length) :
    (tiling size start stop)[k] = (start + k * size, min size (stop - start - k * size)) := by
  simp [tiling]

theorem tiling_disjoint (size start stop : ℕ) :
    (tiling size start stop).Pairwise fun a b => a.1 + a.2 ≤ b.1 := by
  rw [tiling, List.pairwise_map]
  apply List.pairwise_lt_range.imp
  intro k l hkl
  have hmul : (k + 1) * size ≤ l * size := Nat.mul_le_mul_right size hkl
  rw [Nat.succ_mul] at hmul
  have hmin : min size (stop - start - k * size) ≤ size := Nat.min_le_left _ _
  dsimp only
  omega

theorem tiling_pos (hsize : 0 < size) (start stop : ℕ) :
    ∀ b ∈ tiling size start stop, 0 < b.2 := by
  intro b hb
  obtain ⟨k, hk, rfl⟩ := List.mem_map.mp hb
  have hlt := (lt_divCeil_iff hsize).mp (List.mem_range.mp hk)
  exact Nat.lt_min.mpr ⟨hsize, Nat.sub_pos_of_lt hlt⟩

theorem tiling_nodup (hsize : 0 < size) : (tiling size start stop).Nodup := by
  have hpos := tiling_pos hsize start stop
  rw [List.nodup_iff_pairwise_ne]
  refine (tiling_disjoint size start stop).imp_of_mem ?_
  rintro a b ha - hle rfl
  have := hpos a ha
  omega

theorem tiling_sum (hsize : 0 < size) :
    ((tiling size start stop).map Prod.snd).sum = stop - start := by
  rw [tiling, List.map_map]
  change ∑ k ∈ Finset.range (divCeil (stop - start) size), min size (stop - start - k * size) = _
  rw [sum_min_sub]
  exact Nat.min_eq_left ((divCeil_le_iff hsize).mp le_rfl)

/-- The next block of a tiling that is not complete. -/
theorem concat_prefix_tiling (hsize : 0 < size) {asked : List (ℕ × ℕ)}
    (hasked : asked <+: tiling size start stop) (hlt : start + asked.length * size < stop) :
    asked ++ [(start + asked.length * size, min size (stop - (start + asked.length * size)))] <+:
      tiling size start stop := by
  have hlen := (lt_length_tiling hsize).mpr hlt
  rw [Nat.sub_add_eq, ← getElem_tiling hlen]
  rw [List.prefix_iff_eq_take] at hasked ⊢
  rw [List.length_append, List.length_singleton, List.take_succ_eq_append_getElem hlen, ← hasked]

/-- A tiling that reaches the end is complete. -/
theorem eq_tiling_of_le (hsize : 0 < size) {asked : List (ℕ × ℕ)}
    (hasked : asked <+: tiling size start stop) (hle : stop ≤ start + asked.length * size) :
    asked = tiling size start stop := by
  apply hasked.eq_of_length_le
  by_contra hlt
  rw [not_le, lt_length_tiling hsize] at hlt
  exact absurd hle (not_le.mpr hlt)

end Tiling

/-! ## What a peer has been asked for -/

/-- A piece a peer has to be asked for from `start` on: the results of
`try_find_downloadable_peice` so far, with the size `request_piece` gives them. -/
structure Assignment where
  start : ℕ
  asked : List (ℕ × ℕ)
  deriving DecidableEq

/-- The offset of the next block. -/
def Assignment.next (C : Config) (A : Assignment) : ℕ := A.start + A.asked.length * C.blockSize

/-- `block_size` of `request_piece`. -/
def Config.requestSize (C : Config) (i offset : ℕ) : ℕ :=
  min C.blockSize (u32 (C.pieceLength i + 2 ^ 32 - offset))

/-- `request_piece` asks for the block at `offset`. -/
def Assignment.ask (C : Config) (i offset : ℕ) (A : Assignment) : Assignment :=
  { A with asked := A.asked ++ [(offset, C.requestSize i offset)] }

/-- A piece of the torrent is assigned from an offset inside it, and requests that start inside
it fit a `u32`. -/
def Config.assign (C : Config) (i offset : ℕ) : Option Assignment :=
  if offset < C.pieceLength i ∧ C.pieceLength i + C.blockSize < 2 ^ 32 ∧ i < C.pieceNum then
    some ⟨offset, []⟩
  else none

/-- The assignments in force, by peer and piece. -/
abbrev Requests : Type := ℕ → ℕ → Option Assignment

/-- Change the assignment of a piece to a peer. -/
def Requests.set (h : Requests) (p i : ℕ) (v : Option Assignment) : Requests :=
  Function.update h p (Function.update (h p) i v)

theorem Requests.set_apply (h : Requests) (p i q j : ℕ) (v : Option Assignment) :
    h.set p i v q j = if q = p ∧ j = i then v else h q j := by
  by_cases hq : q = p
  · subst hq
    by_cases hj : j = i
    · subst hj
      simp [set]
    · simp [set, hj]
  · simp [set, hq]

/-- `try_find_downloadable_peice` returns: behind `remove_if`, or behind `+= block_size` of the
piece it has applied for. -/
def Requests.returned (C : Config) (t : Task) (h : Requests) : Requests :=
  match t.pc with
  | .trim _ i offset | .advance _ i offset =>
      h.set t.peer i ((h t.peer i).map (Assignment.ask C i offset))
  | _ => h

/-- What the step of a task changes.  A call of `reset_request_piece_origin` ends the assignment
of the piece, and begins a new one if it writes the entry and no other task is in the loop of
`request_piece`; looting takes the piece away. -/
def Requests.note (C : Config) (s : State) (t : Task) (e : Effect) (h : Requests) : Requests :=
  match e with
  | .resetOrigin p i offset =>
      h.set p i
        (if s.keepsOrigin p i offset = false ∧ (t.pc.locked = true ∨ s.lockFree p = true) then
          C.assign i offset
        else none)
  | .take v i => h.set v i none
  | _ => h.returned C t

/-- The history of the assignments; a process that starts has none. -/
def Requests.recorder (C : Config) : Recorder Requests where
  onRun s t e _ h := h.note C s t e
  onRestart _ _ := fun _ _ => none

/-- The assignments after an action; a connection just made has none. -/
def Requests.record (C : Config) (s : State) (a : Act) (h : Requests) : Requests :=
  match a with
  | .connect => Function.update h s.nextId fun _ => none
  | a => (recorder C).record C s a h

/-! ## What the entries are worth -/

section Tiled

variable {C : Config} {i : ℕ} {A : Assignment} {r : Option ℕ} {x y : Option Pc}

/-- The blocks asked for are the first ones of a piece of the torrent. -/
structure Assignment.Sound (C : Config) (i : ℕ) (A : Assignment) : Prop where
  start_lt : A.start < C.pieceLength i
  fits : C.pieceLength i + C.blockSize < 2 ^ 32
  inRange : i < C.pieceNum
  prefix_tiling : A.asked <+: tiling C.blockSize A.start (C.pieceLength i)

/-- The entry is the offset of the next block, or it is gone with the last one. -/
def Assignment.Ready (C : Config) (i : ℕ) (A : Assignment) (r : Option ℕ) : Prop :=
  r = some (A.next C) ∨ r = none ∧ C.pieceLength i ≤ A.next C

/-- What the entry `r` of an assigned piece is worth while the task behind the lock stands at
`x`. -/
def Assignment.EntryOk (C : Config) (i : ℕ) (A : Assignment) (r : Option ℕ) : Option Pc → Prop
  -- `+= block_size` is done, and the result is about to be returned
  | some (.trim _ j v) =>
      if j = i then v = A.next C ∧ v < C.pieceLength i ∧ r = some (v + C.blockSize)
      else A.Ready C i r
  -- the piece has been assigned in this call
  | some (.advance _ j offset) => A.Ready C i r ∧ (j = i → A = ⟨offset, []⟩)
  -- no block of the pieces assigned before is left
  | some (.scan _ _) => A.Ready C i r ∧ C.pieceLength i ≤ A.next C
  | _ => A.Ready C i r

/-- The assignments `g` of a peer with the entries `r`. -/
def Tiled (C : Config) (r : ℕ → Option ℕ) (g : ℕ → Option Assignment) (x : Option Pc) : Prop :=
  ∀ i A, g i = some A → A.Sound C i ∧ A.EntryOk C i (r i) x

/-- Outside the three places the entries are what `Ready` says. -/
def plain : Option Pc → Bool
  | some (.trim _ _ _) | some (.advance _ _ _) | some (.scan _ _) => false
  | _ => true

theorem Assignment.entryOk_plain (hx : plain x = true) : A.EntryOk C i r x ↔ A.Ready C i r := by
  unfold EntryOk
  split <;> first | cases hx | exact Iff.rfl

theorem Assignment.EntryOk.ready (h : A.EntryOk C i r x)
    (hx : ∀ k v, x ≠ some (.trim k i v)) : A.Ready C i r := by
  unfold EntryOk at h
  split at h
  · next k j v =>
      rwa [if_neg] at h
      rintro rfl
      exact hx k v rfl
  · exact h.1
  · exact h.1
  · exact h

/-- Inside the piece `piece_length - block_offset` does not wrap. -/
theorem requestSize_eq {offset : ℕ} (hlt : offset < C.pieceLength i)
    (hfits : C.pieceLength i + C.blockSize < 2 ^ 32) :
    C.requestSize i offset = min C.blockSize (C.pieceLength i - offset) := by
  have hsub : u32 (C.pieceLength i + 2 ^ 32 - offset) = C.pieceLength i - offset := by
    unfold u32
    omega
  rw [Config.requestSize, hsub]

theorem Assignment.next_ask {offset : ℕ} :
    (A.ask C i offset).next C = A.next C + C.blockSize := by
  rw [next, next, ask, List.length_append, List.length_singleton, Nat.succ_mul, Nat.add_assoc]

/-- Asking for the next block. -/
theorem Assignment.Sound.ask (h : A.Sound C i) (hlt : A.next C < C.pieceLength i) :
    (A.ask C i (A.next C)).Sound C i := by
  refine ⟨h.start_lt, h.fits, h.inRange, ?_⟩
  have hconcat := concat_prefix_tiling C.blockSize_pos h.prefix_tiling hlt
  rwa [← next, ← requestSize_eq hlt h.fits] at hconcat

/-- An assignment that has just begun. -/
theorem sound_of_assign {offset : ℕ} (h : C.assign i offset = some A) :
    A = ⟨offset, []⟩ ∧ A.Sound C i ∧ A.Ready C i (some offset) := by
  obtain ⟨⟨hlt, hfits, hi⟩, rfl⟩ := Transition.of_ite_eq_some h
  refine ⟨rfl, ⟨hlt, hfits, hi, List.nil_prefix⟩, Or.inl ?_⟩
  rw [Assignment.next, List.length_nil, Nat.zero_mul, Nat.add_zero]

/-- The entries of a peer: an assignment ends, stays with its entry, or begins. -/
def Moves (C : Config) (r r' : ℕ → Option ℕ) (g g' : ℕ → Option Assignment) (begins : Prop) :
    Prop :=
  ∀ i, g' i = none ∨ g' i = g i ∧ r' i = r i ∨
    begins ∧ ∃ offset, g' i = C.assign i offset ∧ r' i = some offset

variable {r r' : ℕ → Option ℕ} {g g' : ℕ → Option Assignment} {begins : Prop}

/-- Where no assignment begins, the task behind the lock may stand anywhere. -/
theorem Tiled.stay (h : Tiled C r g x) (hmoves : Moves C r r' g g' begins) (hbegins : ¬begins) :
    Tiled C r' g' x := by
  intro i A hA
  rcases hmoves i with hnone | ⟨hg, hr⟩ | ⟨hb, -⟩
  · rw [hnone] at hA
    cases hA
  · rw [hr]
    exact h i A (hg ▸ hA)
  · exact absurd hb hbegins

/-- From one plain place to another. -/
theorem Tiled.move (h : Tiled C r g x) (hmoves : Moves C r r' g g' begins)
    (hx : ∀ k i v, x ≠ some (.trim k i v)) (hy : plain y = true) : Tiled C r' g' y := by
  intro i A hA
  rw [Assignment.entryOk_plain hy]
  rcases hmoves i with hnone | ⟨hg, hr⟩ | ⟨-, offset, hg, hr⟩
  · rw [hnone] at hA
    cases hA
  · obtain ⟨hsound, hentry⟩ := h i A (hg ▸ hA)
    rw [hr]
    exact ⟨hsound, hentry.ready fun k v => hx k i v⟩
  · rw [hg] at hA
    rw [hr]
    exact (sound_of_assign hA).2

end Tiled

/-! ## The task behind the lock -/

/-- The task behind the lock of `p` stands at `x`; `none` is a free lock. -/
def Holds (tasks : List Task) (p : ℕ) : Option Pc → Prop
  | some pc => (⟨p, pc⟩ : Task) ∈ tasks ∧ pc.locked = true
  | none => ∀ t ∈ tasks, t.locks p = false

section Holds

variable {C : Config} {s : State} {p q k : ℕ} {t : Task} {pc pc' : Pc} {e : Effect}
  {ts : List Task} {x : Option Pc}

theorem Task.locks_iff : t.locks p = true ↔ t.peer = p ∧ t.pc.locked = true := by
  rw [locks, Bool.and_eq_true, beq_iff_eq]

theorem Task.locks_self (p : ℕ) (pc : Pc) : (⟨p, pc⟩ : Task).locks p = pc.locked := by
  rw [locks, beq_self_eq_true, Bool.true_and]

theorem holds_none_of_lockFree (h : s.lockFree p = true) : Holds s.tasks p none := by
  intro t ht
  have hfree := List.all_eq_true.mp h t ht
  rwa [Bool.not_eq_true'] at hfree

theorem exists_holds (tasks : List Task) (p : ℕ) : ∃ x, Holds tasks p x := by
  by_cases hall : ∀ t ∈ tasks, t.locks p = false
  · exact ⟨none, hall⟩
  · push Not at hall
    obtain ⟨t, ht, hl⟩ := hall
    obtain ⟨rfl, hlocked⟩ := Task.locks_iff.mp (Bool.eq_true_of_not_eq_false hl)
    exact ⟨some t.pc, ht, hlocked⟩

/-- When the task behind the lock runs, what it goes on with is behind the lock. -/
theorem holds_replaceTask (hs : s.Exclusive) (ht : s.tasks[k]? = some t) (hl : t.locks q = true)
    (hs' : ({ s with tasks := replaceTask s.tasks k ts } : State).Exclusive)
    (h : Holds (replaceTask s.tasks k ts) q x) : Holds ts q x := by
  cases x with
  | none => exact fun u hu => h u (mem_replaceTask_new k s.tasks hu)
  | some pc =>
      obtain ⟨hmem, hlocked⟩ := h
      have hq : (⟨q, pc⟩ : Task).locks q = true := (Task.locks_self q pc).trans hlocked
      -- the peer had no other task behind its lock, so one of the new ones is
      have hcount := countP_replaceTask (Task.locks q) ts ht
      have hone := hs q
      have htask : [t].countP (Task.locks q) = 1 := by simp [hl]
      have hpos : 0 < (replaceTask s.tasks k ts).countP (Task.locks q) :=
        List.countP_pos_iff.mpr ⟨_, hmem, hq⟩
      obtain ⟨u, hu, hul⟩ := List.countP_pos_iff.mp (by omega : 0 < ts.countP (Task.locks q))
      have heq : (⟨q, pc⟩ : Task) = u := hs'.unique hmem (mem_replaceTask_new k s.tasks hu) hq hul
      exact ⟨heq ▸ hu, hlocked⟩

/-- When another task runs, the lock stays where it is, or is taken. -/
theorem holds_replaceTask_of_ne (ht : s.tasks[k]? = some t) (hl : t.locks q = false)
    (h : Holds (replaceTask s.tasks k ts) q x) :
    Holds s.tasks q x ∨ ∃ pc, x = some pc ∧ (⟨q, pc⟩ : Task) ∈ ts ∧ pc.locked = true := by
  cases x with
  | none =>
      left
      intro u hu
      rcases mem_replaceTask_of_mem ts ht hu with rfl | hu
      · exact hl
      · exact h u hu
  | some pc =>
      obtain ⟨hmem, hlocked⟩ := h
      rcases mem_replaceTask hmem with hmem | hmem
      · exact Or.inl ⟨hmem, hlocked⟩
      · exact Or.inr ⟨pc, rfl, hmem, hlocked⟩

/-- Nothing is behind the lock when `request_piece` has returned. -/
theorem not_mem_returns (hl : pc.locked = true) (k : Option Msg) :
    (⟨q, pc⟩ : Task) ∉ onPeer p (returns k) := by
  intro hmem
  have hno := List.countP_eq_zero.mp (locks_returns q k) _ hmem
  exact hno ((Task.locks_self q pc).trans hl)

theorem not_mem_pcs (hl : pc.locked = true) (r : Ret) : (⟨q, pc⟩ : Task) ∉ onPeer p r.pcs := by
  intro hmem
  have hno := List.countP_eq_zero.mp (locks_pcs q r) _ hmem
  exact hno ((Task.locks_self q pc).trans hl)

theorem Holds.plain_returns {k : Option Msg} (hx : Holds (onPeer p (returns k)) q x) :
    plain x = true := by
  cases x with
  | none => rfl
  | some pc => exact absurd hx.1 (not_mem_returns hx.2 k)

/-- The places from which `try_find_downloadable_peice` goes on inside its call. -/
def Pc.looks : Pc → Bool
  | find _ | scan _ _ | applied _ _ _ => true
  | _ => false

/-- The lock is taken by `lock().await` only, and found free; a task that has it and is outside
`try_find_downloadable_peice` goes on at a plain place. -/
theorem next_holds (hnext : Next C s p pc e ts) (hmem : (⟨q, pc'⟩ : Task) ∈ ts)
    (hl : pc'.locked = true) :
    q = p ∧ (pc.locked = true ∧ (pc.looks = true ∨ plain (some pc') = true) ∨
      s.lockFree p = true ∧ e = .nop ∧ plain (some pc') = true) := by
  cases hnext with
  | lock hfree =>
      cases List.mem_singleton.mp hmem
      exact ⟨rfl, Or.inr ⟨hfree, rfl, rfl⟩⟩
  | lootLock hfree _ _ =>
      cases List.mem_singleton.mp hmem
      exact ⟨rfl, Or.inr ⟨hfree, rfl, rfl⟩⟩
  | requestChoked _ => exact absurd hmem (not_mem_returns hl _)
  | findFull => exact absurd hmem (not_mem_returns hl _)
  | lootNone => exact absurd hmem (not_mem_returns hl _)
  | leaveLost _ => exact absurd hmem (not_mem_returns hl _)
  | finishEnded _ => exact absurd hmem (not_mem_pcs hl _)
  | saveRow => exact absurd hmem (not_mem_pcs hl _)
  | leave _ =>
      rcases List.mem_cons.mp hmem with heq | hmem
      · cases heq
        cases hl
      · exact absurd hmem (not_mem_returns hl _)
  | lootExitDropNext _ =>
      rcases List.mem_cons.mp hmem with heq | hmem
      · cases heq
        cases hl
      · cases List.mem_singleton.mp hmem
        exact ⟨rfl, Or.inl ⟨rfl, Or.inr rfl⟩⟩
  | lootExitDropGive _ =>
      rcases List.mem_cons.mp hmem with heq | hmem
      · cases heq
        cases hl
      · cases List.mem_singleton.mp hmem
        exact ⟨rfl, Or.inl ⟨rfl, Or.inr rfl⟩⟩
  | _ =>
      -- nothing is left to do, the task was behind the lock, or it does not go there
      first
      | (cases hmem; done)
      | (cases List.mem_singleton.mp hmem
         first
         | exact ⟨rfl, Or.inl ⟨rfl, Or.inr rfl⟩⟩
         | exact ⟨rfl, Or.inl ⟨rfl, Or.inl rfl⟩⟩
         | cases hl)

end Holds

/-! ## The step of a task -/

section Step

variable {C : Config} {s : State} {p q : ℕ} {t : Task} {pc : Pc} {e : Effect} {ts : List Task}
  {x : Option Pc} {h : Requests}

theorem Holds.eq_some (hx : Holds [⟨p, pc⟩] p x) (hl : pc.locked = true) : x = some pc := by
  cases x with
  | none =>
      have hno := hx ⟨p, pc⟩ List.mem_cons_self
      rw [Task.locks_self, hl] at hno
      cases hno
  | some pc' =>
      cases List.mem_singleton.mp hx.1
      rfl

theorem Requests.returned_apply (j : ℕ) (htrim : ∀ k i v, t ≠ ⟨q, .trim k i v⟩)
    (hadvance : ∀ k i offset, t ≠ ⟨q, .advance k i offset⟩) :
    h.returned C t q j = h q j := by
  cases hpc : t.pc with
  | trim k i offset =>
      simp only [returned, hpc]
      rw [set_apply, if_neg]
      rintro ⟨rfl, -⟩
      exact htrim k i offset (by rw [← hpc])
  | advance k i offset =>
      simp only [returned, hpc]
      rw [set_apply, if_neg]
      rintro ⟨rfl, -⟩
      exact hadvance k i offset (by rw [← hpc])
  | _ => simp only [returned, hpc]

/-- What the step of a task changes for a peer it does not advance an entry of. -/
theorem note_moves (hnext : Next C s t.peer t.pc e ts) (hset : ∀ i v, e ≠ .setRequest q i v)
    (htrim : ∀ k i v, t ≠ ⟨q, .trim k i v⟩)
    (hadvance : ∀ k i offset, t ≠ ⟨q, .advance k i offset⟩) :
    Moves C (s.requested q) ((e.exec C s).requested q) (h q) (h.note C s t e q)
      (t.locks q = true ∨ s.lockFree q = true) := by
  intro j
  have hsame := Requests.returned_apply (h := h) (C := C) j htrim hadvance
  rw [Effect.exec_requested]
  cases e with
  | resetOrigin q' i offset =>
      obtain rfl := (mem_pieces_of_resetOrigin hnext).1
      dsimp only [Requests.note]
      rw [Requests.set_apply]
      by_cases hj : q = t.peer ∧ j = i
      · rw [if_pos hj]
        split
        · next hbegins =>
            right
            right
            refine ⟨?_, offset, by rw [hj.2], if_pos ⟨hj, hbegins.1⟩⟩
            rw [Task.locks_iff, hj.1]
            exact hbegins.2.imp_left fun hl => ⟨rfl, hl⟩
        · exact Or.inl rfl
      · exact Or.inr (Or.inl ⟨if_neg hj, if_neg fun hand => hj hand.1⟩)
  | take v i =>
      dsimp only [Requests.note]
      rw [Requests.set_apply]
      by_cases hj : q = v ∧ j = i
      · exact Or.inl (if_pos hj)
      · exact Or.inr (Or.inl ⟨if_neg hj, if_neg hj⟩)
  | setRequest q' i v =>
      refine Or.inr (Or.inl ⟨hsame, if_neg ?_⟩)
      rintro ⟨rfl, -⟩
      exact hset i v rfl
  | removeRequest q' i =>
      refine Or.inr (Or.inl ⟨hsame, if_neg ?_⟩)
      rintro ⟨rfl, -⟩
      obtain ⟨p, pc⟩ := t
      cases hnext
      exact htrim _ _ _ rfl
  | _ => exact Or.inr (Or.inl ⟨hsame, rfl⟩)

/-- `apply_download_piece` is looked for when no entry has a block left. -/
theorem unrequested_of_scan {k : Option Msg} {c : Choice} {i j : ℕ}
    (hstep : taskStep C s p (.find k) c = some (e, [⟨p, .scan k j⟩])) (hi : i < C.pieceNum) :
    s.unrequested C p i = false := by
  cases c with
  | flag b =>
      cases b with
      | false => cases k <;> cases hstep
      | true =>
          change (if !(s.peers p).isCanBeDownload then some (Effect.nop, onPeer p [Pc.idle k])
            else if (List.range C.pieceNum).all fun i => !s.unrequested C p i then
              some (Effect.nop, onPeer p [.scan k 0])
            else none) = _ at hstep
          split at hstep
          · cases hstep
          · split at hstep
            · next hall =>
                have hno := List.all_eq_true.mp hall i (List.mem_range.mpr hi)
                rwa [Bool.not_eq_true'] at hno
            · cases hstep
  | entry i' =>
      dsimp only [taskStep] at hstep
      split at hstep
      · split at hstep <;> cases hstep
      · cases hstep
  | _ => cases hstep

theorem Assignment.Sound.u32_add {A : Assignment} {i v : ℕ} (hA : A.Sound C i)
    (hv : v < C.pieceLength i) : u32 (v + C.blockSize) = v + C.blockSize :=
  u32_eq (by have := hA.fits; omega)

/-- An entry of the map is found, or none has a block left. -/
theorem Tiled.find {k : Option Msg} {c : Choice}
    (hT : Tiled C (s.requested p) (h p) (some (.find k)))
    (hstep : taskStep C s p (.find k) c = some (e, ts)) (hx : Holds ts p x) :
    Tiled C ((e.exec C s).requested p) (h.note C s ⟨p, .find k⟩ e p) x := by
  cases next_of_taskStep hstep with
  | findFull =>
      intro i A hA
      rw [Assignment.entryOk_plain hx.plain_returns]
      exact hT i A hA
  | findChoked =>
      rw [hx.eq_some rfl]
      exact hT
  | findScan =>
      rw [hx.eq_some rfl]
      intro i A hA
      obtain ⟨hsound, hready⟩ := hT i A hA
      refine ⟨hsound, hready, ?_⟩
      rcases hready with hsome | ⟨-, hle⟩
      · have hun := unrequested_of_scan hstep hsound.inRange
        rw [State.unrequested, hsome, Option.any_some, decide_eq_false_iff_not, not_lt] at hun
        exact hun
      · exact hle
  | @findEntry _ i v hv hlt _ =>
      rw [hx.eq_some rfl]
      intro j A hA
      obtain ⟨hsound, hready⟩ := hT j A hA
      refine ⟨hsound, ?_⟩
      rw [Effect.exec_requested]
      dsimp only [Assignment.EntryOk]
      by_cases hj : i = j
      · subst hj
        rw [if_pos rfl, if_pos ⟨rfl, rfl⟩, hsound.u32_add hlt]
        refine ⟨?_, hlt, rfl⟩
        rcases hready with hsome | ⟨hnone, -⟩
        · rw [hv] at hsome
          exact Option.some.inj hsome
        · rw [hv] at hnone
          cases hnone
      · rw [if_neg hj, if_neg fun hand => hj hand.2.symm]
        exact hready

/-- An assignment after `try_find_downloadable_peice` has returned. -/
theorem Requests.set_map_ask {p i j offset : ℕ} {A' : Assignment}
    (hA' : h.set p i ((h p i).map (Assignment.ask C i offset)) p j = some A') :
    (j = i ∧ ∃ A, h p i = some A ∧ A' = A.ask C i offset) ∨ j ≠ i ∧ h p j = some A' := by
  rw [set_apply] at hA'
  split at hA'
  · next heq =>
      obtain ⟨A, hA, rfl⟩ := Option.map_eq_some_iff.mp hA'
      exact Or.inl ⟨heq.2, A, hA, rfl⟩
  · next hne => exact Or.inr ⟨fun hj => hne ⟨rfl, hj⟩, hA'⟩

/-- The result of the iteration is returned, and the entry of a last block is dropped. -/
theorem Tiled.trim {k : Option Msg} {c : Choice} {i v : ℕ}
    (hT : Tiled C (s.requested p) (h p) (some (.trim k i v)))
    (hstep : taskStep C s p (.trim k i v) c = some (e, ts)) (hx : Holds ts p x) :
    Tiled C ((e.exec C s).requested p) (h.note C s ⟨p, .trim k i v⟩ e p) x := by
  obtain ⟨rfl, hcases⟩ := trim_cases hstep
  rw [hx.eq_some rfl]
  intro j A' hA'
  have hnote : h.note C s ⟨p, .trim k i v⟩ e =
      h.set p i ((h p i).map (Assignment.ask C i v)) := by
    rcases hcases with ⟨rfl, -⟩ | ⟨rfl, -⟩ <;> rfl
  rw [hnote] at hA'
  rcases Requests.set_map_ask hA' with ⟨rfl, A, hA, rfl⟩ | ⟨hj, hA⟩
  · obtain ⟨hsound, hentry⟩ := hT j A hA
    dsimp only [Assignment.EntryOk] at hentry
    rw [if_pos rfl] at hentry
    obtain ⟨rfl, hlt, hreq⟩ := hentry
    refine ⟨hsound.ask hlt, ?_⟩
    show Assignment.Ready C j _ _
    rw [Assignment.Ready, Assignment.next_ask, Effect.exec_requested]
    rcases hcases with ⟨rfl, v, hv, hle⟩ | ⟨rfl, -⟩
    · rw [hreq] at hv
      cases hv
      exact Or.inr ⟨if_pos ⟨rfl, rfl⟩, hle⟩
    · exact Or.inl hreq
  · obtain ⟨hsound, hentry⟩ := hT j A' hA
    dsimp only [Assignment.EntryOk] at hentry
    rw [if_neg (Ne.symm hj)] at hentry
    refine ⟨hsound, ?_⟩
    show Assignment.Ready C j _ _
    have hsame : (e.exec C s).requested p j = s.requested p j := by
      rw [Effect.exec_requested]
      rcases hcases with ⟨rfl, -⟩ | ⟨rfl, -⟩
      · exact if_neg fun hand => hj hand.2
      · rfl
    rw [hsame]
    exact hentry

/-- Looking for a piece to apply for. -/
theorem Tiled.scan {k : Option Msg} {j : ℕ}
    (hT : Tiled C (s.requested p) (h p) (some (.scan k j)))
    (hnext : Next C s p (.scan k j) e ts) (hx : Holds ts p x) :
    Tiled C ((e.exec C s).requested p) (h.note C s ⟨p, .scan k j⟩ e p) x := by
  cases hnext with
  | scanEnd _ =>
      rw [hx.eq_some rfl]
      exact fun i A hA => (hT i A hA).imp_right And.left
  | scanNext =>
      rw [hx.eq_some rfl]
      exact hT
  | scanApply _ _ =>
      rw [hx.eq_some rfl]
      exact fun i A hA => (hT i A hA).imp_right And.left

/-- The piece is assigned. -/
theorem Tiled.applied {k : Option Msg} {i offset : ℕ}
    (hT : Tiled C (s.requested p) (h p) (some (.applied k i offset)))
    (hx : Holds [⟨p, .advance k i offset⟩] p x) :
    Tiled C (((Effect.resetOrigin p i offset).exec C s).requested p)
      (h.note C s ⟨p, .applied k i offset⟩ (.resetOrigin p i offset) p) x := by
  rw [hx.eq_some rfl]
  intro j A hA
  dsimp only [Requests.note] at hA
  rw [Requests.set_apply] at hA
  rw [Effect.exec_requested]
  dsimp only [Assignment.EntryOk]
  by_cases hj : j = i
  · subst hj
    rw [if_pos ⟨rfl, rfl⟩] at hA
    split at hA
    · next hbegins =>
        obtain ⟨hnew, hsound, hready⟩ := sound_of_assign hA
        rw [if_pos ⟨⟨rfl, rfl⟩, hbegins.1⟩]
        exact ⟨hsound, hready, fun _ => hnew⟩
    · cases hA
  · rw [if_neg fun hand => hj hand.2] at hA
    rw [if_neg fun hand => hj hand.1.2]
    obtain ⟨hsound, hready⟩ := hT j A hA
    exact ⟨hsound, hready, fun heq => absurd heq.symm hj⟩

/-- The first block of the assigned piece is returned. -/
theorem Tiled.advance {k : Option Msg} {i offset : ℕ}
    (hT : Tiled C (s.requested p) (h p) (some (.advance k i offset)))
    (hnext : Next C s p (.advance k i offset) e ts) (hx : Holds ts p x) :
    Tiled C ((e.exec C s).requested p) (h.note C s ⟨p, .advance k i offset⟩ e p) x := by
  have hfirst : ∀ A, h p i = some A → A.Sound C i ∧ A.next C < C.pieceLength i ∧
      A.next C = offset ∧ s.requested p i = some offset := by
    intro A hA
    obtain ⟨hsound, hready, hnew⟩ := hT i A hA
    have hstart : A.next C = A.start := by
      rw [hnew rfl, Assignment.next, List.length_nil, Nat.zero_mul, Nat.add_zero]
    have hoffset : A.next C = offset := by rw [hstart, hnew rfl]
    have hlt : A.next C < C.pieceLength i := by
      rw [hstart]
      exact hsound.start_lt
    refine ⟨hsound, hlt, hoffset, ?_⟩
    rcases hready with hsome | ⟨-, hle⟩
    · rwa [hoffset] at hsome
    · exact absurd hle (not_le.mpr hlt)
  cases hnext with
  | @advance _ _ _ v hv =>
      rw [hx.eq_some rfl]
      intro j A' hA'
      rw [Effect.exec_requested]
      dsimp only
      rcases Requests.set_map_ask hA' with ⟨rfl, A, hA, rfl⟩ | ⟨hj, hA⟩
      · obtain ⟨hsound, hlt, rfl, hreq⟩ := hfirst A hA
        rw [hv] at hreq
        cases hreq
        refine ⟨hsound.ask hlt, Or.inl ?_⟩
        rw [Assignment.next_ask, if_pos ⟨rfl, rfl⟩, hsound.u32_add hlt]
      · obtain ⟨hsound, hready, -⟩ := hT j A' hA
        rw [if_neg fun hand => hj hand.2]
        exact ⟨hsound, hready⟩
  | advanceLost hnone =>
      rw [hx.eq_some rfl]
      intro j A' hA'
      rcases Requests.set_map_ask hA' with ⟨rfl, A, hA, rfl⟩ | ⟨hj, hA⟩
      · obtain ⟨-, -, -, hreq⟩ := hfirst A hA
        rw [hnone] at hreq
        cases hreq
      · exact (hT j A' hA).imp_right And.left

/-- Everywhere else entries are left alone, or written by `reset_request_piece_origin`. -/
theorem Tiled.rest (hT : Tiled C (s.requested p) (h p) (some pc)) (hnext : Next C s p pc e ts)
    (hx : Holds ts p x) (hlooks : pc.looks = false) (htrim : ∀ k i v, pc ≠ .trim k i v)
    (hadvance : ∀ k i offset, pc ≠ .advance k i offset) :
    Tiled C ((e.exec C s).requested p) (h.note C s ⟨p, pc⟩ e p) x := by
  have hset : ∀ i v, e ≠ .setRequest p i v := by
    rintro i v rfl
    cases hnext with
    | findEntry => cases hlooks
    | advance => exact hadvance _ _ _ rfl
  have hmoves := note_moves (t := ⟨p, pc⟩) (q := p) (h := h) hnext hset
    (fun k i v heq => htrim k i v (congrArg Task.pc heq))
    (fun k i offset heq => hadvance k i offset (congrArg Task.pc heq))
  refine hT.move hmoves (fun k i v heq => htrim k i v (Option.some.inj heq)) ?_
  cases x with
  | none => rfl
  | some pc' =>
      obtain ⟨-, ⟨-, hor⟩ | ⟨-, -, hplain⟩⟩ := next_holds hnext hx.1 hx.2
      · rw [hlooks] at hor
        exact hor.resolve_left Bool.false_ne_true
      · exact hplain

/-- **The step of the task behind the lock.** -/
theorem Tiled.run {c : Choice} (hT : Tiled C (s.requested p) (h p) (some pc))
    (hstep : taskStep C s p pc c = some (e, ts)) (hx : Holds ts p x) :
    Tiled C ((e.exec C s).requested p) (h.note C s ⟨p, pc⟩ e p) x := by
  have hnext := next_of_taskStep hstep
  cases pc with
  | find k => exact hT.find hstep hx
  | trim k i v => exact hT.trim hstep hx
  | scan k j => exact hT.scan hnext hx
  | applied k i offset =>
      cases hnext
      exact hT.applied hx
  | advance k i offset => exact hT.advance hnext hx
  | _ =>
      refine hT.rest hnext hx rfl ?_ ?_ <;> (intros; exact Pc.noConfusion)

/-- **The step of a task that does not have the lock.** -/
theorem Tiled.run_of_ne {k : ℕ} (hl : t.locks q = false) (ht : s.tasks[k]? = some t)
    (hT : ∀ y, Holds s.tasks q y → Tiled C (s.requested q) (h q) y)
    (hnext : Next C s t.peer t.pc e ts) (hx : Holds (replaceTask s.tasks k ts) q x) :
    Tiled C ((e.exec C s).requested q) (h.note C s t e q) x := by
  have hunlocked : ∀ pc : Pc, pc.locked = true → t ≠ ⟨q, pc⟩ := by
    rintro pc hpc rfl
    rw [Task.locks_self, hpc] at hl
    cases hl
  have hset : ∀ i v, e ≠ .setRequest q i v := by
    rintro i v rfl
    obtain ⟨p, pc⟩ := t
    cases hnext with
    | findEntry => exact hunlocked _ rfl rfl
    | advance => exact hunlocked _ rfl rfl
  have hmoves := note_moves (h := h) hnext hset (fun k i v => hunlocked _ rfl)
    (fun k i offset => hunlocked _ rfl)
  rcases holds_replaceTask_of_ne ht hl hx with hsame | ⟨pc, rfl, hmem, hlocked⟩
  · cases x with
    | none =>
        exact (hT none hsame).move hmoves (fun _ _ _ => nofun) rfl
    | some pc =>
        -- somebody has the lock, so no assignment begins
        refine (hT _ hsame).stay hmoves ?_
        rintro (hlt | hfree)
        · rw [hl] at hlt
          cases hlt
        · have hno := holds_none_of_lockFree hfree _ hsame.1
          rw [Task.locks_self, hsame.2] at hno
          cases hno
  · obtain ⟨hq, ⟨hpc, -⟩ | ⟨hfree, -, hplain⟩⟩ := next_holds hnext hmem hlocked
    · exact absurd (by rw [hq]) (hunlocked t.pc hpc)
    · rw [← hq] at hfree
      exact (hT none (holds_none_of_lockFree hfree)).move hmoves (fun _ _ _ => nofun) hplain

end Step

/-! ## Runs -/

section Run

variable {C : Config} {s s' : State} {a : Act} {h : Requests} {p i : ℕ} {A : Assignment}

/-- What the scheduler keeps: the lock is exclusive, and the entries are worth what the place
of the task behind it says. -/
structure TilingInv (C : Config) (s : State) (h : Requests) : Prop where
  exclusive : s.Exclusive
  tiled : ∀ p x, Holds s.tasks p x → Tiled C (s.requested p) (h p) x

/-- New tasks start outside the lock. -/
theorem holds_append {tasks new : List Task} {x : Option Pc} (hnew : ∀ t ∈ new, Starts s t)
    (hx : Holds (tasks ++ new) p x) : Holds tasks p x := by
  cases x with
  | none => exact fun t ht => hx t (List.mem_append_left new ht)
  | some pc =>
      obtain ⟨hmem, hlocked⟩ := hx
      rcases List.mem_append.mp hmem with hmem | hmem
      · exact ⟨hmem, hlocked⟩
      · cases hnew _ hmem <;> cases hlocked

theorem TilingInv.boot (C : Config) (bytefield : Bytes) (row : Row)
    (disk : Loc → ℕ → Option UInt8) (clock : ℕ) :
    TilingInv C (.boot bytefield row disk clock) fun _ _ => none :=
  ⟨fun _ => Nat.zero_le 1, fun _ _ _ _ _ hA => nomatch hA⟩

theorem Requests.record_run {k : ℕ} {c : Choice} {t : Task} {e : Effect} {ts : List Task}
    (ht : s.tasks[k]? = some t) (hc : taskStep C s t.peer t.pc c = some (e, ts)) :
    h.record C s (.run k c) = h.note C s t e :=
  Recorder.record_run _ ht hc h

/-- The task behind the lock is aborted while it waits. -/
theorem TilingInv.abort {k : ℕ} {t : Task} {x : Option Pc} (hI : TilingInv C s h)
    (ht : s.tasks[k]? = some t) (hawaits : t.pc.awaits = true)
    (hs' : ({ s with tasks := replaceTask s.tasks k [] } : State).Exclusive)
    (hx : Holds (replaceTask s.tasks k []) p x) : Tiled C (s.requested p) (h p) x := by
  cases hl : t.locks p with
  | true =>
      obtain ⟨rfl, hlocked⟩ := Task.locks_iff.mp hl
      have hT := hI.tiled t.peer (some t.pc) ⟨List.mem_of_getElem? ht, hlocked⟩
      have hsame : Moves C (s.requested t.peer) (s.requested t.peer) (h t.peer) (h t.peer) False :=
        fun i => Or.inr (Or.inl ⟨rfl, rfl⟩)
      refine hT.move hsame ?_ ?_
      · rintro k i v heq
        rw [Option.some.inj heq] at hawaits
        cases hawaits
      · cases x with
        | none => rfl
        | some pc => cases (holds_replaceTask hI.exclusive ht hl hs' hx).1
  | false =>
      rcases holds_replaceTask_of_ne ht hl hx with hsame | ⟨pc, rfl, hmem, -⟩
      · exact hI.tiled p x hsame
      · cases hmem

/-- **One action keeps what the entries are worth.** -/
theorem TilingInv.step (hI : TilingInv C s h) (hstep : step C s a = some s') :
    TilingInv C s' (h.record C s a) := by
  have hs' := hI.exclusive.step hstep
  refine ⟨hs', ?_⟩
  intro p x hx
  have hcases := step_cases hstep
  cases a with
  | run k c =>
      obtain ⟨t, e, ts, ht, hrun, rfl⟩ := step_run hstep
      rw [Requests.record_run ht hrun]
      cases hl : t.locks p with
      | true =>
          obtain ⟨rfl, hlocked⟩ := Task.locks_iff.mp hl
          have hT := hI.tiled t.peer (some t.pc) ⟨List.mem_of_getElem? ht, hlocked⟩
          exact hT.run hrun (holds_replaceTask hI.exclusive ht hl hs' hx)
      | false => exact Tiled.run_of_ne hl ht (hI.tiled p) (next_of_taskStep hrun) hx
  | abort k =>
      obtain ⟨t, ht, hawaits, rfl⟩ := step_abort hstep
      exact hI.abort ht hawaits hs' hx
  | restart =>
      intro i A hA
      cases hA
  | connect =>
      obtain ⟨new, -, htasks, hstarts⟩ := external_step rfl hcases
      rw [htasks] at hx
      have hT := hI.tiled p x (holds_append hstarts hx)
      have hreq := external_requested rfl hcases p
      intro i A hA
      change Function.update h s.nextId (fun _ => none) p i = some A at hA
      by_cases hp : p = s.nextId
      · rw [hp, Function.update_self] at hA
        cases hA
      · rw [Function.update_of_ne hp] at hA
        rw [((hreq i).resolve_left fun hnew => hp hnew.1.2).1]
        exact hT i A hA
  | _ =>
      obtain ⟨new, -, htasks, hstarts⟩ := external_step rfl hcases
      rw [htasks] at hx
      have hT := hI.tiled p x (holds_append hstarts hx)
      have hreq := external_requested rfl hcases p
      intro i A hA
      rw [((hreq i).resolve_left fun hnew => nomatch hnew.1.1).1]
      exact hT i A hA

/-- All of the piece has been asked for: the blocks, in order, each of them once. -/
structure Assignment.Complete (C : Config) (i : ℕ) (A : Assignment) : Prop where
  blocks : A.asked = (List.range (divCeil (C.pieceLength i - A.start) C.blockSize)).map fun k =>
    (A.start + k * C.blockSize, min C.blockSize (C.pieceLength i - A.start - k * C.blockSize))
  pos : ∀ b ∈ A.asked, 0 < b.2
  once : A.asked.Nodup
  disjoint : A.asked.Pairwise fun a b => a.1 + a.2 ≤ b.1
  sum : (A.asked.map Prod.snd).sum = C.pieceLength i - A.start

theorem Assignment.complete_of_eq (h : A.asked = tiling C.blockSize A.start (C.pieceLength i)) :
    A.Complete C i := by
  refine ⟨h, ?_, ?_, ?_, ?_⟩ <;> rw [h]
  · exact tiling_pos C.blockSize_pos _ _
  · exact tiling_nodup C.blockSize_pos
  · exact tiling_disjoint _ _ _
  · exact tiling_sum C.blockSize_pos

/-- **Request tiling.**  In every run, a peer has been asked for the first blocks of each piece
assigned to it, and for all of them when a further piece is applied for. -/
theorem requests_tile {bytefield : Bytes} {row : Row} {disk : Loc → ℕ → Option UInt8}
    {clock : ℕ} {as : List Act}
    (hrun : Transition.FreeRun (Transition.observe (step C) (Requests.record C))
      (.boot bytefield row disk clock, fun _ _ => none) as (s, h)) (hA : h p i = some A) :
    A.asked <+: tiling C.blockSize A.start (C.pieceLength i) ∧
      ∀ k j, (⟨p, .scan k j⟩ : Task) ∈ s.tasks → A.Complete C i := by
  have hI : TilingInv C s h := hrun.invariant_observe (TilingInv.boot C bytefield row disk clock)
    fun s h a s' hI _ hstep => hI.step hstep
  refine ⟨?_, ?_⟩
  · obtain ⟨x, hx⟩ := exists_holds s.tasks p
    exact (hI.tiled p x hx i A hA).1.prefix_tiling
  · intro k j hscan
    obtain ⟨hsound, -, hle⟩ := hI.tiled p (some (.scan k j)) ⟨hscan, rfl⟩ i A hA
    exact Assignment.complete_of_eq (eq_tiling_of_le C.blockSize_pos hsound.prefix_tiling hle)

/-- Both blocks of the piece have been asked for when the peer is looked at for a further
one. -/
theorem requests_tile_twoBlocks :
    ∃ (s : State) (h : Requests) (A : Assignment),
      Transition.FreeRun (Transition.observe (step twoBlocks) (Requests.record twoBlocks))
        (.added twoBlocks fun _ _ => none, fun _ _ => none) (twoBlocksRun.take 15) (s, h) ∧
      s.tasks = [⟨0, .scan none 0⟩] ∧ h 0 0 = some A ∧ A.asked = [(0, 2), (2, 2)] ∧
        A.Complete twoBlocks 0 := by
  have hexec : (Transition.exec (Transition.observe (step twoBlocks)
      (Requests.record twoBlocks))
      (.added twoBlocks fun _ _ => none, fun _ _ => none) (twoBlocksRun.take 15)).map
        (fun x => (x.1.tasks, x.2 0 0)) =
        some ([⟨0, .scan none 0⟩], some ⟨0, [(0, 2), (2, 2)]⟩) := by decide +kernel
  obtain ⟨⟨s, h⟩, hrun, hview⟩ := Transition.Run.exists_of_exec hexec
  simp only [Prod.mk.injEq] at hview
  obtain ⟨htasks, hA⟩ := hview
  refine ⟨s, h, _, hrun, htasks, hA, rfl, ?_⟩
  exact (requests_tile hrun hA).2 none 0 (by simp [htasks])

end Run

end Swarm
