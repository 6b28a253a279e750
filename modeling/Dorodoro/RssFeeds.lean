/-
# What a feed turns into torrents (`core/rss.rs`, `service/task_service.rs`)

A feed has three persistent facts: the hash of the content that was taken over last
(`rss.hash`), the guids that were read (`rss_mark_read`) and the torrents.  `subscribe` and
`flush_feed` write the hash first and then go through the items; each item is marked as read
before its torrent is stored.  Whatever fails ends the whole pass.

* `Pc` is the place of a pass in its code, `step` lets the environment choose what the feed
  shows, what fails, and when the process stops;
* `Retries` says that a refresh which sees a content takes on an item, as a run of the system;
* `Kept` is the property: nothing is dropped; `Careful` the condition on the steps under which it
  holds (`feeds_kept`).

The guid stands for the item and for its torrent.  The other columns of the tables and the
settings of a task leave no trace here.
-/
import Dorodoro.Transition
import Dorodoro.Counting
import Mathlib.Data.Finset.Basic

namespace RssFeeds

/-! ## Feeds -/

/-- An item of a channel. -/
structure Item (G : Type*) where
  guid : Option G
  /-- It has an enclosure. -/
  enclosure : Bool
  deriving DecidableEq

/-- What the code takes from the content of a feed. -/
structure Source (B G H : Type*) where
  /-- `Channel::read_from`. -/
  items : B → Option (List (Item G))
  /-- `Sha1`. -/
  sha1 : B → H

/-- The guids of the items that have an enclosure. -/
def guids {G : Type*} (items : List (Item G)) : List G :=
  items.filterMap fun item => if item.enclosure then item.guid else none

/-- The guids a content offers. -/
def Source.offers {B G H : Type*} (S : Source B G H) (c : B) : List G :=
  ((S.items c).map guids).getD []

/-- What a pass does next. -/
inductive Pc (B G H : Type*) where
  /-- `get_subscribe_channel` of `subscribe`. -/
  | fetchNew
  /-- `get_subscribe_channel` of `flush_feed`, with the hash of the row. -/
  | fetch (hash : H)
  /-- `add_subscribe`. -/
  | addSubscribe (c : B)
  /-- `update_subscribe`. -/
  | update (c : B)
  /-- `list_mark_read_guid` of `consumer_not_read`. -/
  | listRead (c : B)
  /-- The download of `load_torrent_from_rss_feed`. -/
  | download (guid : G) (rest : List G)
  /-- `mark_read`. -/
  | markRead (guid : G) (rest : List G)
  /-- `add_torrent`. -/
  | addTorrent (guid : G) (rest : List G)
  /-- `DownloadContent::new` and `handle_task`. -/
  | start (rest : List G)
  deriving DecidableEq

/-- The persistent facts of a feed, and the passes over it. -/
structure State (B G H : Type*) where
  /-- `rss.hash`; without it there is no subscription. -/
  hash : Option H
  /-- `rss_mark_read`. -/
  read : Finset G
  /-- The items whose torrent has a row. -/
  torrents : Finset G
  passes : List (Pc B G H)

/-- What a step of a pass comes to. -/
inductive Choice (B : Type*) where
  | ok
  | fail
  /-- The feed shows a content. -/
  | content (c : B)
  deriving DecidableEq

/-- What the environment does. -/
inductive Act (B G : Type*) where
  | subscribe
  /-- `flush_all_feeds` finds the feed out of date. -/
  | refresh
  /-- The `k`-th pass goes on. -/
  | run (k : ℕ) (c : Choice B)
  /-- The process stops. -/
  | stop
  /-- The torrent of an item is added by somebody else. -/
  | addTask (guid : G)
  deriving DecidableEq

section Step

variable {B G H : Type*} [DecidableEq G] [DecidableEq H] (S : Source B G H)

/-- No feed, no passes. -/
def State.init : State B G H := ⟨none, ∅, ∅, []⟩

/-- The loop of `consumer_not_read`. -/
def consume : List G → List (Pc B G H)
  | [] => []
  | guid :: rest => [.download guid rest]

/-- The items of a content that are not read yet. -/
def State.unread (s : State B G H) (c : B) : List G :=
  (S.offers c).filter fun guid => decide (guid ∉ s.read)

/-- The code of a pass from one step to the next. -/
def pcStep (s : State B G H) : Pc B G H → Choice B → Option (State B G H × List (Pc B G H))
  | _, .fail => some (s, [])
  | .fetchNew, .content c => some (s, if (S.items c).isSome then [.addSubscribe c] else [])
  | .fetch hash, .content c =>
      some (s, if (S.items c).isSome ∧ S.sha1 c ≠ hash then [.update c] else [])
  | .addSubscribe c, .ok =>
      if s.hash = none then some ({ s with hash := some (S.sha1 c) }, [.listRead c])
      else some (s, [])
  | .update c, .ok => some ({ s with hash := some (S.sha1 c) }, [.listRead c])
  | .listRead c, .ok => some (s, consume (s.unread S c))
  | .download guid rest, .ok => some (s, [.markRead guid rest])
  | .markRead guid rest, .ok =>
      some ({ s with read := insert guid s.read }, [.addTorrent guid rest])
  | .addTorrent guid rest, .ok =>
      some ({ s with torrents := insert guid s.torrents }, [.start rest])
  | .start rest, .ok => some (s, consume rest)
  | _, _ => none

/-- The transition function. -/
def step (s : State B G H) : Act B G → Option (State B G H)
  | .subscribe => some { s with passes := .fetchNew :: s.passes }
  | .refresh => s.hash.map fun hash => { s with passes := .fetch hash :: s.passes }
  | .run k c =>
      s.passes[k]?.bind fun pc =>
        (pcStep S s pc c).map fun r => { r.1 with passes := r.2 ++ s.passes.eraseIdx k }
  | .stop => some { s with passes := [] }
  | .addTask guid => some { s with torrents := insert guid s.torrents }

/-- The contents the feed has shown so far. -/
def shown (s : State B G H) (a : Act B G) (seen : List B) : List B :=
  match a with
  | .run k (.content c) =>
      match s.passes[k]? with
      | some .fetchNew | some (.fetch _) => c :: seen
      | _ => seen
  | _ => seen

/-- What a pass has taken on and not stored yet. -/
def Pc.todo (s : State B G H) : Pc B G H → List G
  | listRead c => s.unread S c
  | download guid rest | markRead guid rest | addTorrent guid rest => guid :: rest
  | start rest => rest
  | _ => []

/-! ## The property -/

/-- A refresh that sees the content takes the item on. -/
def Retries (s : State B G H) (c : B) (guid : G) : Prop :=
  ∃ s', Transition.exec (step S) s [.refresh, .run 0 (.content c), .run 0 .ok, .run 0 .ok] =
    some s' ∧ ∃ pc ∈ s'.passes, guid ∈ pc.todo S s'

/-- Nothing is dropped: what the feed has shown is stored or will be retried, and only what is
stored is marked as read. -/
structure Kept (s : State B G H) (seen : List B) : Prop where
  items : s.hash.isSome = true → ∀ c ∈ seen, ∀ guid ∈ S.offers c, guid ∉ s.torrents →
    Retries S s c guid
  read : ∀ guid ∈ s.read, guid ∈ s.torrents

/-- The condition on a step: a pass that fails, or is stopped with the process, has stored what it
has taken on; and a content has not the hash of another one. -/
def Careful (x : State B G H × List B) : Act B G → Prop
  | .run k .fail => ∀ pc ∈ x.1.passes[k]?, ∀ guid ∈ pc.todo S x.1, guid ∈ x.1.torrents
  | .run _ (.content c) => ∀ c' ∈ x.2, S.sha1 c' = S.sha1 c → c' = c
  | .stop => ∀ pc ∈ x.1.passes, ∀ guid ∈ pc.todo S x.1, guid ∈ x.1.torrents
  | _ => True

instance [DecidableEq B] (x : State B G H × List B) (a : Act B G) : Decidable (Careful S x a) := by
  unfold Careful
  split <;> infer_instance

end Step

section Shown

variable {B G H : Type*} {s : State B G H} {a : Act B G} {c : B} {seen : List B}

/-- A content is shown for the first time, or was shown before. -/
theorem mem_shown {k : ℕ} {o : Choice B}
    (h : c ∈ shown s (.run k o) seen) : c ∈ seen ∨ o = .content c := by
  cases o with
  | content c' =>
      unfold shown at h
      dsimp only at h
      split at h
      · rcases List.mem_cons.mp h with rfl | h
        · exact Or.inr rfl
        · exact Or.inl h
      · rcases List.mem_cons.mp h with rfl | h
        · exact Or.inr rfl
        · exact Or.inl h
      · exact Or.inl h
  | _ => exact Or.inl h

theorem subset_shown (h : c ∈ seen) : c ∈ shown s a seen := by
  unfold shown
  split
  · split <;> first | exact List.mem_cons_of_mem _ h | exact h
  · exact h

end Shown

section Invariant

variable {B G H : Type*} [DecidableEq G] {S : Source B G H} {s s' : State B G H}
  {pc : Pc B G H} {next : List (Pc B G H)} {c : B} {guid : G} {a : Act B G} {seen : List B}

/-! ## What is held -/

/-- The item is stored, or a pass has taken it on. -/
def Held (S : Source B G H) (s : State B G H) (guid : G) : Prop :=
  guid ∈ s.torrents ∨ ∃ pc ∈ s.passes, guid ∈ pc.todo S s

theorem mem_unread : guid ∈ s.unread S c ↔ guid ∈ S.offers c ∧ guid ∉ s.read := by
  rw [State.unread, List.mem_filter, decide_eq_true_eq]

theorem mem_todo_consume {l : List G} (h : guid ∈ l) :
    ∃ pc ∈ (consume l : List (Pc B G H)), guid ∈ pc.todo S s := by
  cases l with
  | nil => cases h
  | cons head rest => exact ⟨_, List.mem_singleton_self _, h⟩

/-- What another pass has taken on stays so, or has just been read. -/
theorem todo_mono (h : guid ∈ pc.todo S s) :
    guid ∈ pc.todo S s' ∨ guid ∈ s'.read ∧ guid ∉ s.read := by
  cases pc with
  | listRead c =>
      obtain ⟨hoffers, hnot⟩ := mem_unread.mp h
      by_cases hin : guid ∈ s'.read
      · exact Or.inr ⟨hin, hnot⟩
      · exact Or.inl (mem_unread.mpr ⟨hoffers, hin⟩)
  | _ => exact Or.inl h

/-! ## The invariant -/

/-- The content a pass is about to take over, or has taken over. -/
def Pc.content : Pc B G H → Option B
  | addSubscribe c | update c | listRead c => some c
  | _ => none

/-- The invariant of the careful runs. -/
structure Inv (S : Source B G H) (s : State B G H) (seen : List B) : Prop where
  distinct : ∀ c ∈ seen, ∀ c' ∈ seen, S.sha1 c' = S.sha1 c → c' = c
  hashed : ∀ h, s.hash = some h → ∃ c ∈ seen, S.sha1 c = h
  known : ∀ pc ∈ s.passes, ∀ c, pc.content = some c → c ∈ seen
  read : ∀ guid ∈ s.read, Held S s guid
  kept : ∀ c ∈ seen, s.hash = some (S.sha1 c) → ∀ guid ∈ S.offers c, Held S s guid

theorem Inv.init : Inv S .init [] := by
  constructor
  · intro c hc
    cases hc
  · intro h hh
    cases hh
  · intro pc hpc
    cases hpc
  · intro guid hguid
    cases hguid
  · intro c hc
    cases hc

/-- A new content has not the hash of another one. -/
theorem Inv.distinct_shown (h : Inv S s seen) {k : ℕ} {o : Choice B}
    (hg : Careful S (s, seen) (.run k o)) :
    ∀ c ∈ shown s (.run k o) seen, ∀ c' ∈ shown s (.run k o) seen, S.sha1 c' = S.sha1 c →
      c' = c := by
  intro c hc c' hc' heq
  rcases mem_shown hc with hold | ho
  · rcases mem_shown hc' with hold' | ho'
    · exact h.distinct c hold c' hold' heq
    · subst ho'
      exact (hg c hold heq.symm).symm
  · subst ho
    rcases mem_shown hc' with hold' | ho'
    · exact hg c' hold' heq
    · exact (Choice.content.inj ho').symm

variable [DecidableEq H]

/-! ## One step -/

/-- What a pass has taken on, it stores, passes on, or drops when it fails. -/
theorem todo_pcStep {o : Choice B} (h : pcStep S s pc o = some (s', next))
    (hfail : o = .fail → ∀ guid ∈ pc.todo S s, guid ∈ s.torrents) :
    ∀ guid ∈ pc.todo S s, guid ∈ s'.torrents ∨ ∃ q ∈ next, guid ∈ q.todo S s' := by
  intro guid hguid
  cases o with
  | fail =>
      simp only [pcStep, Option.some.injEq, Prod.mk.injEq] at h
      obtain ⟨rfl, -⟩ := h
      exact Or.inl (hfail rfl guid hguid)
  | content c =>
      cases pc with
      | fetchNew | fetch _ => cases hguid
      | _ => cases h
  | ok =>
      cases pc with
      | fetchNew | fetch _ => cases h
      | addSubscribe _ | update _ => cases hguid
      | listRead c =>
          cases h
          exact Or.inr (mem_todo_consume hguid)
      | download head rest | markRead head rest =>
          cases h
          exact Or.inr ⟨_, List.mem_singleton_self _, hguid⟩
      | addTorrent head rest =>
          cases h
          rcases List.mem_cons.mp hguid with rfl | hrest
          · exact Or.inl (Finset.mem_insert_self guid s.torrents)
          · exact Or.inr ⟨_, List.mem_singleton_self _, hrest⟩
      | start rest =>
          cases h
          exact Or.inr (mem_todo_consume hguid)

/-- The facts only grow, and what is newly read is about to be stored. -/
theorem read_pcStep {o : Choice B} (h : pcStep S s pc o = some (s', next)) :
    s.torrents ⊆ s'.torrents ∧ s.read ⊆ s'.read ∧
      ∀ guid ∈ s'.read, guid ∈ s.read ∨ ∃ q ∈ next, guid ∈ q.todo S s' := by
  have hsame : s.read ⊆ s.read := fun _ h => h
  cases o with
  | fail =>
      cases pc <;> cases h <;> exact ⟨fun _ h => h, hsame, fun _ h => Or.inl h⟩
  | content c =>
      cases pc with
      | fetchNew | fetch _ =>
          cases h
          exact ⟨fun _ h => h, hsame, fun _ h => Or.inl h⟩
      | _ => cases h
  | ok =>
      cases pc with
      | fetchNew | fetch _ => cases h
      | addSubscribe c =>
          simp only [pcStep] at h
          split at h <;> cases h <;> exact ⟨fun _ h => h, hsame, fun _ h => Or.inl h⟩
      | markRead head rest =>
          cases h
          refine ⟨fun _ h => h, Finset.subset_insert _ _, ?_⟩
          intro guid hguid
          rcases Finset.mem_insert.mp hguid with rfl | hold
          · exact Or.inr ⟨_, List.mem_singleton_self _, List.mem_cons_self⟩
          · exact Or.inl hold
      | addTorrent head rest =>
          cases h
          exact ⟨Finset.subset_insert _ _, hsame, fun _ h => Or.inl h⟩
      | _ =>
          cases h
          exact ⟨fun _ h => h, hsame, fun _ h => Or.inl h⟩

/-- **What is held stays held**, when a pass makes a step. -/
theorem Held.run {k : ℕ} {o : Choice B} (h : Held S s guid)
    (hk : s.passes[k]? = some pc) (hpc : pcStep S s pc o = some (s', next))
    (hfail : o = .fail → ∀ guid ∈ pc.todo S s, guid ∈ s.torrents) :
    Held S { s' with passes := next ++ s.passes.eraseIdx k } guid := by
  obtain ⟨htorrents, -, hnew⟩ := read_pcStep hpc
  have hnext : ∀ guid, (∃ q ∈ next, guid ∈ q.todo S s') →
      Held S { s' with passes := next ++ s.passes.eraseIdx k } guid := by
    rintro guid ⟨q, hq, hguid⟩
    exact Or.inr ⟨q, List.mem_append_left _ hq, hguid⟩
  rcases h with hin | ⟨q, hq, hguid⟩
  · exact Or.inl (htorrents hin)
  · rcases List.mem_cons.mp ((Counting.cons_eraseIdx_perm hk).mem_iff.mpr hq) with rfl | hq'
    · rcases todo_pcStep hpc hfail guid hguid with hin | hq
      · exact Or.inl hin
      · exact hnext guid hq
    · rcases todo_mono hguid with hguid' | ⟨hin, hnot⟩
      · exact Or.inr ⟨q, List.mem_append_right _ hq', hguid'⟩
      · rcases hnew guid hin with hold | hq
        · exact absurd hold hnot
        · exact hnext guid hq

/-- **What is held stays held.** -/
theorem Held.step (h : Held S s guid) (hg : Careful S (s, seen) a) (hstep : step S s a = some s') :
    Held S s' guid := by
  cases a with
  | subscribe =>
      cases hstep
      rcases h with hin | ⟨q, hq, hguid⟩
      · exact Or.inl hin
      · exact Or.inr ⟨q, List.mem_cons_of_mem _ hq, hguid⟩
  | refresh =>
      obtain ⟨hash, -, rfl⟩ := Option.map_eq_some_iff.mp hstep
      rcases h with hin | ⟨q, hq, hguid⟩
      · exact Or.inl hin
      · exact Or.inr ⟨q, List.mem_cons_of_mem _ hq, hguid⟩
  | run k o =>
      obtain ⟨pc, hk, hstep⟩ := Option.bind_eq_some_iff.mp hstep
      obtain ⟨⟨s₁, next⟩, hpc, rfl⟩ := Option.map_eq_some_iff.mp hstep
      refine h.run hk hpc ?_
      rintro rfl
      exact hg pc hk
  | stop =>
      cases hstep
      rcases h with hin | ⟨q, hq, hguid⟩
      · exact Or.inl hin
      · exact Or.inl (hg q hq guid hguid)
  | addTask guid' =>
      cases hstep
      rcases h with hin | hpending
      · exact Or.inl (Finset.mem_insert_of_mem hin)
      · exact Or.inr hpending

/-- A pass changes the hash to that of its content, which it then goes through. -/
theorem hash_pcStep {o : Choice B} (h : pcStep S s pc o = some (s', next)) :
    s'.hash = s.hash ∨ ∃ c, pc.content = some c ∧ s'.hash = some (S.sha1 c) ∧
      next = [.listRead c] ∧ s'.read = s.read := by
  cases o with
  | fail => cases pc <;> cases h <;> exact Or.inl rfl
  | content c =>
      cases pc with
      | fetchNew | fetch _ =>
          cases h
          exact Or.inl rfl
      | _ => cases h
  | ok =>
      cases pc with
      | fetchNew | fetch _ => cases h
      | addSubscribe c =>
          simp only [pcStep] at h
          split at h <;> cases h
          · exact Or.inr ⟨c, rfl, rfl, rfl, rfl⟩
          · exact Or.inl rfl
      | update c =>
          cases h
          exact Or.inr ⟨c, rfl, rfl, rfl, rfl⟩
      | _ =>
          cases h
          exact Or.inl rfl

/-- A pass goes on with its own content, or with the one the feed shows. -/
theorem content_pcStep {o : Choice B} (h : pcStep S s pc o = some (s', next)) :
    ∀ q ∈ next, ∀ c, q.content = some c → pc.content = some c ∨ o = .content c ∧
      (pc = .fetchNew ∨ ∃ hash, pc = .fetch hash) := by
  intro q hq c hc
  have hnone : ∀ l : List G, q ∈ (consume l : List (Pc B G H)) → False := by
    intro l hl
    cases l with
    | nil => cases hl
    | cons head rest =>
        rw [List.mem_singleton.mp hl] at hc
        cases hc
  cases o with
  | fail =>
      simp only [pcStep, Option.some.injEq, Prod.mk.injEq] at h
      rw [← h.2] at hq
      cases hq
  | content c' =>
      cases pc with
      | fetchNew =>
          cases h
          split at hq
          · rw [List.mem_singleton.mp hq] at hc
            exact Or.inr ⟨congrArg _ (Option.some.inj hc), Or.inl rfl⟩
          · cases hq
      | fetch hash =>
          cases h
          split at hq
          · rw [List.mem_singleton.mp hq] at hc
            exact Or.inr ⟨congrArg _ (Option.some.inj hc), Or.inr ⟨hash, rfl⟩⟩
          · cases hq
      | _ => cases h
  | ok =>
      cases pc with
      | fetchNew | fetch _ => cases h
      | addSubscribe c' =>
          simp only [pcStep] at h
          split at h <;> cases h
          · rw [List.mem_singleton.mp hq] at hc
            exact Or.inl hc
          · cases hq
      | update c' =>
          cases h
          rw [List.mem_singleton.mp hq] at hc
          exact Or.inl hc
      | listRead _ | start _ =>
          cases h
          exact (hnone _ hq).elim
      | _ =>
          cases h
          rw [List.mem_singleton.mp hq] at hc
          cases hc

/-- **A step of a pass keeps the invariant.** -/
theorem Inv.run (h : Inv S s seen) {k : ℕ} {o : Choice B} (hk : s.passes[k]? = some pc)
    (hpc : pcStep S s pc o = some (s', next)) (hg : Careful S (s, seen) (.run k o)) :
    Inv S { s' with passes := next ++ s.passes.eraseIdx k } (shown s (.run k o) seen) := by
  obtain ⟨-, -, hnew⟩ := read_pcStep hpc
  have hmem := List.mem_of_getElem? hk
  have hdistinct := h.distinct_shown hg
  have hheld : ∀ guid, Held S s guid →
      Held S { s' with passes := next ++ s.passes.eraseIdx k } guid := by
    intro guid hheld
    refine hheld.run hk hpc ?_
    rintro rfl
    exact hg pc hk
  constructor
  · exact hdistinct
  · intro hash hhash
    rcases hash_pcStep hpc with hsame | ⟨c, hc, hset, -⟩
    · obtain ⟨c, hc, heq⟩ := h.hashed hash (hsame ▸ hhash)
      exact ⟨c, subset_shown hc, heq⟩
    · have hhash' : s'.hash = some hash := hhash
      rw [hset] at hhash'
      exact ⟨c, subset_shown (h.known pc hmem c hc), Option.some.inj hhash'⟩
  · intro q hq c hc
    rcases List.mem_append.mp hq with hq | hq
    · rcases content_pcStep hpc q hq c hc with hold | ⟨rfl, hfetch⟩
      · exact subset_shown (h.known pc hmem c hold)
      · rw [shown, hk]
        rcases hfetch with rfl | ⟨hash, rfl⟩ <;> exact List.mem_cons_self
    · exact subset_shown (h.known q (List.mem_of_mem_eraseIdx hq) c hc)
  · intro guid hguid
    rcases hnew guid hguid with hold | ⟨q, hq, htodo⟩
    · exact hheld guid (h.read guid hold)
    · exact Or.inr ⟨q, List.mem_append_left _ hq, htodo⟩
  · intro c hc hhash guid hguid
    rcases hash_pcStep hpc with hsame | ⟨c₀, hc₀, hset, hnext, hread⟩
    · -- a content that has the hash of the row was shown before
      obtain ⟨c', hc', heq⟩ := h.hashed _ (hsame ▸ hhash)
      have hcc : c' = c := hdistinct c hc c' (subset_shown hc') heq
      subst hcc
      exact hheld guid (h.kept c' hc' (hsame ▸ hhash) guid hguid)
    · have hhash' : s'.hash = some (S.sha1 c) := hhash
      rw [hset] at hhash'
      have hcc : c₀ = c :=
        hdistinct c hc c₀ (subset_shown (h.known pc hmem c₀ hc₀)) (Option.some.inj hhash')
      subst hcc
      by_cases hin : guid ∈ s.read
      · exact hheld guid (h.read guid hin)
      · refine Or.inr ⟨.listRead c₀, ?_, mem_unread.mpr ⟨hguid, ?_⟩⟩
        · rw [hnext]
          exact List.mem_cons_self
        · show guid ∉ s'.read
          rwa [hread]

theorem Inv.step (h : Inv S s seen) (hg : Careful S (s, seen) a) (hstep : step S s a = some s') :
    Inv S s' (shown s a seen) := by
  have hheld : ∀ guid, Held S s guid → Held S s' guid := fun guid hh => hh.step hg hstep
  cases a with
  | subscribe =>
      cases hstep
      refine ⟨h.distinct, h.hashed, ?_, fun guid hin => hheld guid (h.read guid hin), ?_⟩
      · exact List.forall_mem_cons.mpr ⟨fun c hc => (by cases hc), h.known⟩
      · exact fun c hc hhash guid hin => hheld guid (h.kept c hc hhash guid hin)
  | refresh =>
      obtain ⟨hash, -, rfl⟩ := Option.map_eq_some_iff.mp hstep
      refine ⟨h.distinct, h.hashed, ?_, fun guid hin => hheld guid (h.read guid hin), ?_⟩
      · exact List.forall_mem_cons.mpr ⟨fun c hc => (by cases hc), h.known⟩
      · exact fun c hc hhash guid hin => hheld guid (h.kept c hc hhash guid hin)
  | run k o =>
      obtain ⟨pc, hk, hstep⟩ := Option.bind_eq_some_iff.mp hstep
      obtain ⟨⟨s₁, next⟩, hpc, rfl⟩ := Option.map_eq_some_iff.mp hstep
      exact h.run hk hpc hg
  | stop =>
      cases hstep
      refine ⟨h.distinct, h.hashed, ?_, fun guid hin => hheld guid (h.read guid hin), ?_⟩
      · intro pc hpc
        cases hpc
      · exact fun c hc hhash guid hin => hheld guid (h.kept c hc hhash guid hin)
  | addTask guid' =>
      cases hstep
      refine ⟨h.distinct, h.hashed, h.known, fun guid hin => hheld guid (h.read guid hin), ?_⟩
      exact fun c hc hhash guid hin => hheld guid (h.kept c hc hhash guid hin)

/-! ## Runs -/

/-- A content with another hash is taken over by the next refresh, with all that is not read. -/
theorem retries_of {hash : H} (hhash : s.hash = some hash) (hne : S.sha1 c ≠ hash)
    (hoffers : guid ∈ S.offers c) (hread : guid ∉ s.read) : Retries S s c guid := by
  have hsome : (S.items c).isSome = true := by
    cases hitems : S.items c with
    | some items => rfl
    | none =>
        rw [Source.offers, hitems] at hoffers
        cases hoffers
  let s₁ : State B G H := { s with hash := some (S.sha1 c) }
  refine ⟨{ s₁ with passes := consume (s.unread S c) ++ s.passes }, ?_, ?_⟩
  · simp [RssFeeds.step, hhash, pcStep, hsome, hne, s₁, State.unread]
  · obtain ⟨q, hq, htodo⟩ :=
      mem_todo_consume (S := S) (s := { s₁ with passes := consume (s.unread S c) ++ s.passes })
        (mem_unread.mpr ⟨hoffers, hread⟩)
    exact ⟨q, List.mem_append_left _ hq, htodo⟩

/-- A content that was taken over last is not taken over again. -/
theorem not_retries (hquiet : s.passes = []) (hhash : s.hash = some (S.sha1 c)) :
    ¬ Retries S s c guid := by
  rintro ⟨s', hs', -⟩
  simp [RssFeeds.step, pcStep, hhash, hquiet] at hs'

/-- **What a failure drops.**  The only pass fails, or the process stops, with an item of the
content it has taken over not stored: the item is dropped. -/
theorem dropped_of_fail (hpass : s.passes = [pc]) (ha : a = .run 0 .fail ∨ a = .stop)
    (hc : c ∈ seen) (hoffers : guid ∈ S.offers c) (hhash : s.hash = some (S.sha1 c))
    (hnot : guid ∉ s.torrents) (hstep : step S s a = some s') : ¬ Kept S s' (shown s a seen) := by
  have hafter : s' = { s with passes := [] } := by
    rcases ha with rfl | rfl
    · simp only [RssFeeds.step, hpass, List.getElem?_cons_zero, Option.bind_some, pcStep,
        Option.map_some, Option.some.injEq] at hstep
      exact hstep.symm
    · exact (Option.some.inj hstep).symm
  subst hafter
  intro hkept
  have hsub : s.hash.isSome = true := by rw [hhash]; rfl
  have hretries := hkept.items hsub c (subset_shown hc) guid hoffers hnot
  exact absurd hretries (not_retries rfl hhash)

/-- **Nothing is dropped.**  In every careful run, whenever no pass is under way: an item the feed
has shown is stored or taken on by the next refresh that sees the same content, and what is read
is stored. -/
theorem feeds_kept {as : List (Act B G)}
    (hrun : Transition.Run (Transition.observe (step S) shown) (Careful S) (.init, []) as
      (s, seen)) (hquiet : s.passes = []) : Kept S s seen := by
  have hinv : Inv S s seen :=
    hrun.invariant_observe (I := Inv S) Inv.init fun _ _ _ _ h hg hs => h.step hg hs
  have hstored : ∀ guid, Held S s guid → guid ∈ s.torrents := by
    rintro guid (hin | ⟨pc, hpc, -⟩)
    · exact hin
    · rw [hquiet] at hpc
      cases hpc
  constructor
  · intro hsub c hc guid hoffers hnot
    obtain ⟨hash, hhash⟩ := Option.isSome_iff_exists.mp hsub
    refine retries_of hhash ?_ hoffers ?_
    · rintro rfl
      exact hnot (hstored guid (hinv.kept c hc hhash guid hoffers))
    · exact fun hread => hnot (hstored guid (hinv.read guid hread))
  · exact fun guid hread => hstored guid (hinv.read guid hread)

end Invariant

/-- Contents that are their own hash. -/
def plain : Source (List (Item ℕ)) ℕ (List (Item ℕ)) := ⟨some, id⟩

/-- A feed with one item is subscribed, and its download cannot be started; a second item comes,
and the refresh fails before it takes the content over. -/
def carefulRun : List (Act (List (Item ℕ)) ℕ) :=
  [.subscribe, .run 0 (.content [⟨some 1, true⟩]), .run 0 .ok, .run 0 .ok, .run 0 .ok, .run 0 .ok,
    .run 0 .ok, .run 0 .fail,
    .refresh, .run 0 (.content [⟨some 2, true⟩, ⟨some 1, true⟩]), .run 0 .fail]

/-- The second item is not stored, and not dropped. -/
theorem feeds_kept_careful :
    ∃ s : State (List (Item ℕ)) ℕ (List (Item ℕ)), ∃ seen,
      Transition.Run (Transition.observe (step plain) shown) (Careful plain) (.init, []) carefulRun
        (s, seen) ∧
      s.passes = [] ∧ s.torrents = {1} ∧
      [⟨some 2, true⟩, ⟨some 1, true⟩] ∈ seen ∧ Kept plain s seen := by
  have hexec : (Transition.execIf (Transition.observe (step plain) shown) (Careful plain)
      (.init, []) carefulRun).map (fun x => (x.1.passes.isEmpty, x.1.torrents, x.2)) =
        some (true, {1}, [[⟨some 2, true⟩, ⟨some 1, true⟩], [⟨some 1, true⟩]]) := by decide +kernel
  obtain ⟨⟨s, seen⟩, hrun, hview⟩ := Transition.Run.exists_of_execIf hexec
  simp only [Prod.mk.injEq] at hview
  obtain ⟨hempty, htorrents, hseen⟩ := hview
  have hpasses : s.passes = [] := List.isEmpty_iff.mp hempty
  refine ⟨s, seen, hrun, hpasses, htorrents, ?_, feeds_kept hrun hpasses⟩
  rw [hseen]
  exact List.mem_cons_self

/-- A feed with one item is subscribed, and the download of its torrent fails. -/
def droppedRun : List (Act (List (Item ℕ)) ℕ) :=
  [.subscribe, .run 0 (.content [⟨some 1, true⟩]), .run 0 .ok, .run 0 .ok, .run 0 .fail]

/-- The item is not stored, and the next refresh finds the hash unchanged. -/
theorem feed_drops :
    ∃ s : State (List (Item ℕ)) ℕ (List (Item ℕ)), ∃ seen,
      Transition.FreeRun (Transition.observe (step plain) shown) (.init, []) droppedRun (s, seen) ∧
        s.passes = [] ∧ ¬ Kept plain s seen := by
  have hexec : Transition.exec (Transition.observe (step plain) shown) (.init, []) droppedRun =
      some (⟨some [⟨some 1, true⟩], ∅, ∅, []⟩, [[⟨some 1, true⟩]]) := rfl
  refine ⟨_, _, .of_exec hexec, rfl, ?_⟩
  intro hkept
  exact not_retries rfl rfl (hkept.items rfl _ (List.mem_singleton_self _) 1
    (List.mem_singleton_self 1) (Finset.notMem_empty 1))

end RssFeeds
