/-
# The read marks of the feeds (`mapper.rs`, `mapper/rss.rs`)

The table `rss_mark_read` says which guids of which feed were read.  `mark_read` looks for the
pair of feed and guid before it inserts, while the index `guid_idx` makes the guid alone unique:
a guid that two feeds share can be marked for one of them only.

* `Db` has the two tables, and the operations are the statements of the mapper;
* `marked` is what the marks are for: the last operation on a feed and a guid;
* `Agrees` is the invariant that connects them, and `read_marks_iff` says for which sequences of
  operations the tables do what they are for.

A failing statement leaves the tables as they are.  The columns of `rss` that no operation here
reads are left out.
-/
import Dorodoro.Transition
import Mathlib.Data.List.Induction
import Mathlib.Data.List.Nodup

namespace ReadMarks

variable {U G : Type*}

/-! ## The tables -/

/-- A row of `rss`. -/
structure Rss (U : Type*) where
  id : ℕ
  url : U
  deriving DecidableEq

/-- A row of `rss_mark_read`. -/
structure MarkRead (G : Type*) where
  id : ℕ
  rssId : ℕ
  guid : G
  deriving DecidableEq

/-- The database. -/
structure Db (U G : Type*) where
  rss : List (Rss U)
  marks : List (MarkRead G)
  deriving DecidableEq

/-- `INIT_SQL`. -/
def Db.init : Db U G := ⟨[], []⟩

/-- What SQLite refuses. -/
inductive SqlError where
  /-- A row with the same guid is there (`guid_idx`). -/
  | uniqueGuid
  deriving DecidableEq

/-- The next value of an `INTEGER PRIMARY KEY`. -/
def nextId (ids : List ℕ) : ℕ := ids.foldr max 0 + 1

section Mapper

variable [DecidableEq U] [DecidableEq G] (db : Db U G)

/-- `add_subscribe`. -/
def Db.addSubscribe (url : U) : Except SqlError (Bool × Db U G) :=
  if db.rss.countP (fun r => r.url == url) > 0 then .ok (false, db)
  else .ok (true, { db with rss := db.rss ++ [⟨nextId (db.rss.map Rss.id), url⟩] })

/-- `list_mark_read_guid`. -/
def Db.listMarkReadGuid (url : U) : List G :=
  match db.rss.find? fun r => r.url == url with
  | some r => (db.marks.filter fun m => m.rssId == r.id).map MarkRead.guid
  | none => []

/-- `insert into rss_mark_read`, under `guid_idx`. -/
def Db.insertMark (rssId : ℕ) (guid : G) : Except SqlError (Db U G) :=
  if db.marks.any fun m => m.guid == guid then .error .uniqueGuid
  else .ok { db with
    marks := db.marks ++ [⟨nextId (db.marks.map MarkRead.id), rssId, guid⟩] }

/-- `mark_read`. -/
def Db.markRead (rssId : ℕ) (guid : G) : Except SqlError (Bool × Db U G) :=
  if db.marks.countP (fun m => m.rssId == rssId && m.guid == guid) > 0 then .ok (false, db)
  else (db.insertMark rssId guid).map fun db' => (true, db')

/-- `mark_not_read`. -/
def Db.markNotRead (rssId : ℕ) (guid : G) : Except SqlError (ℕ × Db U G) :=
  let deleted := db.marks.countP fun m => m.rssId == rssId && m.guid == guid
  .ok (deleted, { db with marks := db.marks.filter fun m => !(m.rssId == rssId && m.guid == guid) })

end Mapper

/-! ## Sequences of operations -/

/-- An operation. -/
inductive Op (U G : Type*) where
  | addSubscribe (url : U)
  | markRead (rssId : ℕ) (guid : G)
  | markNotRead (rssId : ℕ) (guid : G)
  deriving DecidableEq

/-- The feed and the guid the operation is on. -/
def Op.target : Op U G → Option (ℕ × G)
  | addSubscribe _ => none
  | markRead rssId guid | markNotRead rssId guid => some (rssId, guid)

/-- The operation is a `mark_read`. -/
def Op.isMark : Op U G → Bool
  | markRead _ _ => true
  | _ => false

variable [DecidableEq G]

/-- The last operation on the feed and the guid was `mark_read`. -/
def marked (ops : List (Op U G)) (rssId : ℕ) (guid : G) : Bool :=
  ((ops.reverse.find? fun op => op.target == some (rssId, guid)).map Op.isMark).getD false

/-- The condition on a sequence: a guid is marked for a feed only while it is not marked for
another one. -/
def Separate (ops : List (Op U G)) : Prop :=
  ∀ before rssId guid after, ops = before ++ .markRead rssId guid :: after →
    ∀ other, other ≠ rssId → marked before other guid = false

theorem marked_append (ops : List (Op U G)) (op : Op U G) (rssId : ℕ) (guid : G) :
    marked (ops ++ [op]) rssId guid =
      if op.target = some (rssId, guid) then op.isMark else marked ops rssId guid := by
  rw [marked, List.reverse_append, List.reverse_singleton, List.singleton_append, List.find?_cons]
  by_cases h : op.target = some (rssId, guid)
  · rw [if_pos h, h, beq_self_eq_true]
    rfl
  · rw [if_neg h, beq_eq_false_iff_ne.mpr h]
    rfl

theorem separate_append {ops : List (Op U G)} {op : Op U G} :
    Separate (ops ++ [op]) ↔ Separate ops ∧ ∀ rssId guid, op = .markRead rssId guid →
      ∀ other, other ≠ rssId → marked ops other guid = false := by
  constructor
  · intro h
    constructor
    · intro before rssId guid after heq
      refine h before rssId guid (after ++ [op]) ?_
      rw [heq, List.append_assoc, List.cons_append]
    · rintro rssId guid rfl
      exact h ops rssId guid [] rfl
  · rintro ⟨hops, hop⟩ before rssId guid after heq
    rcases List.eq_nil_or_concat after with rfl | ⟨front, last, rfl⟩
    · obtain ⟨rfl, hlast⟩ := List.append_inj' heq rfl
      exact hop rssId guid (List.singleton_inj.mp hlast)
    · refine hops before rssId guid front ?_
      rw [List.concat_eq_append, ← List.cons_append, ← List.append_assoc] at heq
      exact (List.append_inj' heq rfl).1

/-! ## The tables and the operations -/

variable {db db' : Db U G} {ops : List (Op U G)} {rssId : ℕ} {guid : G}

/-- The pair has a row. -/
def Db.HasMark (db : Db U G) (rssId : ℕ) (guid : G) : Prop :=
  ∃ m ∈ db.marks, m.rssId = rssId ∧ m.guid = guid

/-- The rows are the pairs that are marked, no guid has two of them, and no url has two feeds. -/
structure Agrees (db : Db U G) (ops : List (Op U G)) : Prop where
  marks : ∀ rssId guid, db.HasMark rssId guid ↔ marked ops rssId guid = true
  guids : (db.marks.map MarkRead.guid).Nodup
  urls : (db.rss.map Rss.url).Nodup

theorem Agrees.init : Agrees (.init : Db U G) [] := by
  refine ⟨?_, List.nodup_nil, List.nodup_nil⟩
  intro rssId guid
  constructor
  · rintro ⟨m, hm, -⟩
    cases hm
  · intro h
    cases h

theorem hasMark_iff_countP :
    0 < db.marks.countP (fun m => m.rssId == rssId && m.guid == guid) ↔ db.HasMark rssId guid := by
  rw [List.countP_pos_iff]
  simp only [Bool.and_eq_true, beq_iff_eq]
  rfl

/-- A guid has one row at most. -/
theorem Agrees.hasMark_unique (h : Agrees db ops) {other : ℕ} (hm : db.HasMark rssId guid)
    (hm' : db.HasMark other guid) : rssId = other := by
  obtain ⟨m, hm, rfl, rfl⟩ := hm
  obtain ⟨m', hm', rfl, hguid⟩ := hm'
  rw [List.inj_on_of_nodup_map h.guids hm hm' hguid.symm]

variable [DecidableEq U]

/-- A call that succeeds; a sequence runs to its end if all its calls succeed. -/
def step (db : Db U G) : Op U G → Option (Db U G)
  | .addSubscribe url => (db.addSubscribe url).toOption.map Prod.snd
  | .markRead rssId guid => (db.markRead rssId guid).toOption.map Prod.snd
  | .markNotRead rssId guid => (db.markNotRead rssId guid).toOption.map Prod.snd

/-- Every feed lists the guids whose last operation was `mark_read`, each once. -/
def ListsMarked (db : Db U G) (ops : List (Op U G)) : Prop :=
  ∀ r ∈ db.rss, (db.listMarkReadGuid r.url).Nodup ∧
    ∀ guid, guid ∈ db.listMarkReadGuid r.url ↔ marked ops r.id guid = true

/-! ## One operation -/

/-- `mark_read`, by the rows that are there. -/
theorem step_markRead (db : Db U G) (rssId : ℕ) (guid : G) :
    db.HasMark rssId guid ∧ step db (.markRead rssId guid) = some db ∨
      (∃ other, other ≠ rssId ∧ db.HasMark other guid) ∧
        step db (.markRead rssId guid) = none ∨
      (∀ other, ¬ db.HasMark other guid) ∧ step db (.markRead rssId guid) = some { db with
        marks := db.marks ++ [⟨nextId (db.marks.map MarkRead.id), rssId, guid⟩] } := by
  by_cases hpair : db.HasMark rssId guid
  · refine Or.inl ⟨hpair, ?_⟩
    simp only [step, Db.markRead, if_pos (hasMark_iff_countP.mpr hpair)]
    rfl
  · have hcount := mt hasMark_iff_countP.mp hpair
    by_cases hany : ∃ other, db.HasMark other guid
    · obtain ⟨other, hother⟩ := hany
      refine Or.inr (Or.inl ⟨⟨other, ?_, hother⟩, ?_⟩)
      · rintro rfl
        exact hpair hother
      · obtain ⟨m, hm, -, hguid⟩ := hother
        have hrow : (db.marks.any fun m => m.guid == guid) = true :=
          List.any_eq_true.mpr ⟨m, hm, beq_iff_eq.mpr hguid⟩
        simp only [step, Db.markRead, if_neg hcount, Db.insertMark, hrow, if_true]
        rfl
    · refine Or.inr (Or.inr ⟨fun other hother => hany ⟨other, hother⟩, ?_⟩)
      have hrow : ¬ (db.marks.any fun m => m.guid == guid) = true := by
        rw [List.any_eq_true]
        rintro ⟨m, hm, hguid⟩
        exact hany ⟨m.rssId, m, hm, rfl, beq_iff_eq.mp hguid⟩
      simp only [step, Db.markRead, if_neg hcount, Db.insertMark, if_neg hrow]
      rfl

theorem Agrees.markRead (h : Agrees db ops) (hstep : step db (.markRead rssId guid) = some db') :
    Agrees db' (ops ++ [.markRead rssId guid]) := by
  have hmarked : ∀ other guid',
      marked (ops ++ [(.markRead rssId guid : Op U G)]) other guid' = true ↔
      (rssId = other ∧ guid = guid') ∨ marked ops other guid' = true := by
    intro other guid'
    rw [marked_append]
    by_cases htarget : rssId = other ∧ guid = guid'
    · obtain ⟨rfl, rfl⟩ := htarget
      simp [Op.target, Op.isMark]
    · rw [if_neg (by simpa [Op.target] using htarget)]
      simp [htarget]
  rcases step_markRead db rssId guid with ⟨hpair, heq⟩ | ⟨-, heq⟩ | ⟨hnew, heq⟩
  · rw [heq] at hstep
    cases hstep
    refine ⟨?_, h.guids, h.urls⟩
    intro other guid'
    rw [hmarked, h.marks]
    constructor
    · exact Or.inr
    · rintro (⟨rfl, rfl⟩ | hold)
      · exact (h.marks rssId guid).mp hpair
      · exact hold
  · rw [heq] at hstep
    cases hstep
  · rw [heq] at hstep
    cases hstep
    refine ⟨?_, ?_, h.urls⟩
    · intro other guid'
      rw [hmarked, ← h.marks]
      constructor
      · rintro ⟨m, hm, hid, hguid⟩
        rcases List.mem_append.mp hm with hm | hm
        · exact Or.inr ⟨m, hm, hid, hguid⟩
        · rw [List.mem_singleton.mp hm] at hid hguid
          exact Or.inl ⟨hid, hguid⟩
      · rintro (⟨rfl, rfl⟩ | ⟨m, hm, hid, hguid⟩)
        · exact ⟨_, List.mem_append_right _ (List.mem_singleton_self _), rfl, rfl⟩
        · exact ⟨m, List.mem_append_left _ hm, hid, hguid⟩
    · rw [List.map_append, List.map_singleton, List.nodup_append]
      refine ⟨h.guids, List.nodup_singleton _, ?_⟩
      intro g hg g' hg' heq'
      obtain ⟨m, hm, rfl⟩ := List.mem_map.mp hg
      rw [List.mem_singleton] at hg'
      exact hnew m.rssId ⟨m, hm, rfl, heq'.trans hg'⟩

/-- `mark_read` succeeds unless another feed has the guid. -/
theorem Agrees.markRead_succeeds (h : Agrees db ops) (rssId : ℕ) (guid : G) :
    (∃ db', step db (.markRead rssId guid) = some db') ↔
      ∀ other, other ≠ rssId → marked ops other guid = false := by
  have hrow : ∀ other, marked ops other guid = false ↔ ¬ db.HasMark other guid := by
    intro other
    rw [h.marks, Bool.not_eq_true]
  simp only [hrow]
  rcases step_markRead db rssId guid with ⟨hpair, heq⟩ | ⟨⟨other, hne, hother⟩, heq⟩ | ⟨hnew, heq⟩
  · simp only [heq, Option.some.injEq, exists_eq', true_iff]
    exact fun other hne hother => hne (h.hasMark_unique hother hpair)
  · simp only [heq, reduceCtorEq, exists_false, false_iff]
    exact fun hnone => hnone other hne hother
  · simp only [heq, Option.some.injEq, exists_eq', true_iff]
    exact fun other _ => hnew other

theorem Agrees.markNotRead (h : Agrees db ops)
    (hstep : step db (.markNotRead rssId guid) = some db') :
    Agrees db' (ops ++ [.markNotRead rssId guid]) := by
  have hdb : db' = { db with
      marks := db.marks.filter fun m => !(m.rssId == rssId && m.guid == guid) } :=
    (Option.some.inj hstep).symm
  subst hdb
  refine ⟨?_, ?_, h.urls⟩
  · intro other guid'
    rw [marked_append]
    by_cases htarget : rssId = other ∧ guid = guid'
    · obtain ⟨rfl, rfl⟩ := htarget
      have hself : (Op.markNotRead rssId guid : Op U G).target = some (rssId, guid) := rfl
      rw [if_pos hself]
      constructor
      · rintro ⟨m, hm, hid, hguid⟩
        have hkeep := (List.mem_filter.mp hm).2
        rw [hid, hguid, beq_self_eq_true, beq_self_eq_true] at hkeep
        cases hkeep
      · intro hfalse
        cases hfalse
    · rw [if_neg (by simpa [Op.target] using htarget), ← h.marks]
      constructor
      · rintro ⟨m, hm, hid, hguid⟩
        exact ⟨m, List.mem_of_mem_filter hm, hid, hguid⟩
      · rintro ⟨m, hm, rfl, rfl⟩
        refine ⟨m, List.mem_filter.mpr ⟨hm, ?_⟩, rfl, rfl⟩
        rw [Bool.not_eq_true', Bool.and_eq_false_iff, beq_eq_false_iff_ne, beq_eq_false_iff_ne]
        by_contra hboth
        rw [not_or, not_not, not_not] at hboth
        exact htarget ⟨hboth.1.symm, hboth.2.symm⟩
  · exact h.guids.sublist (List.filter_sublist.map _)

theorem Agrees.addSubscribe {url : U} (h : Agrees db ops)
    (hstep : step db (.addSubscribe url) = some db') : Agrees db' (ops ++ [.addSubscribe url]) := by
  have hmarked : ∀ rssId guid, marked (ops ++ [(.addSubscribe url : Op U G)]) rssId guid =
      marked ops rssId guid := by
    intro rssId guid
    rw [marked_append, if_neg (by simp [Op.target])]
  simp only [step, Db.addSubscribe] at hstep
  split at hstep
  · cases hstep
    exact ⟨fun rssId guid => by rw [hmarked]; exact h.marks rssId guid, h.guids, h.urls⟩
  · next hcount =>
      cases hstep
      refine ⟨fun rssId guid => by rw [hmarked]; exact h.marks rssId guid, h.guids, ?_⟩
      show ((db.rss ++ [_]).map Rss.url).Nodup
      rw [List.map_append, List.map_singleton, List.nodup_append]
      refine ⟨h.urls, List.nodup_singleton _, ?_⟩
      intro u hu u' hu' heq
      obtain ⟨r, hr, rfl⟩ := List.mem_map.mp hu
      rw [List.mem_singleton] at hu'
      exact hcount (List.countP_pos_iff.mpr ⟨r, hr, beq_iff_eq.mpr (heq.trans hu')⟩)

/-- **One operation that succeeds.** -/
theorem Agrees.step {op : Op U G} (h : Agrees db ops) (hstep : step db op = some db') :
    Agrees db' (ops ++ [op]) := by
  cases op with
  | addSubscribe url => exact h.addSubscribe hstep
  | markRead rssId guid => exact h.markRead hstep
  | markNotRead rssId guid => exact h.markNotRead hstep

/-! ## Sequences -/

/-- The rows are what the feeds list. -/
theorem Agrees.listsMarked (h : Agrees db ops) : ListsMarked db ops := by
  intro r hr
  have hfind : db.rss.find? (fun q => q.url == r.url) = some r := by
    cases hq : db.rss.find? fun q => q.url == r.url with
    | none =>
        have hno := List.find?_eq_none.mp hq r hr
        rw [beq_self_eq_true] at hno
        exact absurd rfl hno
    | some q =>
        have hurl : q.url = r.url := by simpa using List.find?_some hq
        rw [List.inj_on_of_nodup_map h.urls (List.mem_of_find?_eq_some hq) hr hurl]
  rw [Db.listMarkReadGuid, hfind]
  constructor
  · exact h.guids.sublist (List.filter_sublist.map _)
  · intro guid
    rw [← h.marks, List.mem_map]
    simp only [List.mem_filter, beq_iff_eq]
    constructor
    · rintro ⟨m, ⟨hm, hid⟩, hguid⟩
      exact ⟨m, hm, hid, hguid⟩
    · rintro ⟨m, hm, hid, hguid⟩
      exact ⟨m, ⟨hm, hid⟩, hguid⟩

/-- A sequence that runs to its end keeps the tables and the operations together. -/
theorem agrees_of_exec (h : Transition.exec step (.init : Db U G) ops = some db) :
    Agrees db ops := by
  induction ops using List.reverseRecOn generalizing db with
  | nil =>
      cases h
      exact Agrees.init
  | append_singleton ops op ih =>
      rw [Transition.exec_append, Option.bind_eq_some_iff] at h
      obtain ⟨db₀, h₀, hop⟩ := h
      rw [Transition.exec_cons, Option.bind_eq_some_iff] at hop
      obtain ⟨db₁, h₁, hlast⟩ := hop
      cases hlast
      exact (ih h₀).step h₁

/-- All calls succeed exactly if the feeds keep their guids apart. -/
theorem exec_succeeds (ops : List (Op U G)) :
    (∃ db, Transition.exec step (.init : Db U G) ops = some db) ↔ Separate ops := by
  induction ops using List.reverseRecOn with
  | nil =>
      refine iff_of_true ⟨_, rfl⟩ ?_
      intro before rssId guid after heq
      cases before <;> cases heq
  | append_singleton ops op ih =>
      rw [separate_append, ← ih]
      constructor
      · rintro ⟨db, h⟩
        rw [Transition.exec_append, Option.bind_eq_some_iff] at h
        obtain ⟨db₀, h₀, hop⟩ := h
        rw [Transition.exec_cons, Option.bind_eq_some_iff] at hop
        obtain ⟨db₁, h₁, -⟩ := hop
        refine ⟨⟨db₀, h₀⟩, ?_⟩
        rintro rssId guid rfl
        exact ((agrees_of_exec h₀).markRead_succeeds rssId guid).mp ⟨db₁, h₁⟩
      · rintro ⟨⟨db₀, h₀⟩, hop⟩
        have hlast : ∃ db, step db₀ op = some db := by
          cases op with
          | addSubscribe url =>
              simp only [step, Db.addSubscribe]
              split <;> exact ⟨_, rfl⟩
          | markRead rssId guid =>
              exact ((agrees_of_exec h₀).markRead_succeeds rssId guid).mpr (hop rssId guid rfl)
          | markNotRead rssId guid => exact ⟨_, rfl⟩
        obtain ⟨db, hdb⟩ := hlast
        refine ⟨db, ?_⟩
        rw [Transition.exec_append, h₀, Option.bind_some, Transition.exec_cons, hdb]
        rfl

/-- **When the marks are a set per feed.**  Every call succeeds, and every feed lists the guids
whose last operation was `mark_read`, each once, if and only if no guid is marked for a feed while
it is marked for another one. -/
theorem read_marks_iff (ops : List (Op U G)) :
    (∃ db, Transition.exec step (.init : Db U G) ops = some db ∧ ListsMarked db ops) ↔
      Separate ops := by
  rw [← exec_succeeds]
  constructor
  · rintro ⟨db, h, -⟩
    exact ⟨db, h⟩
  · rintro ⟨db, h⟩
    exact ⟨db, h, (agrees_of_exec h).listsMarked⟩

/-- Two feeds have the same item. -/
def sharedGuid : List (Op ℕ ℕ) :=
  [.addSubscribe 10, .addSubscribe 20, .markRead 1 7, .markRead 2 7]

/-- The second `mark_read` fails, and the second feed does not list the guid. -/
theorem shared_guid_fails :
    ∃ db : Db ℕ ℕ, Transition.exec step .init (sharedGuid.take 3) = some db ∧
      db.markRead 2 7 = .error .uniqueGuid ∧ 7 ∉ db.listMarkReadGuid 20 ∧
      ¬ ∃ db, Transition.exec step (.init : Db ℕ ℕ) sharedGuid = some db ∧
        ListsMarked db sharedGuid := by
  refine ⟨⟨[⟨1, 10⟩, ⟨2, 20⟩], [⟨1, 1, 7⟩]⟩, by decide, by decide, by decide, ?_⟩
  rintro ⟨db, h, -⟩
  have hnone : Transition.exec step (.init : Db ℕ ℕ) sharedGuid = none := by decide
  rw [hnone] at h
  cases h

end ReadMarks
