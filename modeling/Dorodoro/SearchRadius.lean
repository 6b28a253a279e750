/-
# The radius of a search in the DHT (`bt/dht.rs`)

A query takes the least distance known when it is begun along and reports the least distance of
its answer and of that.  `find_peers` then overwrites its own distance with the report, whatever
other queries have found in the meantime.

* `Round` is a round of the loop in which the query that is done may carry any answer;
* `History` keeps the distances `find_peers` had, those that were reported to it, the answers that
  were merged, and when each query was begun among them;
* `InTime` is the condition on the order of the queries and on their answers: what was merged
  while a query was under way is no nearer than what was known before or what it found itself;
* `Linked`: the distances of the loop and of its queries, in terms of the answers;
* `keeps_iff`: the rounds in which the distance does not grow, and `inTime_iff_keeps`: they are
  those that meet the condition;
* `least_of_inTime`: in a run whose rounds all meet it, the distance never grows and stays at or
  below every report, and the first round that does not meet it breaks this.
-/
import Dorodoro.DhtLookup

namespace DhtLookup

open Routing (NodeId)
open Transition

/-! ## Rounds with any answers -/

/-- A round: what the environment decides, and the answer of the query that is done. -/
structure Round where
  act : Act
  answer : Option (List (NodeId × SocketAddr) × ℕ)
  deriving DecidableEq

/-- The network in a round. -/
def Lookup.during (L : Lookup) (r : Round) : Lookup := { L with answers := fun _ => r.answer }

/-- A round of the loop of `find_peers` with this answer. -/
def roundStep (L : Lookup) (s : State SocketAddr) (r : Round) : Option (State SocketAddr) :=
  step (L.during r) s r.act

/-- The query that is popped from the futures in a round. -/
def popped (s : State SocketAddr) (r : Round) : Option (Query SocketAddr) :=
  if (r.act.full ∨ s.refill.queue = []) ∧ s.refill.futures ≠ [] then s.refill.futures[r.act.pick]?
  else none

/-- What a round leaves of a list with one entry for each query under way. -/
def left {β : Type} (s : State SocketAddr) (r : Round) (l : List β) : List β :=
  if (popped s r).isSome then l.eraseIdx r.act.pick else l

/-- How many queries are begun in a round. -/
def launched (L : Lookup) (s : State SocketAddr) (r : Round) : ℕ :=
  (roundStep L s r).elim 0 fun s' => s'.futures.length - (left s r s.futures).length

/-- The distance that is reported in a round. -/
def reported (L : Lookup) (s : State SocketAddr) (r : Round) : Option ℕ :=
  (popped s r).bind fun q => ((L.during r).asyncFindPeers q).map fun report => report.2.1

/-- The distances of the nodes that an answer lists. -/
def Lookup.listed (L : Lookup) (answer : List (NodeId × SocketAddr) × ℕ) : List ℕ :=
  answer.1.map fun node => L.dist node.1

/-- The answer that is merged in a round. -/
def merged (L : Lookup) (s : State SocketAddr) (r : Round) : Option (List ℕ) :=
  (popped s r).bind fun _ => r.answer.map L.listed

/-- What has been so far. -/
structure History where
  /-- The values of `min_dist`. -/
  radii : List ℕ
  /-- The distances that the popped queries reported. -/
  reports : List ℕ
  /-- The answers that were merged. -/
  answers : List (List ℕ)
  /-- How many answers had been merged when each query under way was begun. -/
  begun : List ℕ
  deriving DecidableEq

/-- A round is noted. -/
def record (L : Lookup) (s : State SocketAddr) (r : Round) (h : History) : History where
  radii := h.radii ++ [s.minDist]
  reports := h.reports ++ (reported L s r).toList
  answers := h.answers ++ (merged L s r).toList
  begun := left s r h.begun ++
    List.replicate (launched L s r) (h.answers ++ (merged L s r).toList).length

/-- A search with its history. -/
abbrev Searched (L : Lookup) (G : State SocketAddr × History → Round → Prop) (rs : List Round)
    (s : State SocketAddr) (h : History) : Prop :=
  Run (observe (roundStep L) (record L)) G (.init L, ⟨[], [], [], []⟩) rs (s, h)

/-- The distances that are known after some answers, that of the own id among them. -/
def Lookup.known (L : Lookup) (answers : List (List ℕ)) : List ℕ :=
  L.dist L.ownId :: answers.flatten

/-- Nothing is nearer than all that is known. -/
def Covers (known ds : List ℕ) : Prop := ∀ d ∈ ds, ∃ m ∈ known, m ≤ d

instance (known ds : List ℕ) : Decidable (Covers known ds) :=
  inferInstanceAs (Decidable (∀ d ∈ ds, ∃ m ∈ known, m ≤ d))

/-- **The condition.**  An answer that ends the search lists nobody nearer than what is known.  Of
any other answer, what was merged while its query was under way is no nearer than what was known
before and what it lists itself. -/
def InTime (L : Lookup) (s : State SocketAddr) (h : History) (r : Round) : Prop :=
  ∀ k ∈ (popped s r).bind fun _ => h.begun[r.act.pick]?, ∀ answer ∈ r.answer,
    if L.expectPeers ≤ s.count + answer.2 then Covers (L.known h.answers) (L.listed answer)
    else Covers (L.known (h.answers.take k) ++ L.listed answer) (h.answers.drop k).flatten

instance (L : Lookup) (s : State SocketAddr) (h : History) (r : Round) :
    Decidable (InTime L s h r) :=
  inferInstanceAs (Decidable (∀ k ∈ (popped s r).bind _, ∀ answer ∈ r.answer, ite _ _ _))

/-- Nothing that was before and nothing that was reported is below the distance. -/
def Least (s : State SocketAddr) (h : History) : Prop :=
  (∀ m ∈ h.radii, s.minDist ≤ m) ∧ ∀ d ∈ h.reports, s.minDist ≤ d

/-! ## What a query reports -/

variable {L : Lookup} {s s' : State SocketAddr} {q : Query SocketAddr} {r : Round} {h : History}

/-- The distance that a query reports with an answer. -/
def Lookup.report (L : Lookup) (minDist : ℕ) (nodes : List (NodeId × SocketAddr)) : ℕ :=
  (L.near minDist nodes).foldl (fun m node => min m (L.dist node.1)) minDist

/-- A report is small if the query was begun so, or a node of the answer is near. -/
theorem report_le_iff {m d : ℕ} {nodes : List (NodeId × SocketAddr)} (h : m ≤ d) :
    L.report d nodes ≤ m ↔ d ≤ m ∨ ∃ node ∈ nodes, L.dist node.1 ≤ m := by
  rw [Lookup.report, Counting.foldl_min_le_iff]
  refine or_congr_right ?_
  simp only [Lookup.near, List.mem_filter, decide_eq_true_eq]
  constructor
  · rintro ⟨node, ⟨hnode, -⟩, hle⟩
    exact ⟨node, hnode, hle⟩
  · rintro ⟨node, hnode, hle⟩
    exact ⟨node, ⟨hnode, hle.trans h⟩, hle⟩

/-- Nodes that are not near enough do not matter: they are beyond the distance of the query. -/
theorem le_report_iff {m d : ℕ} {nodes : List (NodeId × SocketAddr)} :
    m ≤ L.report d nodes ↔ m ≤ d ∧ ∀ node ∈ nodes, m ≤ L.dist node.1 := by
  rw [Lookup.report, Counting.le_foldl_min_iff]
  refine and_congr_right fun hm => ?_
  simp only [Lookup.near, List.mem_filter, decide_eq_true_eq]
  constructor
  · intro hnear node hnode
    rcases Nat.le_total (L.dist node.1) d with hle | hle
    · exact hnear node ⟨hnode, hle⟩
    · exact hm.trans hle
  · intro hall node hnode
    exact hall node hnode.1

/-! ## A round -/

theorem minDist_launch (s : State SocketAddr) : s.launch.minDist = s.minDist := by
  unfold State.launch
  split
  · rfl
  · split <;> rfl

/-- The queries that are begun take the present distance along. -/
theorem futures_launch (s : State SocketAddr) :
    ∃ new, s.launch.futures = s.futures ++ new ∧ ∀ q ∈ new, q.minDist = s.minDist := by
  unfold State.launch
  split
  · next node rest _ =>
      exact ⟨[⟨node.2, s.minDist⟩], rfl, fun q hq => by rw [List.mem_singleton.mp hq]⟩
  · refine ⟨[], ?_, fun q hq => absurd hq List.not_mem_nil⟩
    split <;> exact (List.append_nil _).symm

/-- What a round reports. -/
theorem reported_eq : reported L s r =
    (popped s r).bind fun q => r.answer.map fun answer => L.report q.minDist answer.1 := by
  unfold reported
  congr 1
  funext q
  show Option.map _ (Option.map _ r.answer) = _
  rw [Option.map_map]
  rfl

/-- The query that is popped is under way. -/
theorem getElem?_of_popped (hq : popped s r = some q) : s.futures[r.act.pick]? = some q := by
  unfold popped at hq
  split at hq
  · rw [← (refill_futures s).1]
    exact hq
  · cases hq

/-- **A round.**  The distance stays as it is, or is overwritten with the report, unless the search
ends. -/
theorem roundStep_cases (hs : roundStep L s r = some s') :
    s.returned = false ∧
      (∃ new, s'.futures = left s r s.futures ++ new ∧ ∀ q ∈ new, q.minDist = s'.minDist) ∧
      ((merged L s r = none ∧ reported L s r = none ∧ s'.minDist = s.minDist) ∨
        ∃ q answer, popped s r = some q ∧ r.answer = some answer ∧
          if L.expectPeers ≤ s.count + answer.2 then s'.minDist = s.minDist ∧ s'.returned = true
          else s'.minDist = L.report q.minDist answer.1) := by
  obtain ⟨hfutures, hmin, hcount⟩ := refill_futures s
  rw [reported_eq]
  unfold roundStep step loopRound at hs
  split at hs
  · cases hs
  · next hreturned =>
      refine ⟨Bool.eq_false_iff.mpr hreturned, ?_⟩
      unfold left merged popped
      split at hs
      · next hpop =>
          obtain ⟨q, hq, rfl⟩ := Option.map_eq_some_iff.mp hs
          rw [if_pos hpop, hq, hfutures]
          unfold State.harvest
          have hasync : (L.during r).asyncFindPeers q = r.answer.map fun x =>
              ((L.near q.minDist x.1).map fun node => (some node.1, node.2),
                L.report q.minDist x.1, x.2) := rfl
          rw [hasync]
          cases hanswer : r.answer with
          | none =>
              obtain ⟨new, hnew, hsame⟩ := futures_launch
                { s.refill with futures := s.futures.eraseIdx r.act.pick }
              refine ⟨⟨new, hnew, fun q hq => ?_⟩, Or.inl ⟨rfl, rfl, (minDist_launch _).trans hmin⟩⟩
              exact (hsame q hq).trans (minDist_launch _).symm
          | some answer =>
              have hexpect : (L.during r).expectPeers = L.expectPeers := rfl
              dsimp only [Option.map_some]
              rw [hcount, hexpect]
              split
              · next henough =>
                  refine ⟨⟨[], (List.append_nil _).symm, fun q hq => absurd hq List.not_mem_nil⟩,
                    Or.inr ⟨q, answer, rfl, rfl, ?_⟩⟩
                  rw [if_pos henough]
                  exact ⟨hmin, rfl⟩
              · next hfew =>
                  obtain ⟨new, hnew, hsame⟩ := futures_launch _
                  refine ⟨⟨new, hnew, fun q hq => ?_⟩, Or.inr ⟨q, answer, rfl, rfl, ?_⟩⟩
                  · exact (hsame q hq).trans (minDist_launch _).symm
                  · rw [if_neg hfew]
                    exact minDist_launch _
      · next hpop =>
          cases hs
          rw [if_neg hpop]
          obtain ⟨new, hnew, hsame⟩ := futures_launch s.refill
          rw [hfutures] at hnew
          refine ⟨⟨new, hnew, fun q hq => ?_⟩, Or.inl ⟨rfl, rfl, (minDist_launch _).trans hmin⟩⟩
          exact (hsame q hq).trans (minDist_launch _).symm

/-! ## Rounds in which the distance does not grow -/

/-- An answer that ends the search reports nothing below the distance, any other answer comes from
a query that was begun with no greater distance, or lists a node within it. -/
def Keeps (L : Lookup) (s : State SocketAddr) (r : Round) : Prop :=
  ∀ q ∈ popped s r, ∀ answer ∈ r.answer,
    if L.expectPeers ≤ s.count + answer.2 then
      s.minDist ≤ q.minDist ∧ ∀ node ∈ answer.1, s.minDist ≤ L.dist node.1
    else q.minDist ≤ s.minDist ∨ ∃ node ∈ answer.1, L.dist node.1 ≤ s.minDist

/-- The distance does not grow in a round and is not above its report. -/
theorem keeps_iff (hs : roundStep L s r = some s') :
    Keeps L s r ↔ s'.minDist ≤ s.minDist ∧ ∀ d ∈ reported L s r, s'.minDist ≤ d := by
  obtain ⟨-, -, ⟨-, hnone, hmin⟩ | ⟨q, answer, hpopped, hanswer, hmin⟩⟩ := roundStep_cases hs
  · refine iff_of_true (fun q hq answer hanswer => ?_) ⟨hmin.le, fun d hd => ?_⟩
    · rw [reported_eq, hq, hanswer] at hnone
      cases hnone
    · rw [hnone] at hd
      cases hd
  · have hreport : reported L s r = some (L.report q.minDist answer.1) := by
      rw [reported_eq, hpopped, hanswer]
      rfl
    have hkeeps : Keeps L s r ↔ if L.expectPeers ≤ s.count + answer.2 then
        s.minDist ≤ q.minDist ∧ ∀ node ∈ answer.1, s.minDist ≤ L.dist node.1
        else q.minDist ≤ s.minDist ∨ ∃ node ∈ answer.1, L.dist node.1 ≤ s.minDist := by
      simp only [Keeps, hpopped, hanswer, Option.mem_def, Option.some.injEq, forall_eq']
    rw [hkeeps, hreport]
    simp only [Option.mem_def, Option.some.injEq, forall_eq']
    split at hmin
    · -- the search ends: the distance stays, whatever is reported
      next henough =>
        rw [if_pos henough, hmin.1, ← le_report_iff]
        exact ⟨fun hle => ⟨le_rfl, hle⟩, And.right⟩
    · next hfew =>
        rw [if_neg hfew, hmin, and_iff_left le_rfl]
        rcases Nat.le_total q.minDist s.minDist with hle | hle
        · exact iff_of_true (Or.inl hle) ((Counting.foldl_min_le_iff _ _).mpr (Or.inl hle))
        · rw [report_le_iff hle]

/-- **A round** in which the distance does not grow. -/
theorem Least.step (hl : Least s h) (hk : Keeps L s r) (hs : roundStep L s r = some s') :
    Least s' (record L s r h) := by
  obtain ⟨hle, hreport⟩ := (keeps_iff hs).mp hk
  constructor
  · intro m hm
    rcases List.mem_append.mp hm with hm | hm
    · exact hle.trans (hl.1 m hm)
    · rw [List.mem_singleton.mp hm]
      exact hle
  · intro d hd
    rcases List.mem_append.mp hd with hd | hd
    · exact hle.trans (hl.2 d hd)
    · exact hreport d (Option.mem_toList.mp hd)

/-- What is noted of a round says whether the distance has grown in it. -/
theorem keeps_of_least (hl : Least s' (record L s r h)) (hs : roundStep L s r = some s') :
    Keeps L s r := by
  refine (keeps_iff hs).mpr ⟨hl.1 s.minDist ?_, fun d hd => hl.2 d ?_⟩
  · exact List.mem_append_right _ List.mem_cons_self
  · exact List.mem_append_right _ (Option.mem_toList.mpr hd)

/-! ## The distances and the answers -/

/-- The least distance that is known after some answers. -/
def Lookup.least (L : Lookup) (answers : List (List ℕ)) : ℕ :=
  answers.flatten.foldl (fun m d => min m d) (L.dist L.ownId)

theorem least_le_iff {answers : List (List ℕ)} {m : ℕ} :
    L.least answers ≤ m ↔ ∃ d ∈ L.known answers, d ≤ m := by
  rw [Lookup.least, Counting.foldl_min_le_iff, Lookup.known, List.exists_mem_cons_iff]

theorem le_least_iff {answers : List (List ℕ)} {m : ℕ} :
    m ≤ L.least answers ↔ ∀ d ∈ L.known answers, m ≤ d := by
  rw [Lookup.least, Counting.le_foldl_min_iff, Lookup.known, List.forall_mem_cons]

/-- Later answers only add to what is known. -/
theorem known_append (answers answers' : List (List ℕ)) :
    L.known (answers ++ answers') = L.known answers ++ answers'.flatten := by
  rw [Lookup.known, List.flatten_append, ← List.cons_append, ← Lookup.known]

/-- What was known earlier is no nearer than what is known now. -/
theorem least_le_least_take (answers : List (List ℕ)) (k : ℕ) :
    L.least answers ≤ L.least (answers.take k) := by
  refine le_least_iff.mpr fun d hd => least_le_iff.mpr ⟨d, ?_, le_rfl⟩
  rw [← List.take_append_drop k answers, known_append]
  exact List.mem_append_left _ hd

theorem le_least_append_iff {answers : List (List ℕ)} {ds : List ℕ} {m : ℕ} :
    m ≤ L.least (answers ++ [ds]) ↔ m ≤ L.least answers ∧ ∀ d ∈ ds, m ≤ d := by
  rw [le_least_iff, known_append, List.forall_mem_append, le_least_iff, List.flatten_singleton]

/-- What came after the first answers is no nearer than they and some more distances. -/
theorem covers_drop_iff {answers : List (List ℕ)} {k : ℕ} {ds : List ℕ} :
    Covers (L.known (answers.take k) ++ ds) (answers.drop k).flatten ↔
      L.least (answers.take k) ≤ L.least answers ∨ ∃ d ∈ ds, d ≤ L.least answers := by
  have hsplit : L.known answers = L.known (answers.take k) ++ (answers.drop k).flatten := by
    rw [← known_append, List.take_append_drop]
  constructor
  · intro hcovers
    obtain ⟨d, hd, hle⟩ := least_le_iff.mp (le_refl (L.least answers))
    rw [hsplit] at hd
    rcases List.mem_append.mp hd with hd | hd
    · exact Or.inl (least_le_iff.mpr ⟨d, hd, hle⟩)
    · obtain ⟨m, hm, hmd⟩ := hcovers d hd
      rcases List.mem_append.mp hm with hm | hm
      · exact Or.inl (least_le_iff.mpr ⟨m, hm, hmd.trans hle⟩)
      · exact Or.inr ⟨m, hm, hmd.trans hle⟩
  · intro hle d hd
    have hd : L.least answers ≤ d := by
      refine le_least_iff.mp le_rfl d ?_
      rw [hsplit]
      exact List.mem_append_right _ hd
    rcases hle with hle | ⟨m, hm, hle⟩
    · obtain ⟨m, hm, hmd⟩ := least_le_iff.mp (hle.trans hd)
      exact ⟨m, List.mem_append_left _ hm, hmd⟩
    · exact ⟨m, List.mem_append_right _ hm, hle.trans hd⟩

/-- The distance of the loop is the least one that is known, and that of a query the least one that
was known when it was begun. -/
structure Linked (L : Lookup) (s : State SocketAddr) (h : History) : Prop where
  minDist : s.minDist = L.least h.answers
  begun : ∀ k ∈ h.begun, k ≤ h.answers.length
  futures : s.futures.map Query.minDist = h.begun.map fun k => L.least (h.answers.take k)

theorem Linked.init (L : Lookup) : Linked L (.init L) ⟨[], [], [], []⟩ :=
  ⟨rfl, fun _ hk => absurd hk List.not_mem_nil, rfl⟩

/-- When a query was begun. -/
theorem Linked.begun_of_popped (hl : Linked L s h) (hq : popped s r = some q) :
    ∃ k, h.begun[r.act.pick]? = some k ∧ q.minDist = L.least (h.answers.take k) := by
  have hat := congrArg (fun l => l[r.act.pick]?) hl.futures
  simp only [List.getElem?_map, getElem?_of_popped hq, Option.map_some] at hat
  obtain ⟨k, hk, heq⟩ := Option.map_eq_some_iff.mp hat.symm
  exact ⟨k, hk, heq.symm⟩

/-- **The condition, in terms of the distances.** -/
theorem inTime_iff_keeps (hl : Linked L s h) : InTime L s h r ↔ Keeps L s r := by
  unfold InTime Keeps
  cases hq : popped s r with
  | none => exact iff_of_true (fun _ hk => by cases hk) (fun _ hq => by cases hq)
  | some q =>
      obtain ⟨k, hk, hmd⟩ := hl.begun_of_popped hq
      simp only [Option.bind_some, hk, Option.mem_def, Option.some.injEq, forall_eq']
      refine forall_congr' fun answer => imp_congr_right fun _ => ?_
      rw [hl.minDist, hmd]
      split
      · rw [and_iff_right (least_le_least_take _ _)]
        exact List.forall_mem_map.trans (forall₂_congr fun _ _ => least_le_iff.symm)
      · rw [covers_drop_iff]
        refine or_congr_right ?_
        simp only [Lookup.listed, List.mem_map, exists_exists_and_eq_and]

theorem mem_of_mem_left {β : Type} {l : List β} {x : β} (hx : x ∈ left s r l) : x ∈ l := by
  unfold left at hx
  split at hx
  · exact List.mem_of_mem_eraseIdx hx
  · exact hx

theorem left_map {β γ : Type} (f : β → γ) (l : List β) :
    (left s r l).map f = left s r (l.map f) := by
  unfold left
  split
  · exact (List.eraseIdx_map f l _).symm
  · rfl

/-- What is known after a round in which the distance does not grow, if the search goes on. -/
theorem Linked.minDist_step (hl : Linked L s h) (hk : Keeps L s r)
    (hs : roundStep L s r = some s') (hgoes : s'.returned = false) :
    s'.minDist = L.least (record L s r h).answers := by
  obtain ⟨hle, -⟩ := (keeps_iff hs).mp hk
  rw [hl.minDist] at hle
  unfold record
  obtain ⟨-, -, ⟨hmerged, -, heq⟩ | ⟨q, answer, hpopped, hanswer, heq⟩⟩ := roundStep_cases hs
  · rw [hmerged, heq, hl.minDist]
    exact congrArg L.least (List.append_nil _).symm
  · obtain ⟨k, -, hmd⟩ := hl.begun_of_popped hpopped
    have hmerged : merged L s r = some (L.listed answer) := by
      unfold merged
      rw [hpopped, hanswer]
      rfl
    split at heq
    · exact absurd (hgoes.symm.trans heq.2) Bool.false_ne_true
    · rw [hmerged]
      refine eq_of_forall_le_iff fun m => ?_
      show m ≤ s'.minDist ↔ m ≤ L.least (h.answers ++ [L.listed answer])
      rw [le_least_append_iff, Lookup.listed, List.forall_mem_map]
      constructor
      · intro hm
        exact ⟨hm.trans hle, (le_report_iff.mp (heq ▸ hm)).2⟩
      · rintro ⟨hm, hnodes⟩
        rw [heq, le_report_iff, hmd]
        exact ⟨hm.trans (least_le_least_take _ _), hnodes⟩

/-- **A round** that meets the condition keeps the distances linked. -/
theorem Linked.step (hl : Linked L s h) (hk : Keeps L s r) (hs : roundStep L s r = some s')
    (hgoes : s'.returned = false) : Linked L s' (record L s r h) := by
  have hmin := hl.minDist_step hk hs hgoes
  obtain ⟨-, ⟨new, hnew, hsame⟩, -⟩ := roundStep_cases hs
  have hbegun : ∀ k ∈ left s r h.begun, k ≤ h.answers.length :=
    fun k hk => hl.begun k (mem_of_mem_left hk)
  refine ⟨hmin, fun k hk => ?_, ?_⟩
  · rcases List.mem_append.mp hk with hk | hk
    · exact (hbegun k hk).trans (List.length_append ▸ Nat.le_add_right _ _)
    · exact (List.eq_of_mem_replicate hk).le
  · have hlaunched : launched L s r = new.length := by
      unfold launched
      rw [hs]
      show s'.futures.length - _ = _
      rw [hnew, List.length_append, Nat.add_sub_cancel_left]
    have hold : (left s r s.futures).map Query.minDist =
        (left s r h.begun).map fun k => L.least ((record L s r h).answers.take k) := by
      rw [left_map, hl.futures, ← left_map]
      refine List.map_congr_left fun k hk => ?_
      rw [record, List.take_append_of_le_length (hbegun k hk)]
    have hbegins : new.map Query.minDist =
        List.replicate new.length (L.least (record L s r h).answers) :=
      List.eq_replicate_iff.mpr ⟨List.length_map _, fun m hm => by
        obtain ⟨q, hq, rfl⟩ := List.mem_map.mp hm
        exact (hsame q hq).trans hmin⟩
    have hafter : (record L s r h).begun = left s r h.begun ++
        List.replicate new.length (record L s r h).answers.length := by
      rw [← hlaunched]
      rfl
    rw [hnew, hafter, List.map_append, List.map_append, hold, hbegins, List.map_replicate,
      List.take_length]

/-! ## A run -/

/-- **The radius.**  In a run whose rounds all meet the condition, whatever the order of the queries
and their answers, the distance is never greater than it was before, nor than a distance that was
reported; and this holds after one more round if and only if that round meets the condition. -/
theorem least_of_inTime (L : Lookup) {rs : List Round} {s : State SocketAddr} {h : History}
    (hrun : Searched L (fun x r => InTime L x.1 x.2 r) rs s h) :
    Least s h ∧ ∀ r s', roundStep L s r = some s' →
      (InTime L s h r ↔ Least s' (record L s r h)) := by
  have hinv : (s.returned = false → Linked L s h) ∧ Least s h := by
    refine hrun.invariant_observe (I := fun s h => (s.returned = false → Linked L s h) ∧ Least s h)
      ⟨fun _ => .init L, ?_, ?_⟩ fun s h r s' hI hg hs => ?_
    · exact fun m hm => absurd hm List.not_mem_nil
    · exact fun d hd => absurd hd List.not_mem_nil
    · have hlinked := hI.1 (roundStep_cases hs).1
      have hk := (inTime_iff_keeps hlinked).mp hg
      exact ⟨hlinked.step hk hs, hI.2.step hk hs⟩
  refine ⟨hinv.2, fun r s' hs => ?_⟩
  rw [inTime_iff_keeps (hinv.1 (roundStep_cases hs).1)]
  exact ⟨fun hk => hinv.2.step hk hs, fun hl => keeps_of_least hl hs⟩

/-- Two nodes are known, and the own id is far away. -/
def twoKnown : Lookup where
  ownId := idOf 255
  infoHash := idOf 0
  expectPeers := 25
  nodes := [(idOf 3, .v4 1 1), (idOf 4, .v4 2 2)]
  bootstrapNodes := []
  answers := fun _ => none

/-- Both nodes are asked; the first one lists a node at distance 1. -/
def bothAsked : List Round :=
  [⟨⟨false, 0⟩, none⟩, ⟨⟨false, 0⟩, none⟩, ⟨⟨false, 0⟩, some ([(idOf 1, .v4 3 3)], 0)⟩]

/-- The second node lists another node. -/
def secondLists (n : UInt8) : Round := ⟨⟨false, 0⟩, some ([(idOf n, .v4 4 4)], 0)⟩

/-- The second node lists one at distance 1 as well, or one at distance 2. -/
theorem least_of_inTime_twoKnown : ∃ s h s₁ s₂,
    Searched twoKnown (fun x r => InTime twoKnown x.1 x.2 r) bothAsked s h ∧
      s.minDist = 1 ∧ h.reports = [1] ∧ Least s h ∧
      roundStep twoKnown s (secondLists 1) = some s₁ ∧ s₁.minDist = 1 ∧
      Least s₁ (record twoKnown s (secondLists 1) h) ∧
      roundStep twoKnown s (secondLists 2) = some s₂ ∧ s₂.minDist = 2 ∧
      ¬ Least s₂ (record twoKnown s (secondLists 2) h) := by
  have hexec : (execIf (observe (roundStep twoKnown) (record twoKnown))
      (fun x r => InTime twoKnown x.1 x.2 r) (.init twoKnown, ⟨[], [], [], []⟩) bothAsked).map
        (fun x => ((x.1.minDist, x.2.reports),
          ((roundStep twoKnown x.1 (secondLists 1)).map State.minDist,
            decide (InTime twoKnown x.1 x.2 (secondLists 1))),
          (roundStep twoKnown x.1 (secondLists 2)).map State.minDist,
            decide (InTime twoKnown x.1 x.2 (secondLists 2)))) =
      some ((1, [1]), (some 1, true), some 2, false) := by decide
  obtain ⟨⟨s, h⟩, hrun, hview⟩ := Run.exists_of_execIf hexec
  simp only [Prod.mk.injEq, decide_eq_true_eq, decide_eq_false_iff_not,
    Option.map_eq_some_iff] at hview
  obtain ⟨⟨hmin, hreports⟩, ⟨⟨s₁, hs₁, hmin₁⟩, hin⟩, ⟨s₂, hs₂, hmin₂⟩, hout⟩ := hview
  obtain ⟨hleast, hexact⟩ := least_of_inTime twoKnown hrun
  exact ⟨s, h, s₁, s₂, hrun, hmin, hreports, hleast, hs₁, hmin₁, (hexact _ _ hs₁).mp hin, hs₂,
    hmin₂, fun hl => hout ((hexact _ _ hs₂).mpr hl)⟩

/-- The second node lists nobody: its query reports the distance it was begun with, and the
distance grows back from 1 to 255. -/
theorem minDist_grows : ∃ s h,
    Searched twoKnown (fun _ _ => True) (bothAsked ++ [⟨⟨false, 0⟩, some ([], 0)⟩]) s h ∧
      1 ∈ h.radii ∧ 1 ∈ h.reports ∧ s.minDist = 255 := by
  have hexec : (exec (observe (roundStep twoKnown) (record twoKnown))
      (.init twoKnown, ⟨[], [], [], []⟩) (bothAsked ++ [⟨⟨false, 0⟩, some ([], 0)⟩])).map
        (fun x => (decide (1 ∈ x.2.radii), decide (1 ∈ x.2.reports), x.1.minDist)) =
      some (true, true, 255) := by decide
  obtain ⟨⟨s, h⟩, hrun, hview⟩ := Run.exists_of_exec hexec
  simp only [Prod.mk.injEq, decide_eq_true_eq] at hview
  exact ⟨s, h, hrun, hview⟩

end DhtLookup
