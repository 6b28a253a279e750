/-
# Searches that come back (`bt/dht.rs`)

`find_peers` returns in every order of its queries unless it can come back to where it was: with
the same least distance, no peer found and no bootstrap node used since, and with everything that
was in the queue and under way there again.

* `Within` compares two states of the loop, and `ComesBack` says that some order of the queries
  leads from a state to one that it is within;
* `upward`: a state with more at work can do what the smaller one does.  What is more in its queue
  is begun first, and left under way;
* `findPeers_terminates_iff`: in a finite network the search returns in every order of its queries
  if and only if it never comes back.  It does not come back if no query follows from its own
  answer.
-/
import Dorodoro.DhtLookup
import Dorodoro.WellStructured

namespace DhtLookup

open Routing (NodeId)
open Transition WellStructured

/-! ## Coming back -/

section Loop

variable {α : Type}

/-- The addresses in the queue. -/
def State.addrs (s : State α) : List α := s.queue.map Prod.snd

/-- Since the first state neither a peer was found nor a bootstrap node used, the least distance is
the same, and everything that was at work is at work again. -/
structure State.Within (s t : State α) : Prop where
  running : t.returned = false
  minDist : t.minDist = s.minDist
  count : t.count = s.count
  bootstrapNodes : t.bootstrapNodes = s.bootstrapNodes
  queue : s.addrs.Sublist t.addrs
  futures : s.futures.Subperm t.futures

end Loop

/-- **The search comes back**: in some order of its queries it is where it was before. -/
def Lookup.ComesBack (L : Lookup) : Prop :=
  WellStructured.ComesBack (step L) State.Within (.init L)

/-! ## A larger state -/

section Larger

variable {α : Type} {ask : Ask α} {expectPeers : ℕ} {s s' t : State α} {q : Query α} {a : Act}

/-- Two queues of which one is a part of the other, with the same address in front. -/
def Level (l l' : List α) : Prop :=
  l = [] ∧ l' = [] ∨ ∃ addr r r', l = addr :: r ∧ l' = addr :: r' ∧ r.Sublist r'

theorem Level.refl (l : List α) : Level l l := by
  cases l with
  | nil => exact Or.inl ⟨rfl, rfl⟩
  | cons addr r => exact Or.inr ⟨addr, r, r, rfl, rfl, .refl r⟩

theorem Level.sublist {l l' : List α} (h : Level l l') : l.Sublist l' := by
  rcases h with ⟨rfl, rfl⟩ | ⟨addr, r, r', rfl, rfl, hsub⟩
  · exact .refl []
  · exact hsub.cons_cons addr

theorem Level.append {l l' : List α} (h : Level l l') (new : List α) :
    Level (l ++ new) (l' ++ new) := by
  rcases h with ⟨rfl, rfl⟩ | ⟨addr, r, r', rfl, rfl, hsub⟩
  · exact .refl new
  · exact Or.inr ⟨addr, r ++ new, r' ++ new, rfl, rfl, hsub.append_right new⟩

/-- With an address in the queue, and a permit, the next query is begun. -/
theorem loopRound_of_queue {node : Option NodeId × α} {rest : List (Option NodeId × α)}
    (hrunning : t.returned = false) (hqueue : t.queue = node :: rest) :
    loopRound ask expectPeers t ⟨false, 0⟩ =
      some { t with queue := rest, futures := t.futures ++ [⟨node.2, t.minDist⟩] } := by
  have hne : t.queue ≠ [] := by simp [hqueue]
  have hrefill : t.refill = t := if_neg hne
  rw [loopRound_of_launch hrunning (by simp [hrefill, hne]), hrefill, launch_cons hqueue]

/-- **What is more in front of the queue is begun first.** -/
theorem State.Within.level (ask : Ask α) (expectPeers : ℕ) (h : s.Within t) :
    ∃ bs t', FreeRun (loopRound ask expectPeers) t bs t' ∧ s.Within t' ∧
      Level s.addrs t'.addrs := by
  generalize hqueue : t.queue = queue
  induction queue generalizing t with
  | nil =>
      have haddrs : t.addrs = [] := by simp [State.addrs, hqueue]
      have hnil : s.addrs = [] := List.sublist_nil.mp (haddrs ▸ h.queue)
      exact ⟨[], t, .refl, h, Or.inl ⟨hnil, haddrs⟩⟩
  | cons node rest ih =>
      have haddrs : t.addrs = node.2 :: rest.map Prod.snd := by simp [State.addrs, hqueue]
      have hsub := haddrs ▸ h.queue
      rcases List.sublist_cons_iff.mp hsub with hrest | ⟨r, heq, hrest⟩
      · obtain ⟨bs, t', hrun, hwithin, hlevel⟩ := ih (t := { t with
            queue := rest
            futures := t.futures ++ [⟨node.2, t.minDist⟩] })
          ⟨h.running, h.minDist, h.count, h.bootstrapNodes, hrest,
            h.futures.trans (List.sublist_append_left _ _).subperm⟩ rfl
        have hfirst : FreeRun (loopRound ask expectPeers) t [⟨false, 0⟩] _ :=
          .single trivial (loopRound_of_queue h.running hqueue)
        exact ⟨_, t', hfirst.append hrun, hwithin, hlevel⟩
      · exact ⟨[], t, .refl, h, Or.inr ⟨node.2, r, _, heq, haddrs, hrest⟩⟩

/-- The next query is begun in both, or nothing is in either queue. -/
theorem State.Within.launch (h : s.Within t) (hlevel : Level s.addrs t.addrs)
    (hrunning : s.launch.returned = false) : s.launch.Within t.launch := by
  rcases hlevel with ⟨hs, ht⟩ | ⟨addr, r, r', hs, ht, hsub⟩
  · rw [launch_nil (List.map_eq_nil_iff.mp hs)] at hrunning ⊢
    rw [launch_nil (List.map_eq_nil_iff.mp ht)]
    split at hrunning
    · cases hrunning
    · next hfutures =>
        have hmore : t.futures ≠ [] := fun hnil => hfutures (List.subperm_nil.mp (hnil ▸ h.futures))
        rw [if_neg hfutures, if_neg hmore]
        exact h
  · obtain ⟨node, rest, hqueue, rfl, rfl⟩ := List.map_eq_cons_iff.mp hs
    obtain ⟨node', rest', hqueue', haddr, rfl⟩ := List.map_eq_cons_iff.mp ht
    rw [launch_cons hqueue, launch_cons hqueue', haddr, h.minDist]
    exact ⟨h.running, rfl, h.count, h.bootstrapNodes, hsub, h.futures.append (.refl _)⟩

/-- The same answer is merged in both. -/
theorem State.Within.harvest (h : s.Within t) (hlevel : Level s.addrs t.addrs)
    (hrunning : (s.harvest ask expectPeers q).returned = false) :
    (s.harvest ask expectPeers q).Within (t.harvest ask expectPeers q) := by
  unfold State.harvest at hrunning ⊢
  cases hask : ask q with
  | none =>
      rw [hask] at hrunning
      exact h.launch hlevel hrunning
  | some r =>
      obtain ⟨nodes, md, find⟩ := r
      rw [hask] at hrunning
      dsimp only at hrunning ⊢
      rw [h.count]
      split at hrunning
      · cases hrunning
      · next hfew =>
          rw [if_neg hfew, if_neg hfew]
          have hqueue := hlevel.append (nodes.map Prod.snd)
          rw [State.addrs, State.addrs, ← List.map_append, ← List.map_append] at hqueue
          exact State.Within.launch
            ⟨h.running, rfl, rfl, h.bootstrapNodes, hqueue.sublist, h.futures⟩ hqueue hrunning

/-- An empty queue gets the same bootstrap node in both. -/
theorem State.Within.refill (h : s.Within t) (hlevel : Level s.addrs t.addrs) :
    s.refill.Within t.refill ∧ Level s.refill.addrs t.refill.addrs := by
  unfold State.refill
  rcases hlevel with ⟨hs, ht⟩ | ⟨addr, r, r', hs, ht, hsub⟩
  · rw [if_pos (List.map_eq_nil_iff.mp hs), if_pos (List.map_eq_nil_iff.mp ht), h.bootstrapNodes]
    rcases nextBootstrap s.bootstrapNodes with ⟨_ | addr, rest⟩
    · exact ⟨⟨h.running, h.minDist, h.count, rfl, h.queue, h.futures⟩, Or.inl ⟨hs, ht⟩⟩
    · exact ⟨⟨h.running, h.minDist, h.count, rfl, .refl _, h.futures⟩, .refl _⟩
  · have hne : s.queue ≠ [] := fun hnil => by simp [State.addrs, hnil] at hs
    have hne' : t.queue ≠ [] := fun hnil => by simp [State.addrs, hnil] at ht
    rw [if_neg hne, if_neg hne']
    exact ⟨h, Or.inr ⟨addr, r, r', hs, ht, hsub⟩⟩

/-- **A round.**  A state with more at work does what the smaller one does. -/
theorem State.Within.round (h : s.Within t) (hlevel : Level s.addrs t.addrs)
    (hround : loopRound ask expectPeers s a = some s') (hrunning : s'.returned = false) :
    ∃ b t', loopRound ask expectPeers t b = some t' ∧ s'.Within t' := by
  obtain ⟨hrefill, hlevel'⟩ := h.refill hlevel
  unfold loopRound at hround
  split at hround
  · cases hround
  · split at hround
    · -- the same query is done first
      obtain ⟨q, hq, rfl⟩ := Option.map_eq_some_iff.mp hround
      have hmem : q ∈ t.refill.futures := hrefill.futures.subset (List.mem_of_getElem? hq)
      obtain ⟨j, hj⟩ := List.getElem?_of_mem hmem
      have hround' : loopRound ask expectPeers t ⟨true, j⟩ = some _ :=
        loopRound_of_harvest h.running ⟨Or.inl rfl, List.ne_nil_of_mem hmem⟩ hj
      have herase : (s.refill.futures.eraseIdx a.pick).Subperm (t.refill.futures.eraseIdx j) := by
        refine (List.subperm_cons q).mp ?_
        exact ((Counting.cons_eraseIdx_perm hq).subperm.trans hrefill.futures).trans
          (Counting.cons_eraseIdx_perm hj).symm.subperm
      refine ⟨_, _, hround', State.Within.harvest ?_ hlevel' hrunning⟩
      exact ⟨hrefill.running, hrefill.minDist, hrefill.count, hrefill.bootstrapNodes,
        hrefill.queue, herase⟩
    · next hlaunch =>
        cases hround
        have hqueue : t.refill.queue ≠ [] := by
          intro hnil
          rcases hlevel' with ⟨hs, -⟩ | ⟨addr, r, r', -, ht, -⟩
          · -- nothing is left: the smaller state would return
            have hempty : s.refill.queue = [] := List.map_eq_nil_iff.mp hs
            have hfutures : s.refill.futures = [] := by
              by_contra hne
              exact hlaunch ⟨Or.inr hempty, hne⟩
            rw [launch_nil hempty, if_pos hfutures] at hrunning
            cases hrunning
          · rw [State.addrs, hnil] at ht
            cases ht
        have hround' : loopRound ask expectPeers t ⟨false, 0⟩ = some _ :=
          loopRound_of_launch h.running (by simp [hqueue])
        exact ⟨_, _, hround', hrefill.launch hlevel' hrunning⟩

/-- Whatever goes on has not returned. -/
theorem running_of_goesOn (h : GoesOn (loopRound ask expectPeers) s) : s.returned = false := by
  obtain ⟨s', a, hround⟩ := h
  cases hreturned : s.returned with
  | false => rfl
  | true =>
      rw [loopRound_of_returned hreturned] at hround
      cases hround

/-- **A state with more at work can do what the smaller one does.** -/
theorem upward (ask : Ask α) (expectPeers : ℕ) :
    Upward (loopRound ask expectPeers) State.Within where
  goesOn s t h := by
    obtain ⟨a, t', hround⟩ : ∃ a t', loopRound ask expectPeers t a = some t' :=
      exists_loopRound h.running
    exact ⟨t', a, hround⟩
  simulates s t a s' h hround hgoes := by
    obtain ⟨bs, t₁, hrun, hwithin, hlevel⟩ := h.level ask expectPeers
    obtain ⟨b, t', hround', hwithin'⟩ := hwithin.round hlevel hround (running_of_goesOn hgoes)
    exact ⟨bs ++ [b], t', by simp, hrun.tail trivial hround', hwithin'⟩

end Larger

/-! ## What a search can come across -/

section Finite

variable {α : Type} {ask : Ask α} {expectPeers : ℕ} {s s' : State α} {a : Act}

theorem nextBootstrap_suffix (l : List (Option α)) : (nextBootstrap l).2 <:+ l := by
  induction l with
  | nil => exact List.suffix_refl []
  | cons addr rest ih =>
      cases addr with
      | none => exact ih.trans (List.suffix_cons none rest)
      | some addr => exact List.suffix_cons (some addr) rest

/-- Bootstrap nodes are taken from the front. -/
theorem refill_suffix (s : State α) : s.refill.bootstrapNodes <:+ s.bootstrapNodes := by
  have hsuffix := nextBootstrap_suffix s.bootstrapNodes
  unfold State.refill
  split
  · split
    · next hnext =>
        rw [hnext] at hsuffix
        exact hsuffix
    · next hnext =>
        rw [hnext] at hsuffix
        exact hsuffix
  · exact List.suffix_refl _

/-- An answer that does not end the search leaves too few peers. -/
theorem harvest_few (q : Query α) (h : s.count ≤ expectPeers)
    (hrunning : (s.harvest ask expectPeers q).returned = false) :
    (s.harvest ask expectPeers q).count ≤ expectPeers := by
  unfold State.harvest at hrunning ⊢
  split
  · rw [(launch_cases s).1]
    exact h
  · next hask =>
      rw [hask] at hrunning
      split
      · next henough =>
          dsimp only at hrunning
          rw [if_pos henough] at hrunning
          cases hrunning
      · next hfew =>
          rw [(launch_cases _).1]
          exact (not_le.mp hfew).le

/-- **Every run.**  The bootstrap nodes are used from the front, and as long as the loop goes on
there are too few peers. -/
theorem few_of_run {s₀ : State α} (h₀ : s₀.count ≤ expectPeers) {as : List Act}
    (hrun : FreeRun (loopRound ask expectPeers) s₀ as s) :
    s.bootstrapNodes <:+ s₀.bootstrapNodes ∧ (s.returned = false → s.count ≤ expectPeers) := by
  refine hrun.invariant (I := fun s => s.bootstrapNodes <:+ s₀.bootstrapNodes ∧
    (s.returned = false → s.count ≤ expectPeers)) ⟨List.suffix_refl _, fun _ => h₀⟩ ?_
  rintro s a s' ⟨hsuffix, hcount⟩ - hround
  have hrefill : s.refill.count ≤ expectPeers :=
    (refill_futures s).2.2 ▸ hcount (running_of_goesOn ⟨s', a, hround⟩)
  have hleft := (refill_suffix s).trans hsuffix
  unfold loopRound at hround
  split at hround
  · cases hround
  · split at hround
    · obtain ⟨q, -, rfl⟩ := Option.map_eq_some_iff.mp hround
      refine ⟨?_, harvest_few q hrefill⟩
      rw [(harvest_count ask expectPeers _ q).2]
      exact hleft
    · cases hround
      obtain ⟨hsame, hbootstrap, -, -⟩ := launch_cases s.refill
      rw [hsame, hbootstrap]
      exact ⟨hleft, fun _ => hrefill⟩

end Finite

section Search

variable {L : Lookup} {s : State SocketAddr}

/-- The addresses that a search can come across. -/
def Lookup.addrs (L : Lookup) : Set SocketAddr :=
  {addr | addr ∈ L.nodes.map Prod.snd ∨ some addr ∈ L.bootstrapNodes ∨
    ∃ b answer, L.answers b = some answer ∧ addr ∈ answer.1.map Prod.snd}

/-- In a finite network there are finitely many of them. -/
theorem addrs_finite (hfinite : {a | (L.answers a).isSome}.Finite) : L.addrs.Finite := by
  have hbootstrap : {addr | some addr ∈ L.bootstrapNodes}.Finite :=
    (List.finite_toSet L.bootstrapNodes).preimage (Option.some_injective _).injOn
  have hlisted := hfinite.biUnion fun b _ =>
    List.finite_toSet (((L.answers b).map fun answer => answer.1.map Prod.snd).getD [])
  refine (((List.finite_toSet (L.nodes.map Prod.snd)).union hbootstrap).union hlisted).subset ?_
  rintro addr (hin | hin | ⟨b, answer, hb, hin⟩)
  · exact Or.inl (Or.inl hin)
  · exact Or.inl (Or.inr hin)
  · right
    refine Set.mem_biUnion (x := b) (by simp [hb]) ?_
    simpa [hb] using hin

/-- The search comes across these addresses only. -/
theorem everywhere_of_run {as : List Act} (hrun : FreeRun (step L) (.init L) as s) :
    Everywhere (· ∈ L.addrs) (L.dist L.ownId) s := by
  have hinit : Everywhere (· ∈ L.addrs) (L.dist L.ownId) (.init L) := by
    refine ⟨le_rfl, fun node hnode => ?_, fun addr haddr => Or.inr (Or.inl haddr), fun q hq => ?_⟩
    · obtain ⟨node', hnode', rfl⟩ := List.mem_map.mp hnode
      exact Or.inl (List.mem_map_of_mem hnode')
    · exact absurd hq List.not_mem_nil
  refine hinit.of_run (fun _ _ _ q _ _ hle r hr => ?_) hrun
  obtain ⟨hmd, answer, hanswer, hnodes⟩ := asyncFindPeers_cases hr
  exact ⟨hmd.trans hle, fun node hnode => Or.inr (Or.inr ⟨_, _, hanswer, hnodes node hnode⟩)⟩

/-- **Among infinitely many states of a search one is within a later one.** -/
theorem exists_within (hfinite : {a | (L.answers a).isSome}.Finite) {f : ℕ → State SocketAddr}
    (hf : ∀ n, (∃ as, FreeRun (step L) (.init L) as (f n)) ∧ GoesOn (step L) (f n)) :
    ∃ m n, m < n ∧ (f m).Within (f n) := by
  have haddrs := addrs_finite hfinite
  have hsuffixes : {l | l <:+ L.bootstrapNodes}.Finite :=
    (List.finite_toSet L.bootstrapNodes.tails).subset fun l hl => (List.mem_tails l _).mpr hl
  have hkeys := (Set.finite_Iic (L.dist L.ownId)).prod
    ((Set.finite_Iic L.expectPeers).prod hsuffixes)
  have hrunning : ∀ n, (f n).returned = false := fun n => running_of_goesOn (hf n).2
  have hinv : ∀ n, Everywhere (· ∈ L.addrs) (L.dist L.ownId) (f n) := by
    intro n
    obtain ⟨as, hrun⟩ := (hf n).1
    exact everywhere_of_run hrun
  have hfew : ∀ n, (f n).bootstrapNodes <:+ L.bootstrapNodes ∧ (f n).count ≤ L.expectPeers := by
    intro n
    obtain ⟨as, hrun⟩ := (hf n).1
    obtain ⟨hsuffix, hcount⟩ := few_of_run (Nat.zero_le _) hrun
    exact ⟨hsuffix, hcount (hrunning n)⟩
  obtain ⟨m, n, hlt, hqueue, hfutures, hkey⟩ := exists_lt_of_finite haddrs
    (queries_finite haddrs (L.dist L.ownId)) hkeys (p := fun n => (f n).addrs)
    (q := fun n => (f n).futures) (k := fun n => ((f n).minDist, (f n).count, (f n).bootstrapNodes))
    (fun n => List.forall_mem_map.mpr (hinv n).queue) (fun n => (hinv n).futures)
    (fun n => ⟨(hinv n).minDist, (hfew n).2, (hfew n).1⟩)
  obtain ⟨hmin, hcount, hbootstrap⟩ : (f m).minDist = (f n).minDist ∧
      (f m).count = (f n).count ∧ (f m).bootstrapNodes = (f n).bootstrapNodes := by
    simpa only [Prod.mk.injEq] using hkey
  exact ⟨m, n, hlt, hrunning n, hmin.symm, hcount.symm, hbootstrap.symm, hqueue, hfutures.subperm⟩

/-- **The search returns.**  In every finite network it returns, in every order of its queries, if
no query follows from its own answer; and it does so if and only if no order comes back to where it
was. -/
theorem findPeers_terminates_iff (L : Lookup) (hfinite : {a | (L.answers a).isSome}.Finite) :
    (L.Unrepeated → Terminates L) ∧ (Terminates L ↔ ¬ L.ComesBack) := by
  have hacc : Acc (Next (step L)) (.init L) ↔ ¬ L.ComesBack :=
    acc_iff_not_comesBack (upward L.asyncFindPeers L.expectPeers) fun _ => exists_within hfinite
  refine ⟨terminates_of_unrepeated L hfinite, fun h => hacc.mp h.finite, fun h => ⟨hacc.mpr h, ?_⟩⟩
  intro as s _
  cases hreturned : s.returned with
  | true => exact Or.inl rfl
  | false => exact Or.inr (exists_loopRound hreturned)

/-- The search of two nodes returns and does not come back; that of a node that lists itself comes
back and does not return. -/
theorem findPeers_terminates_iff_twoNodes :
    (Terminates twoNodes ∧ ¬ twoNodes.ComesBack) ∧
      (selfListing.ComesBack ∧ ¬ Terminates selfListing) := by
  obtain ⟨hreturns, hexact⟩ := findPeers_terminates_iff twoNodes twoNodes_finite
  have hends := hreturns twoNodes_unrepeated
  refine ⟨⟨hends, hexact.mp hends⟩, ?_⟩
  have hfirst : exec (step selfListing) (.init selfListing) [⟨false, 0⟩, ⟨false, 0⟩] =
      some (asking (.v4 1 1) 1) := by decide
  have hagain : exec (step selfListing) (asking (.v4 1 1) 1) [⟨false, 0⟩] =
      some (asking (.v4 1 1) 1) := by decide
  have hback : selfListing.ComesBack :=
    ⟨_, _, _, _, Run.of_exec hfirst, Run.of_exec hagain, List.cons_ne_nil _ _, rfl, rfl, rfl, rfl,
      .refl _, .refl _⟩
  exact ⟨hback, fun h => (findPeers_terminates_iff selfListing selfListing_finite).2.mp h hback⟩

end Search

end DhtLookup
