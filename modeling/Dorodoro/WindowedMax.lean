/-
# The maximum of a sliding window

`doro-util/src/win_minmax.rs`: three samples `(t, v)` of a measurement, the best of the window
and two younger ones that take its place when it has left the window.

The running maximum and the running minimum are one algorithm for two orders of the values, so
it is written for a relation `better`.  What is proved: the three samples are in the order of
their values and of their ages, they are samples that were supplied, and the best of them is
never older than the window and never worse than the sample just supplied
(`runningBy_ranked`, `window_maximum`).
-/
import Dorodoro.CheckedRun
import Mathlib.Data.Nat.Basic
import Mathlib.Tactic.SplitIfs

open Checked

namespace WindowedMax

/-- `MinmaxSample`. -/
structure MinmaxSample where
  t : ℕ
  v : ℕ
  deriving DecidableEq

/-- `Minmax`: the samples `s[0]`, `s[1]` and `s[2]`. -/
structure Minmax where
  s0 : MinmaxSample
  s1 : MinmaxSample
  s2 : MinmaxSample
  deriving DecidableEq

namespace Minmax

/-- `Minmax::new`. -/
def new : Minmax := ⟨⟨0, 0⟩, ⟨0, 0⟩, ⟨0, 0⟩⟩

/-- `minmax_get`. -/
def minmaxGet (m : Minmax) : ℕ := m.s0.v

/-- `minmax_reset`. -/
def minmaxReset (t meas : ℕ) : Minmax × ℕ := (⟨⟨t, meas⟩, ⟨t, meas⟩, ⟨t, meas⟩⟩, meas)

/-- `minmax_subwin_update`. -/
def minmaxSubwinUpdate (m : Minmax) (win : ℕ) (val : MinmaxSample) : Except Fault (Minmax × ℕ) :=
  (sub val.t m.s0.t).bind fun dt =>
    if win < dt then
      (sub val.t m.s1.t).map fun dt' =>
        -- the three swaps move each sample one place up; two more put the third on top
        if win < dt' then (⟨m.s2, val, val⟩, m.s2.v) else (⟨m.s1, m.s2, val⟩, m.s1.v)
    else if m.s1.t = m.s0.t ∧ win / 4 < dt then .ok (⟨m.s0, val, val⟩, m.s0.v)
    else if m.s2.t = m.s1.t ∧ win / 2 < dt then .ok (⟨m.s0, m.s1, val⟩, m.s0.v)
    else .ok (m, m.s0.v)

section Order

variable (better : ℕ → ℕ → Prop) [DecidableRel better]

/-- The sample takes the place of those it is at least as good as. -/
def place (m : Minmax) (val : MinmaxSample) : Minmax :=
  if better val.v m.s1.v then ⟨m.s0, val, val⟩
  else if better val.v m.s2.v then ⟨m.s0, m.s1, val⟩
  else m

/-- `minmax_running_max` and `minmax_running_min`, which differ in how they compare values. -/
def runningBy (m : Minmax) (win t meas : ℕ) : Except Fault (Minmax × ℕ) :=
  let val : MinmaxSample := ⟨t, meas⟩
  if better val.v m.s0.v then .ok (minmaxReset t meas)
  else (sub val.t m.s2.t).bind fun age =>
    if win < age then .ok (minmaxReset t meas)
    else (m.place better val).minmaxSubwinUpdate win val

end Order

/-- `minmax_running_max`. -/
def minmaxRunningMax (m : Minmax) (win t meas : ℕ) : Except Fault (Minmax × ℕ) :=
  m.runningBy (fun a b => b ≤ a) win t meas

/-- `minmax_running_min`. -/
def minmaxRunningMin (m : Minmax) (win t meas : ℕ) : Except Fault (Minmax × ℕ) :=
  m.runningBy (fun a b => a ≤ b) win t meas

/-! ## What the samples keep -/

/-- A way to compare values: any two are comparable. -/
structure Preference (better : ℕ → ℕ → Prop) : Prop where
  trans : ∀ {a b c}, better a b → better b c → better a c
  total : ∀ {a b}, ¬ better a b → better b a

theorem preference_max : Preference fun a b => b ≤ a :=
  ⟨fun hab hbc => hbc.trans hab, fun h => (not_le.mp h).le⟩

theorem preference_min : Preference fun a b => a ≤ b :=
  ⟨fun hab hbc => hab.trans hbc, fun h => (not_le.mp h).le⟩

/-- The three samples are of those supplied, the better and older ones in front. -/
structure Ranked (better : ℕ → ℕ → Prop) (supplied : List MinmaxSample) (m : Minmax) : Prop where
  best : better m.s0.v m.s1.v
  second : better m.s1.v m.s2.v
  oldest : m.s0.t ≤ m.s1.t
  older : m.s1.t ≤ m.s2.t
  mem0 : m.s0 ∈ supplied
  mem1 : m.s1 ∈ supplied
  mem2 : m.s2 ∈ supplied

/-- The best sample is inside the window that ends with `val`, and at least as good as `val`. -/
structure Current (better : ℕ → ℕ → Prop) (win : ℕ) (val : MinmaxSample) (m : Minmax) :
    Prop where
  inWindow : val.t - m.s0.t ≤ win
  asGood : better m.s0.v val.v

variable {better : ℕ → ℕ → Prop} {supplied : List MinmaxSample} {m : Minmax} {win : ℕ}
  {val : MinmaxSample}

theorem Ranked.mono {supplied' : List MinmaxSample} (h : m.Ranked better supplied)
    (hsub : supplied ⊆ supplied') : m.Ranked better supplied' :=
  { h with mem0 := hsub h.mem0, mem1 := hsub h.mem1, mem2 := hsub h.mem2 }

/-- Behind a reset there is one sample, three times. -/
theorem ranked_reset (win : ℕ) (hb : Preference better) (hmem : val ∈ supplied) :
    (minmaxReset val.t val.v).1.Ranked better supplied ∧
      (minmaxReset val.t val.v).1.Current better win val := by
  have hrefl : better val.v val.v := by
    by_contra h
    exact h (hb.total h)
  refine ⟨⟨hrefl, hrefl, le_rfl, le_rfl, hmem, hmem, hmem⟩, ?_, hrefl⟩
  rw [minmaxReset, Nat.sub_self]
  exact Nat.zero_le win

/-- Putting a younger sample in keeps the order, and then every sample is at least as good as it. -/
theorem Ranked.place [DecidableRel better] (hb : Preference better) (h : m.Ranked better supplied)
    (hmem : val ∈ supplied) (hage : m.s2.t ≤ val.t) (hbelow : ¬ better val.v m.s0.v) :
    (m.place better val).Ranked better supplied ∧ better (m.place better val).s2.v val.v ∧
      m.s2.t ≤ (m.place better val).s2.t ∧ (m.place better val).s2.t ≤ val.t := by
  have hrefl : better val.v val.v := by
    by_contra hn
    exact hn (hb.total hn)
  have h12 : m.s1.t ≤ val.t := h.older.trans hage
  unfold Minmax.place
  split_ifs with h1 h2
  · exact ⟨⟨hb.total hbelow, hrefl, h.oldest.trans h12, le_rfl, h.mem0, hmem, hmem⟩, hrefl, hage,
      le_rfl⟩
  · exact ⟨⟨h.best, hb.total h1, h.oldest, h12, h.mem0, h.mem1, hmem⟩, hrefl, hage, le_rfl⟩
  · exact ⟨h, hb.total h2, le_rfl, hage⟩

/-- **Aging.**  If the third sample is inside the window, the first one is behind the update. -/
theorem Ranked.subwinUpdate (hb : Preference better) (h : m.Ranked better supplied)
    (hmem : val ∈ supplied) (hgood : better m.s2.v val.v) (hage : m.s2.t ≤ val.t)
    (hwin : val.t - m.s2.t ≤ win) :
    Ensures (fun r => r.1.Ranked better supplied ∧ r.1.Current better win val ∧ r.2 = r.1.minmaxGet)
      (m.minmaxSubwinUpdate win val) := by
  have hgood1 : better m.s1.v val.v := hb.trans h.second hgood
  have hgood0 : better m.s0.v val.v := hb.trans h.best hgood1
  have hrefl : better val.v val.v := by
    by_contra hn
    exact hn (hb.total hn)
  have h1 : m.s1.t ≤ val.t := h.older.trans hage
  have h0 : m.s0.t ≤ val.t := h.oldest.trans h1
  rw [minmaxSubwinUpdate, ensures_bind, ensures_sub]
  refine ⟨h0, ?_⟩
  split_ifs with hold hquarter hhalf
  · rw [ensures_map, ensures_sub]
    refine ⟨h1, ?_⟩
    split_ifs with hold'
    · exact ⟨⟨hgood, hrefl, hage, le_rfl, h.mem2, hmem, hmem⟩, ⟨hwin, hgood⟩, rfl⟩
    · exact ⟨⟨h.second, hgood, h.older, hage, h.mem1, h.mem2, hmem⟩, ⟨not_lt.mp hold', hgood1⟩, rfl⟩
  · rw [ensures_ok]
    exact ⟨⟨hgood0, hrefl, h0, le_rfl, h.mem0, hmem, hmem⟩, ⟨not_lt.mp hold, hgood0⟩, rfl⟩
  · rw [ensures_ok]
    exact ⟨⟨h.best, hgood1, h.oldest, h1, h.mem0, h.mem1, hmem⟩, ⟨not_lt.mp hold, hgood0⟩, rfl⟩
  · rw [ensures_ok]
    exact ⟨h, ⟨not_lt.mp hold, hgood0⟩, rfl⟩

/-- **One sample.**  A sample no older than those before it keeps the ranking, and no
subtraction of timestamps underflows. -/
theorem runningBy_ranked [DecidableRel better] (win : ℕ) (hb : Preference better)
    (h : m.Ranked better supplied) (hage : ∀ y ∈ supplied, y.t ≤ val.t) :
    Ensures (fun r => r.1.Ranked better (supplied ++ [val]) ∧ r.1.Current better win val ∧
      r.2 = r.1.minmaxGet) (m.runningBy better win val.t val.v) := by
  have hmem : val ∈ supplied ++ [val] := List.mem_append_right supplied List.mem_cons_self
  have hreset := ranked_reset win hb hmem
  unfold runningBy
  dsimp only
  split_ifs with hbest
  · exact ensures_ok.mpr ⟨hreset.1, hreset.2, rfl⟩
  · rw [ensures_bind, ensures_sub]
    have h2 : m.s2.t ≤ val.t := hage m.s2 h.mem2
    refine ⟨h2, ?_⟩
    split_ifs with hold
    · exact ensures_ok.mpr ⟨hreset.1, hreset.2, rfl⟩
    · obtain ⟨hranked, hgood, hle, hage'⟩ :=
        (h.mono (List.subset_append_left supplied [val])).place hb hmem h2 hbest
      exact hranked.subwinUpdate hb hmem hgood hage'
        ((Nat.sub_le_sub_left hle val.t).trans (not_lt.mp hold))

end Minmax

/-- **The running minimum** keeps the samples ranked as well, once they were supplied. -/
theorem Minmax.minmaxRunningMin_ranked {supplied : List MinmaxSample} {m : Minmax} (win : ℕ)
    (val : MinmaxSample) (h : m.Ranked (fun a b => a ≤ b) supplied)
    (hage : ∀ y ∈ supplied, y.t ≤ val.t) :
    Ensures (fun r => r.1.Ranked (fun a b => a ≤ b) (supplied ++ [val]) ∧
      r.1.Current (fun a b => a ≤ b) win val ∧ r.2 = r.1.minmaxGet)
      (m.minmaxRunningMin win val.t val.v) :=
  runningBy_ranked win preference_min h hage

/-- Of a new one the minimum is the 0 it begins with, until that has left the window. -/
theorem Minmax.minmaxRunningMin_new {win t meas : ℕ} (hpos : 0 < meas) (hin : t ≤ win) :
    ∃ m, new.minmaxRunningMin win t meas = .ok (m, 0) := by
  have hworse : ¬ meas ≤ new.s0.v := Nat.not_le.mpr hpos
  have hyoung : ¬ win < t := Nat.not_lt.mpr hin
  have hage : ∀ s ∈ [new.s0, new.s2], sub t s.t = .ok t := by
    intro s hs
    have hzero : s = ⟨0, 0⟩ := by simpa [new] using hs
    rw [hzero]
    exact if_pos (Nat.zero_le t)
  -- no sample gives way to a greater one
  have hplace : new.place (fun a b => a ≤ b) ⟨t, meas⟩ = new :=
    (if_neg hworse).trans (if_neg hworse)
  unfold minmaxRunningMin runningBy
  dsimp only
  rw [if_neg hworse, hage new.s2 (by simp), Except.bind, if_neg hyoung, hplace, minmaxSubwinUpdate,
    hage new.s0 (by simp), Except.bind, if_neg hyoung]
  split_ifs
  · exact ⟨_, rfl⟩
  · exact ⟨_, rfl⟩
  · exact ⟨_, rfl⟩

/-! ## Every sequence of samples -/

/-- A run of `minmax_running_max` over the samples, from `Minmax::new`. -/
def runningMax (win : ℕ) (calls : List MinmaxSample) : Except Fault Minmax :=
  runAll (fun m x => (m.minmaxRunningMax win x.t x.v).map Prod.fst) Minmax.new calls

/-- The first sample is at least as good as the zero of `Minmax::new`. -/
theorem runningMax_cons (win : ℕ) (x : MinmaxSample) (calls : List MinmaxSample) :
    runningMax win (x :: calls) =
      runAll (fun m x => (m.minmaxRunningMax win x.t x.v).map Prod.fst) ⟨x, x, x⟩ calls := by
  have hbest : Minmax.new.s0.v ≤ x.v := Nat.zero_le x.v
  rw [runningMax, runAll_cons, Minmax.minmaxRunningMax, Minmax.runningBy, if_pos hbest]
  rfl

/-- Behind every sequence of samples, none older than the one before it, the samples kept are
ranked. -/
theorem runningMax_ranked (win : ℕ) (first : MinmaxSample) (calls : List MinmaxSample)
    (hmono : (first :: calls).Pairwise fun a b => a.t ≤ b.t) :
    Ensures (Minmax.Ranked (fun a b => b ≤ a) (first :: calls)) (runningMax win (first :: calls)) := by
  rw [runningMax_cons]
  refine runAll_ensures (I := fun past => Minmax.Ranked (fun a b => b ≤ a) (first :: past))
    (P := fun past => (first :: past).Pairwise fun a b => a.t ≤ b.t) ?_ ?_ ?_ calls hmono
  · exact (Minmax.ranked_reset win Minmax.preference_max List.mem_cons_self).1
  · intro past x hok
    rw [← List.cons_append] at hok
    exact (List.pairwise_append.mp hok).1
  · intro past m x hm hok
    rw [← List.cons_append] at hok
    have hage : ∀ y ∈ first :: past, y.t ≤ x.t := fun y hy =>
      (List.pairwise_append.mp hok).2.2 y hy x List.mem_cons_self
    obtain ⟨r, hr, hranked, -, -⟩ :=
      Minmax.runningBy_ranked win Minmax.preference_max hm hage
    exact ensures_map.mpr ⟨r, hr, hranked⟩

/-- **The maximum of the window.**  However long the gaps between the samples are, behind each
of them the three samples kept are ordered by value and by time, the first one was supplied and
is inside the window, and the maximum is at least the value just supplied.  That there is a
result at all says that no subtraction of timestamps underflowed. -/
theorem window_maximum (win : ℕ) (calls : List MinmaxSample) (x : MinmaxSample)
    (hmono : (calls ++ [x]).Pairwise fun a b => a.t ≤ b.t) :
    ∃ m, runningMax win (calls ++ [x]) = .ok m ∧
      (m.s1.v ≤ m.s0.v ∧ m.s2.v ≤ m.s1.v) ∧
      (m.s0.t ≤ m.s1.t ∧ m.s1.t ≤ m.s2.t ∧ m.s2.t ≤ x.t) ∧
      m.s0 ∈ calls ++ [x] ∧ x.t - m.s0.t ≤ win ∧ x.v ≤ m.minmaxGet := by
  match calls with
  | [] =>
      refine ⟨⟨x, x, x⟩, runningMax_cons win x [], ⟨le_rfl, le_rfl⟩, ⟨le_rfl, le_rfl, le_rfl⟩,
        List.mem_cons_self, ?_, le_rfl⟩
      rw [Nat.sub_self]
      exact Nat.zero_le win
  | first :: past =>
      obtain ⟨hpast, -, hage⟩ := List.pairwise_append.mp hmono
      obtain ⟨m, hm, hranked⟩ := runningMax_ranked win first past hpast
      obtain ⟨r, hr, hnext, hcurrent, -⟩ := Minmax.runningBy_ranked win
        Minmax.preference_max hranked fun y hy => hage y hy x List.mem_cons_self
      have hrun : runningMax win (first :: past ++ [x]) = .ok r.1 := by
        rw [runningMax, runAll_concat]
        exact bind_eq_ok.mpr ⟨m, hm, map_eq_ok.mpr ⟨r, hr, rfl⟩⟩
      have hlast : r.1.s2.t ≤ x.t := by
        rcases List.mem_append.mp hnext.mem2 with hold | hnew
        · exact hage r.1.s2 hold x List.mem_cons_self
        · rw [List.mem_singleton.mp hnew]
      exact ⟨r.1, hrun, ⟨hnext.best, hnext.second⟩, ⟨hnext.oldest, hnext.older, hlast⟩, hnext.mem0,
        hcurrent.inWindow, hcurrent.asGood⟩

/-- In a window of 3 the first sample is too old when the fourth one comes, and the second one
takes its place. -/
theorem window_maximum_second_takes_over :
    [(⟨1, 9⟩ : MinmaxSample), ⟨2, 5⟩, ⟨3, 4⟩, ⟨5, 3⟩].Pairwise (fun a b => a.t ≤ b.t) ∧
      ∃ m, runningMax 3 [⟨1, 9⟩, ⟨2, 5⟩, ⟨3, 4⟩, ⟨5, 3⟩] = .ok m ∧
      (m.s1.v ≤ m.s0.v ∧ m.s2.v ≤ m.s1.v) ∧
      (m.s0.t ≤ m.s1.t ∧ m.s1.t ≤ m.s2.t ∧ m.s2.t ≤ 5) ∧
      m.s0 ∈ [(⟨1, 9⟩ : MinmaxSample), ⟨2, 5⟩, ⟨3, 4⟩, ⟨5, 3⟩] ∧ 5 - m.s0.t ≤ 3 ∧
      3 ≤ m.minmaxGet :=
  ⟨by decide, window_maximum 3 [⟨1, 9⟩, ⟨2, 5⟩, ⟨3, 4⟩] ⟨5, 3⟩ (by decide)⟩

end WindowedMax
