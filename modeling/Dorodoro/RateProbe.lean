/-
# The rate probe

`doro/src/bt/base_peer/rate_control/probe.rs`: from the bytes a peer acknowledges, a probe
measures its bandwidth once a second and moves the congestion window of the peer.  All of it is
fixed-point arithmetic on `u32` and `u64`, a factor being a multiple of 1/256.

* the functions are those of the source with every operation checked, so that a run has a result
  if nothing overflows, underflows or is divided by zero.  The atomic addition to `acked_bytes`
  wraps in the code; here it stops as the others do;
* `Sound` is what holds of the counters in every run, `FitsAck` the condition on one
  acknowledgement in the state it comes in;
* `ack_sound` and `fitsAck_of_succeeds` say that the condition is enough for one, and needed, and
  `probe_iff` says it of runs.
-/
import Dorodoro.BandwidthWindow
import Dorodoro.TorrentArithmetic
import Dorodoro.WindowedMax

open Checked WindowedMax BandwidthWindow

namespace RateProbe

/-! ## The constants -/

/-- `SCALE`. -/
def scale : ℕ := 8

/-- `UNIT`. -/
def unit : ℕ := 256

/-- `CWND_HIGHT_GAIN`. -/
def cwndHightGain : ℕ := unit * 5 / 4

/-- `CWND_LOW_GAIN`. -/
def cwndLowGain : ℕ := unit * 4 / 5

/-- `BW_UP_THRESH`. -/
def bwUpThresh : ℕ := unit * 5 / 4

/-- `BW_UP_KEEP_THRESH`. -/
def bwUpKeepThresh : ℕ := unit * 11 / 10

/-- `BW_DOWN_THRESH`. -/
def bwDownThresh : ℕ := unit * 4 / 5

/-- `MILLIS_PER_SEC`; `UPDATE_INTERVAL` is the same. -/
def millisPerSec : ℕ := 1000

/-- `MAX_BW_CWND`. -/
def maxBwCwnd : ℕ := 3

/-- `HIGHT_GAIN_CYCLE`. -/
def hightGainCycle : ℕ := 3

/-- `LOW_GAIN_CYCLE`. -/
def lowGainCycle : ℕ := 3

/-- `NORMAL_GAIN_CYCLE`. -/
def normalGainCycle : ℕ := 3

/-- `MIN_CWND`. -/
def minCwnd : ℕ := 4

/-- `MAX_CWND`. -/
def maxCwnd : ℕ := 25

/-- `FULL_BW_CNT`. -/
def fullBwCntLimit : ℕ := 3

/-- `STARTUP_GAIN`. -/
def startupGain : ℕ := unit * 3 / 2

/-- `FULL_BW_THRESH`. -/
def fullBwThresh : ℕ := unit / 2

/-- `MAX_GAIN_KEEP_RATE`. -/
def maxGainKeepRate : ℕ := unit * 2 / 3

/-- `FULL_BW_KEEP_CYCLE`. -/
def fullBwKeepCycle : ℕ := 3

/-! ## The state -/

/-- `Dashbord`, without the bandwidth window: nothing of the probe reads it. -/
structure Dashbord where
  cwnd : ℕ
  inflight : ℕ
  ackedBytes : ℕ
  deriving DecidableEq

/-- `Dashbord::new`. -/
def Dashbord.new : Dashbord := ⟨minCwnd, 0, 0⟩

/-- `fetch_sub` of 1 on an `AtomicU32`, which wraps. -/
def wrappingDec (n : ℕ) : ℕ := if n = 0 then 2 ^ 32 - 1 else n - 1

/-- `Probe`. -/
structure Probe where
  dashbord : Dashbord
  bw : Minmax
  lastAckStamp : ℕ
  lastAckBytes : ℕ
  sampleUpdateCnt : ℕ
  cwndGain : ℕ
  cwndHighGainCnt : ℕ
  cwndHighGain : Bool
  cwndLowGainCnt : ℕ
  cwndNormalGainCnt : ℕ
  fullBw : ℕ
  fullBwCnt : ℕ
  fullBwKeepCnt : ℕ
  fullBwReached : Bool
  lastHighBw : ℕ
  highGainValidCnt : ℕ
  starupGain : Bool
  deriving DecidableEq

namespace Probe

/-- `Probe::new`. -/
def new (dashbord : Dashbord) : Probe where
  dashbord := dashbord
  bw := .new
  lastAckStamp := 0
  lastAckBytes := 0
  sampleUpdateCnt := 0
  cwndGain := unit
  cwndHighGainCnt := 0
  cwndHighGain := false
  cwndLowGainCnt := 0
  cwndNormalGainCnt := 0
  fullBw := 0
  fullBwCnt := 0
  fullBwKeepCnt := 0
  fullBwReached := false
  lastHighBw := 0
  highGainValidCnt := 0
  starupGain := false

/-! ## The functions -/

/-- `inflight_dec`. -/
def inflightDec (p : Probe) : Probe :=
  { p with dashbord.inflight := wrappingDec p.dashbord.inflight }

/-- `get_rate_sample`, the clock reading `now`: the bandwidth. -/
def getRateSample (p : Probe) (now : ℕ) : Except Fault (ℕ × Probe) :=
  (sub now p.lastAckStamp).bind fun intervalMs =>
  (sub p.dashbord.ackedBytes p.lastAckBytes).bind fun intervalBytes =>
  (add 32 p.sampleUpdateCnt 1).bind fun cnt =>
  (mul 64 intervalBytes millisPerSec).bind fun scaled =>
  (divCeilChecked scaled intervalMs).map fun bw =>
    (bw, { p with
      lastAckStamp := now
      lastAckBytes := p.dashbord.ackedBytes
      sampleUpdateCnt := cnt })

/-- `update_avg_bw`: what goes to the bandwidth window, the clock reading `now`. -/
def updateAvgBw (rs now : ℕ) : Item := (u32 rs, now)

/-- `update_bw`: the maximum so far. -/
def updateBw (p : Probe) (rs : ℕ) : Except Fault (ℕ × Probe) :=
  (p.bw.minmaxRunningMax maxBwCwnd p.sampleUpdateCnt (u32 rs)).map fun r =>
    (p.bw.minmaxGet, { p with bw := r.1 })

/-- The first part of `check_full_bw`: the probe goes on, out of `full_bw_reached` if it was in
it, or it stays there. -/
def leaveFullBw (p : Probe) : Except Fault (Option Probe) :=
  if p.fullBwReached then
    if p.dashbord.cwnd ≤ minCwnd then .ok (some { p with fullBw := 0, fullBwReached := false })
    else (mul 32 p.fullBw fullBwThresh).map fun x =>
      if p.bw.minmaxGet < x / 2 ^ scale then some { p with fullBw := 0, fullBwReached := false }
      else none
  else .ok (some p)

/-- The second part of `check_full_bw`. -/
def growFullBw (p : Probe) : Except Fault Probe :=
  if 0 < p.fullBwKeepCnt then
    (sub p.fullBwKeepCnt 1).map fun n =>
      { p with
        fullBwKeepCnt := n
        fullBw := max p.fullBw p.bw.minmaxGet
        starupGain := decide (n = 0) }
  else
    (mul 64 p.fullBw bwUpThresh).bind fun x =>
      if u32 (x / 2 ^ scale) < p.bw.minmaxGet then
        .ok { p with
          starupGain := false
          fullBwKeepCnt := fullBwKeepCycle
          fullBwCnt := 0
          fullBw := p.bw.minmaxGet }
      else (add 32 p.fullBwCnt 1).map fun n =>
        { p with
          starupGain := false
          fullBwCnt := n
          fullBwReached := decide (fullBwCntLimit ≤ n) }

/-- `check_full_bw`. -/
def checkFullBw (p : Probe) : Except Fault Probe :=
  p.leaveFullBw.bind fun
    | some p' => p'.growFullBw
    | none => .ok p

/-- The first part of `update_gain`: how a high gain has turned out. -/
def keepHighGain (p : Probe) (bw : ℕ) : Except Fault Probe :=
  if 0 < p.cwndHighGainCnt then
    (sub p.cwndHighGainCnt 1).bind fun cnt =>
    (mul 64 bw unit).bind fun x =>
    (mul 64 p.lastHighBw bwUpKeepThresh).bind fun y =>
    (if y ≤ x then add 32 p.highGainValidCnt 1 else .ok p.highGainValidCnt).bind fun valid =>
    (mul 32 valid unit).map fun z =>
      let p := { p with cwndGain := unit, cwndHighGainCnt := cnt, highGainValidCnt := valid }
      if hightGainCycle * maxGainKeepRate ≤ z then { p with cwndHighGainCnt := 0 }
      else { p with cwndHighGain := decide (cnt = 0) }
  else .ok p

/-- The second part of `update_gain`: whether the bandwidth has gone down. -/
def countLowGain (p : Probe) (bw originBw : ℕ) : Except Fault Probe :=
  (mul 64 bw unit).bind fun x =>
  (mul 64 originBw bwDownThresh).bind fun y =>
    if x ≤ y then
      (add 32 p.cwndLowGainCnt 1).map fun n => { p with cwndLowGainCnt := n, cwndGain := unit }
    else .ok p

/-- The third part of `update_gain`. -/
def chooseGain (p : Probe) (originBw : ℕ) : Except Fault Probe :=
  if normalGainCycle ≤ p.cwndNormalGainCnt then
    .ok { p with
      cwndLowGainCnt := 0
      cwndNormalGainCnt := 0
      highGainValidCnt := 0
      cwndGain := cwndHightGain
      cwndHighGainCnt := hightGainCycle
      lastHighBw := originBw }
  else if p.cwndHighGain || decide (lowGainCycle ≤ p.cwndLowGainCnt) then
    .ok { p with
      cwndLowGainCnt := 0
      cwndNormalGainCnt := 0
      cwndHighGain := false
      cwndGain := cwndLowGain }
  else if p.cwndHighGainCnt = 0 then
    (add 32 p.cwndNormalGainCnt 1).map fun n =>
      { p with cwndNormalGainCnt := n, cwndGain := unit }
  else .ok p

/-- `update_gain`. -/
def updateGain (p : Probe) (bw originBw : ℕ) : Except Fault Probe :=
  if p.fullBwReached then
    (p.keepHighGain bw).bind fun p => (p.countLowGain bw originBw).bind fun p =>
      p.chooseGain originBw
  else .ok { p with cwndGain := if p.starupGain then startupGain else unit }

/-- `update_cwnd`. -/
def updateCwnd (p : Probe) (gain : ℕ) : Except Fault Probe :=
  (if gain = cwndHightGain ∨ gain = startupGain then add 32 p.dashbord.cwnd 2
    else if gain = cwndLowGain then sub p.dashbord.cwnd 1
    else .ok p.dashbord.cwnd).bind fun cwnd =>
  (mul 64 cwnd gain).map fun x =>
    { p with dashbord.cwnd := max minCwnd (min (u32 (x / 2 ^ scale)) maxCwnd) }

end Probe

/-- An acknowledgement: its bytes, and what the clock reads in `ack`, in `get_rate_sample` and in
`Dashbord::update_bw`. -/
structure Ack where
  readSize : ℕ
  check : ℕ
  sample : ℕ
  update : ℕ
  deriving DecidableEq

/-- What `ack` does once a second: the probe, and the item for the bandwidth window. -/
def Probe.measure (p : Probe) (a : Ack) : Except Fault (Probe × Item) :=
  (p.getRateSample a.sample).bind fun (rs, p) =>
  (p.updateBw rs).bind fun (originBw, p) =>
  p.checkFullBw.bind fun p =>
  (p.updateGain rs originBw).bind fun p =>
  (p.updateCwnd p.cwndGain).map fun p => (p, Probe.updateAvgBw rs a.update)

/-- `Probe::ack`. -/
def Probe.ack (p : Probe) (a : Ack) : Except Fault (Probe × Option Item) :=
  let p := p.inflightDec
  (add 64 p.dashbord.ackedBytes a.readSize).bind fun acked =>
    let p := { p with dashbord.ackedBytes := acked }
    (add 64 p.lastAckStamp millisPerSec).bind fun due =>
      if a.check < due then .ok (p, none)
      else (p.measure a).map fun (p, item) => (p, some item)

/-- What an acknowledgement leaves behind. -/
def step (p : Probe) (a : Ack) : Except Fault Probe := (p.ack a).map Prod.fst

/-- The acknowledgements from `Probe::new` on. -/
def run (acks : List Ack) : Except Fault Probe := runAll step (.new .new) acks

/-! ## What the counters keep -/

/-- The counters of a probe.  `full` and `low` say how much room there is for `full_bw_cnt` and
`cwnd_low_gain_cnt` at this point of `ack`. -/
structure Held (full low : ℕ) (p : Probe) : Prop where
  cwnd_ge : minCwnd ≤ p.dashbord.cwnd
  cwnd_le : p.dashbord.cwnd ≤ maxCwnd
  bytes : p.lastAckBytes ≤ p.dashbord.ackedBytes
  cnt : p.sampleUpdateCnt < 2 ^ 32
  /-- The samples of the maximum are no younger than the count, which is their time. -/
  window : ∃ supplied, p.bw.Ranked (fun a b => b ≤ a) supplied ∧
    ∀ y ∈ supplied, y.t ≤ p.sampleUpdateCnt ∧ y.v < 2 ^ 32
  gain_le : p.cwndGain ≤ startupGain
  high : p.highGainValidCnt + p.cwndHighGainCnt ≤ hightGainCycle
  low_le : p.cwndLowGainCnt + low ≤ lowGainCycle
  normal_le : p.cwndNormalGainCnt ≤ normalGainCycle
  fullBw_lt : p.fullBw < 2 ^ 32
  /-- The bandwidth is not found full more often than it was measured. -/
  fullCnt : p.fullBwCnt + full ≤ p.sampleUpdateCnt
  lastHigh_lt : p.lastHighBw < 2 ^ 32

theorem unit_le_startupGain : unit ≤ startupGain := by decide

theorem cwndHightGain_le_startupGain : cwndHightGain ≤ startupGain := by decide

theorem cwndLowGain_le_startupGain : cwndLowGain ≤ startupGain := by decide

/-- What holds between two acknowledgements. -/
abbrev Sound (p : Probe) : Prop := Held 0 1 p

/-- The product of `check_full_bw` that is taken in `u32` fits, if it comes to it. -/
def FullFits (p : Probe) : Prop :=
  ¬ (p.fullBwReached = true ∧ minCwnd < p.dashbord.cwnd ∧ 2 ^ 32 ≤ p.fullBw * fullBwThresh)

theorem sound_new : Sound (.new .new) := by
  refine ⟨le_rfl, by decide, le_rfl, by decide, ⟨[⟨0, 0⟩], ?_, ?_⟩, by decide, by decide, by decide,
    by decide, by decide, le_rfl, by decide⟩
  · exact ⟨le_rfl, le_rfl, le_rfl, le_rfl, List.mem_cons_self, List.mem_cons_self,
      List.mem_cons_self⟩
  · intro y hy
    rw [List.mem_singleton.mp hy]
    exact ⟨le_rfl, by decide⟩

section Steps

variable {p : Probe} {full low bw originBw now : ℕ}

/-- The maximum fits into `u32`. -/
theorem Held.get_lt (h : Held full low p) : p.bw.minmaxGet < 2 ^ 32 := by
  obtain ⟨supplied, hranked, hall⟩ := h.window
  exact (hall _ hranked.mem0).2

/-- **A sample** is taken a second or more after the one before, so that the bandwidth is at most
the number of bytes. -/
theorem Held.getRateSample (h : Held 0 low p) (hdue : p.lastAckStamp + millisPerSec ≤ now)
    (hbytes : (p.dashbord.ackedBytes - p.lastAckBytes) * millisPerSec < 2 ^ 64)
    (hcnt : p.sampleUpdateCnt + 1 < 2 ^ 32) (hfull : FullFits p) :
    Ensures (fun r => Held 1 low r.2 ∧ FullFits r.2 ∧ r.1 * unit < 2 ^ 64) (p.getRateSample now) := by
  obtain ⟨supplied, hranked, hall⟩ := h.window
  have hinterval : millisPerSec ≤ now - p.lastAckStamp := by omega
  have hpos : 0 < now - p.lastAckStamp := lt_of_lt_of_le (by decide) hinterval
  have hbw : divCeil ((p.dashbord.ackedBytes - p.lastAckBytes) * millisPerSec)
      (now - p.lastAckStamp) ≤ p.dashbord.ackedBytes - p.lastAckBytes :=
    (divCeil_le_iff hpos).mpr (Nat.mul_le_mul_left _ hinterval)
  rw [Probe.getRateSample, ensures_bind, ensures_sub]
  refine ⟨by omega, ?_⟩
  rw [ensures_bind, ensures_sub]
  refine ⟨h.bytes, ?_⟩
  rw [ensures_bind, ensures_add]
  refine ⟨hcnt, ?_⟩
  rw [ensures_bind, ensures_mul]
  refine ⟨hbytes, ?_⟩
  rw [ensures_map, divCeilChecked, if_neg hpos.ne', ensures_ok]
  refine ⟨{ h with
    bytes := le_rfl
    cnt := hcnt
    window := ⟨supplied, hranked, fun y hy => ⟨(hall y hy).1.trans (Nat.le_succ _), (hall y hy).2⟩⟩
    fullCnt := Nat.add_le_add_right h.fullCnt 1 }, hfull, ?_⟩
  have hunit : unit ≤ millisPerSec := by decide
  exact (Nat.mul_le_mul hbw hunit).trans_lt hbytes

/-- The maximum is moved on. -/
theorem Held.updateBw (h : Held full low p) (hfull : FullFits p) (rs : ℕ) :
    Ensures (fun r => Held full low r.2 ∧ FullFits r.2 ∧ r.1 < 2 ^ 32) (p.updateBw rs) := by
  obtain ⟨supplied, hranked, hall⟩ := h.window
  have hage : ∀ y ∈ supplied, y.t ≤ (⟨p.sampleUpdateCnt, u32 rs⟩ : MinmaxSample).t :=
    fun y hy => (hall y hy).1
  obtain ⟨r, hr, hnext, -, -⟩ :=
    Minmax.runningBy_ranked maxBwCwnd Minmax.preference_max hranked hage
  refine ensures_map.mpr ⟨r, hr, { h with window := ⟨_, hnext, ?_⟩ }, hfull, h.get_lt⟩
  intro y hy
  rcases List.mem_append.mp hy with hold | hnew
  · exact hall y hold
  · rw [List.mem_singleton.mp hnew]
    exact ⟨le_rfl, Nat.mod_lt _ (by decide)⟩

/-- **The full bandwidth.**  `full_bw_cnt` counts one measurement at most. -/
theorem Held.growFullBw (h : Held 1 low p) : Ensures (Held 0 low) p.growFullBw := by
  have hget := h.get_lt
  have hfull := h.fullBw_lt
  have hcnt := h.fullCnt
  unfold Probe.growFullBw
  split_ifs with hkeep
  · rw [ensures_map, ensures_sub]
    exact ⟨hkeep, { h with
      fullBw_lt := max_lt hfull hget
      fullCnt := Nat.le_of_succ_le hcnt }⟩
  · rw [ensures_bind, ensures_mul]
    refine ⟨by unfold bwUpThresh unit; omega, ?_⟩
    split_ifs with hgrown
    · exact ensures_ok.mpr { h with fullBw_lt := hget, fullCnt := Nat.zero_le _ }
    · rw [ensures_map, ensures_add]
      exact ⟨hcnt.trans_lt h.cnt, { h with fullCnt := hcnt }⟩

theorem Held.checkFullBw (h : Held 1 low p) (hfull : FullFits p) :
    Ensures (Held 0 low) p.checkFullBw := by
  have hstay : Held 0 low p := { h with fullCnt := Nat.le_of_succ_le h.fullCnt }
  have hleft : Held 1 low { p with fullBw := 0, fullBwReached := false } :=
    { h with fullBw_lt := Nat.two_pow_pos 32 }
  unfold Probe.checkFullBw Probe.leaveFullBw
  split_ifs with hreached hsmall
  · exact hleft.growFullBw
  · rw [ensures_bind, ensures_map, ensures_mul]
    refine ⟨?_, ?_⟩
    · by_contra hge
      exact hfull ⟨hreached, not_le.mp hsmall, not_lt.mp hge⟩
    · split_ifs with hlow
      · exact hleft.growFullBw
      · exact ensures_ok.mpr hstay
  · exact h.growFullBw

/-- A high gain is found valid once in each of its rounds at most. -/
theorem Held.keepHighGain (h : Held full low p) (hbw : bw * unit < 2 ^ 64) :
    Ensures (Held full low) (p.keepHighGain bw) := by
  have hhigh := h.high
  have hlast := h.lastHigh_lt
  unfold Probe.keepHighGain
  split_ifs with hcnt
  · rw [ensures_bind, ensures_sub]
    refine ⟨hcnt, ?_⟩
    rw [ensures_bind, ensures_mul]
    refine ⟨hbw, ?_⟩
    rw [ensures_bind, ensures_mul]
    refine ⟨by unfold bwUpKeepThresh unit; omega, ?_⟩
    have hvalid : Ensures (fun valid => valid + (p.cwndHighGainCnt - 1) ≤ hightGainCycle)
        (if p.lastHighBw * bwUpKeepThresh ≤ bw * unit then add 32 p.highGainValidCnt 1
          else .ok p.highGainValidCnt) := by
      unfold hightGainCycle at hhigh ⊢
      split_ifs
      · rw [ensures_add]
        omega
      · rw [ensures_ok]
        omega
    obtain ⟨valid, hok, hle⟩ := hvalid
    refine ensures_bind_of_eq_ok hok ?_
    rw [ensures_map, ensures_mul]
    refine ⟨by unfold hightGainCycle at hle; unfold unit; omega, ?_⟩
    dsimp only
    split_ifs
    · exact { h with
        gain_le := unit_le_startupGain
        high := (Nat.le_add_right valid _).trans hle }
    · exact { h with gain_le := unit_le_startupGain, high := hle }
  · exact ensures_ok.mpr h

/-- The low gains are counted up to the cycle. -/
theorem Held.countLowGain (h : Held full 1 p) (hbw : bw * unit < 2 ^ 64)
    (horigin : originBw < 2 ^ 32) : Ensures (Held full 0) (p.countLowGain bw originBw) := by
  have hlow := h.low_le
  rw [Probe.countLowGain, ensures_bind, ensures_mul]
  refine ⟨hbw, ?_⟩
  rw [ensures_bind, ensures_mul]
  refine ⟨by unfold bwDownThresh unit; omega, ?_⟩
  split_ifs
  · rw [ensures_map, ensures_add]
    exact ⟨by unfold lowGainCycle at hlow; omega, { h with
      gain_le := unit_le_startupGain
      low_le := hlow }⟩
  · exact ensures_ok.mpr { h with low_le := Nat.le_of_succ_le hlow }

/-- Then the counters that are full are reset. -/
theorem Held.chooseGain (h : Held full 0 p) (horigin : originBw < 2 ^ 32) :
    Ensures (Held full 1) (p.chooseGain originBw) := by
  have hcycle : 0 + 1 ≤ lowGainCycle := by decide
  unfold Probe.chooseGain
  split_ifs with hnormal hlow hcnt
  · exact ensures_ok.mpr { h with
      gain_le := cwndHightGain_le_startupGain
      high := (Nat.zero_add hightGainCycle).le
      low_le := hcycle
      normal_le := Nat.zero_le _
      lastHigh_lt := horigin }
  · exact ensures_ok.mpr { h with
      gain_le := cwndLowGain_le_startupGain
      low_le := hcycle
      normal_le := Nat.zero_le _ }
  all_goals
    have hlow : p.cwndLowGainCnt + 1 ≤ lowGainCycle := by
      by_contra hge
      apply hlow
      rw [Bool.or_eq_true, decide_eq_true_eq]
      exact Or.inr (by omega)
  · rw [ensures_map, ensures_add]
    exact ⟨by unfold normalGainCycle at hnormal; omega, { h with
      gain_le := unit_le_startupGain
      low_le := hlow
      normal_le := not_le.mp hnormal }⟩
  · exact ensures_ok.mpr { h with low_le := hlow }

theorem Held.updateGain (h : Held full 1 p) (hbw : bw * unit < 2 ^ 64)
    (horigin : originBw < 2 ^ 32) : Ensures (Held full 1) (p.updateGain bw originBw) := by
  unfold Probe.updateGain
  split_ifs
  · obtain ⟨p₁, hp₁, h₁⟩ := h.keepHighGain hbw
    apply ensures_bind_of_eq_ok hp₁
    obtain ⟨p₂, hp₂, h₂⟩ := h₁.countLowGain hbw horigin
    apply ensures_bind_of_eq_ok hp₂
    exact h₂.chooseGain horigin
  · exact ensures_ok.mpr { h with gain_le := le_rfl }
  · exact ensures_ok.mpr { h with gain_le := unit_le_startupGain }

/-- **The window** is clamped, and the products on the way are small. -/
theorem Held.updateCwnd (h : Held full low p) {gain : ℕ} (hgain : gain ≤ startupGain) :
    Ensures (Held full low) (p.updateCwnd gain) := by
  have hge := h.cwnd_ge
  have hle := h.cwnd_le
  unfold minCwnd at hge
  unfold maxCwnd at hle
  have hcwnd : Ensures (fun cwnd => cwnd ≤ 27)
      (if gain = cwndHightGain ∨ gain = startupGain then add 32 p.dashbord.cwnd 2
        else if gain = cwndLowGain then sub p.dashbord.cwnd 1
        else .ok p.dashbord.cwnd) := by
    split_ifs
    · rw [ensures_add]
      omega
    · rw [ensures_sub]
      omega
    · rw [ensures_ok]
      omega
  obtain ⟨cwnd, hok, hsmall⟩ := hcwnd
  apply ensures_bind_of_eq_ok hok
  have hprod : cwnd * gain ≤ 27 * startupGain := Nat.mul_le_mul hsmall hgain
  rw [ensures_map, ensures_mul]
  have hfits : 27 * startupGain < 2 ^ 64 := by decide
  have hclamp : minCwnd ≤ maxCwnd := by decide
  exact ⟨hprod.trans_lt hfits, { h with
    cwnd_ge := Nat.le_max_left _ _
    cwnd_le := max_le hclamp (Nat.min_le_right _ _) }⟩

end Steps

/-! ## One acknowledgement -/

/-- What an acknowledgement needs in the state it comes in.  The last part is about those that
are followed by a measurement. -/
structure FitsAck (p : Probe) (a : Ack) : Prop where
  acked : p.dashbord.ackedBytes + a.readSize < 2 ^ 64
  stamp : p.lastAckStamp + millisPerSec < 2 ^ 64
  measured : p.lastAckStamp + millisPerSec ≤ a.check →
    (p.dashbord.ackedBytes + a.readSize - p.lastAckBytes) * millisPerSec < 2 ^ 64 ∧
      p.sampleUpdateCnt + 1 < 2 ^ 32 ∧ FullFits p

section Acks

variable {p : Probe} {a : Ack}

/-- **A measurement** keeps the counters. -/
theorem Held.measure (h : Sound p) (hdue : p.lastAckStamp + millisPerSec ≤ a.sample)
    (hbytes : (p.dashbord.ackedBytes - p.lastAckBytes) * millisPerSec < 2 ^ 64)
    (hcnt : p.sampleUpdateCnt + 1 < 2 ^ 32) (hfull : FullFits p) :
    Ensures (fun r => Sound r.1) (p.measure a) := by
  obtain ⟨⟨rs, p₁⟩, hp₁, h₁, hfull₁, hrs⟩ := h.getRateSample hdue hbytes hcnt hfull
  apply ensures_bind_of_eq_ok hp₁
  obtain ⟨⟨originBw, p₂⟩, hp₂, h₂, hfull₂, horigin⟩ := h₁.updateBw hfull₁ rs
  apply ensures_bind_of_eq_ok hp₂
  obtain ⟨p₃, hp₃, h₃⟩ := h₂.checkFullBw hfull₂
  apply ensures_bind_of_eq_ok hp₃
  obtain ⟨p₄, hp₄, h₄⟩ := h₃.updateGain hrs horigin
  apply ensures_bind_of_eq_ok hp₄
  rw [ensures_map]
  exact h₄.updateCwnd h₄.gain_le

/-- **The condition is enough**, the clock not going back between its two readings. -/
theorem ack_sound (h : Sound p) (hfits : FitsAck p a) (hclock : a.check ≤ a.sample) :
    Ensures Sound (step p a) := by
  unfold step Probe.ack
  rw [ensures_map, ensures_bind, ensures_add]
  refine ⟨hfits.acked, ?_⟩
  rw [ensures_bind, ensures_add]
  refine ⟨hfits.stamp, ?_⟩
  have hsound : Sound { p.inflightDec with
      dashbord.ackedBytes := p.dashbord.ackedBytes + a.readSize } :=
    { h with bytes := h.bytes.trans (Nat.le_add_right _ _) }
  split_ifs with hearly
  · exact ensures_ok.mpr hsound
  · have hdue : p.lastAckStamp + millisPerSec ≤ a.check := not_lt.mp hearly
    obtain ⟨hbytes, hcnt, hfull⟩ := hfits.measured hdue
    rw [ensures_map]
    exact hsound.measure (hdue.trans hclock) hbytes hcnt hfull

/-- A sample has been taken within the bounds, and the full bandwidth is as before. -/
theorem fits_of_getRateSample {now : ℕ} {r : ℕ × Probe} (h : p.getRateSample now = .ok r) :
    (p.dashbord.ackedBytes - p.lastAckBytes) * millisPerSec < 2 ^ 64 ∧
      p.sampleUpdateCnt + 1 < 2 ^ 32 ∧ (FullFits r.2 → FullFits p) := by
  obtain ⟨intervalMs, -, h⟩ := bind_eq_ok.mp h
  obtain ⟨intervalBytes, hbytes, h⟩ := bind_eq_ok.mp h
  obtain ⟨cnt, hcnt, h⟩ := bind_eq_ok.mp h
  obtain ⟨scaled, hscaled, h⟩ := bind_eq_ok.mp h
  obtain ⟨bw, -, rfl⟩ := map_eq_ok.mp h
  obtain ⟨-, rfl⟩ := sub_eq_ok.mp hbytes
  exact ⟨(mul_eq_ok.mp hscaled).1, (add_eq_ok.mp hcnt).1, id⟩

theorem fullFits_of_updateBw {rs : ℕ} {r : ℕ × Probe} (h : p.updateBw rs = .ok r)
    (hfull : FullFits r.2) : FullFits p := by
  obtain ⟨bw, -, rfl⟩ := map_eq_ok.mp h
  exact hfull

theorem fullFits_of_checkFullBw (h : Succeeds p.checkFullBw) : FullFits p := by
  rintro ⟨hreached, hlarge, hover⟩
  obtain ⟨left, hleft, -⟩ := succeeds_bind.mp h
  rw [Probe.leaveFullBw, if_pos hreached, if_neg (not_le.mpr hlarge), map_eq_ok] at hleft
  obtain ⟨x, hx, -⟩ := hleft
  exact absurd (mul_eq_ok.mp hx).1 (not_lt.mpr hover)

/-- **The condition is needed.** -/
theorem fitsAck_of_succeeds (h : Succeeds (step p a)) : FitsAck p a := by
  unfold step Probe.ack at h
  rw [succeeds_map] at h
  obtain ⟨acked, hacked, h⟩ := succeeds_bind.mp h
  obtain ⟨due, hdue, h⟩ := succeeds_bind.mp h
  obtain ⟨hfits, rfl⟩ := add_eq_ok.mp hacked
  obtain ⟨hstamp, rfl⟩ := add_eq_ok.mp hdue
  refine ⟨hfits, hstamp, fun hcheck => ?_⟩
  have hdue : ¬ a.check < p.inflightDec.lastAckStamp + millisPerSec := not_lt.mpr hcheck
  rw [if_neg hdue, succeeds_map] at h
  obtain ⟨⟨rs, p₁⟩, hp₁, h⟩ := succeeds_bind.mp h
  obtain ⟨⟨originBw, p₂⟩, hp₂, h⟩ := succeeds_bind.mp h
  obtain ⟨p₃, hp₃, -⟩ := succeeds_bind.mp h
  obtain ⟨hbytes, hcnt, hback⟩ := fits_of_getRateSample hp₁
  have hfull₂ : FullFits p₂ := fullFits_of_checkFullBw ⟨p₃, hp₃⟩
  exact ⟨hbytes, hcnt, hback (fullFits_of_updateBw hp₂ hfull₂)⟩

/-- What goes to the bandwidth window is in the ranges of its types, so that the window takes it. -/
theorem window_takes_item {limit : ℕ} (hlimit : Fits limit) {w : TimeFixeQueue}
    (hw : BandwidthWindow.Sound limit w) {p' : Probe} {item : Item}
    (h : p.ack a = .ok (p', some item)) (hupdate : a.update < 2 ^ 63) (now : ℕ) :
    Ensures (BandwidthWindow.Sound limit) (w.push item now) := by
  obtain ⟨acked, -, h⟩ := bind_eq_ok.mp h
  obtain ⟨due, -, h⟩ := bind_eq_ok.mp h
  split_ifs at h
  · cases h
  · obtain ⟨⟨p₅, out⟩, hmeasure, hout⟩ := map_eq_ok.mp h
    obtain ⟨⟨rs, p₁⟩, -, hmeasure⟩ := bind_eq_ok.mp hmeasure
    obtain ⟨⟨originBw, p₂⟩, -, hmeasure⟩ := bind_eq_ok.mp hmeasure
    obtain ⟨p₃, -, hmeasure⟩ := bind_eq_ok.mp hmeasure
    obtain ⟨p₄, -, hmeasure⟩ := bind_eq_ok.mp hmeasure
    obtain ⟨p₅', -, hitem⟩ := map_eq_ok.mp hmeasure
    have hrange : InRange (Probe.updateAvgBw rs a.update) :=
      ⟨Nat.mod_lt _ (Nat.two_pow_pos 32), hupdate⟩
    cases hitem
    cases hout
    exact hw.push hlimit hrange now

end Acks

/-! ## Runs -/

/-- A run whose acknowledgements all meet the condition has a result, with the counters kept. -/
theorem run_sound {acks : List Ack} (hclock : ∀ a ∈ acks, a.check ≤ a.sample)
    (hfits : Keeps step FitsAck (.new .new) acks) : Ensures Sound (run acks) := by
  apply hfits.ensures sound_new
  intro a ha p hp hack
  exact ack_sound hp hack (hclock a ha)

/-- **The arithmetic of the probe** gives a result after every acknowledgement, with the congestion
window between its bounds, exactly if each acknowledgement fits into the state it comes in. -/
theorem probe_iff (acks : List Ack) (hclock : ∀ a ∈ acks, a.check ≤ a.sample) :
    (∀ past, past <+: acks →
      ∃ p, run past = .ok p ∧ 4 ≤ p.dashbord.cwnd ∧ p.dashbord.cwnd ≤ 25) ↔
      Keeps step FitsAck (.new .new) acks := by
  constructor
  · intro h
    obtain ⟨p, hp, -⟩ := h acks List.prefix_rfl
    exact keeps_of_succeeds (fun _ _ => fitsAck_of_succeeds) ⟨p, hp⟩
  · rintro h past ⟨rest, rfl⟩
    have hpast : ∀ a ∈ past, a.check ≤ a.sample :=
      fun a ha => hclock a (List.mem_append_left rest ha)
    obtain ⟨p, hp, hsound⟩ := run_sound hpast h.of_append
    exact ⟨p, hp, hsound.cwnd_ge, hsound.cwnd_le⟩

/-- One acknowledgement a second, of `size` bytes. -/
def everySecond (size count : ℕ) : List Ack :=
  (List.range count).map fun k =>
    ⟨size, 1000 * (k + 1), 1000 * (k + 1), 1000 * (k + 1)⟩

theorem probe_iff_twoBlocks :
    (∀ a ∈ everySecond 16384 2, a.check ≤ a.sample) ∧
    ∀ past, past <+: everySecond 16384 2 →
      ∃ p, run past = .ok p ∧ 4 ≤ p.dashbord.cwnd ∧ p.dashbord.cwnd ≤ 25 := by
  have hclock : ∀ a ∈ everySecond 16384 2, a.check ≤ a.sample := by decide
  have hok : (run (everySecond 16384 2)).toOption.isSome = true := by decide +kernel
  refine ⟨hclock, (probe_iff _ hclock).mpr ?_⟩
  apply keeps_of_succeeds (fun _ _ => fitsAck_of_succeeds)
  show Succeeds (run (everySecond 16384 2))
  cases hrun : run (everySecond 16384 2) with
  | error e => simp [hrun, Except.toOption] at hok
  | ok p => exact succeeds_ok p

/-- At 40 MB a second the bandwidth is found full, and the eighth acknowledgement stops the probe. -/
theorem probe_overflows :
    (∀ a ∈ everySecond 40000000 8,
      a.readSize < 2 ^ 32 ∧ 1000 ≤ a.check ∧ a.check ≤ a.sample ∧ a.sample ≤ a.update) ∧
    (everySecond 40000000 8).Pairwise (fun a b => a.update ≤ b.check) ∧
    (run (everySecond 40000000 7)).toOption.map
      (fun p => (p.fullBwReached, p.dashbord.cwnd, p.fullBw)) = some (true, 9, 40000000) ∧
    run (everySecond 40000000 8) = .error .overflow := by
  refine ⟨?_, ?_, ?_, ?_⟩ <;> decide +kernel

end RateProbe
