import Mathlib.Data.Nat.ModEq
import RangePool.Proofs.Reward.Stream
/-!
Successive updates of a reward slot. In the order of time they succeed as long as the counters have room. However often
a slot is brought to the present, every second of the campaign counts once, for the liquidity or as idle. While the
liquidity stays the same, the updates on the way cost at most what each of them rounds off.
-/
set_option autoImplicit false

namespace RangePool.RewardSlot

def updates (r : RewardSlot) (us : List (Liquidity × Point)) : Except Fault RewardSlot :=
  us.foldlM (fun r u => r.update u.1 u.2) r

def busySeconds (endsAt : Nat) : Nat → List (Liquidity × Point) → Nat
  | _, [] => 0
  | since, (L, now) :: us =>
    (if L = 0 then 0 else min now.val endsAt - since) + busySeconds endsAt (min now.val endsAt) us

section
variable {r q r' : RewardSlot} {us : List (Liquidity × Point)} {L : Liquidity} {now : Point}

theorem updates_cons_eq_ok {u : Liquidity × Point} :
    r.updates (u :: us) = .ok r' ↔ ∃ q, r.update u.1 u.2 = .ok q ∧ q.updates us = .ok r' := by
  simp only [updates, List.foldlM_cons, bind_eq_ok]

theorem updates_concat_eq_ok :
    r.updates (us ++ [(L, now)]) = .ok r' ↔ ∃ q, r.updates us = .ok q ∧ q.update L now = .ok r' := by
  simp only [updates, List.foldlM_append, List.foldlM_cons, List.foldlM_nil, bind_eq_ok, pure_eq_ok,
    exists_eq_right]

theorem Passed.opened {L seconds : Nat} (h : r.Passed L now seconds r') : r'.opened = r.opened := by
  rw [h.frame]

/-- No second of the campaign is lost, and none counts twice. -/
structure Counted (r : RewardSlot) (us : List (Liquidity × Point)) (r' : RewardSlot) : Prop where
  frame : r' = { r with
    perLiquidity := r'.perLiquidity
    lastUpdate := r'.lastUpdate
    idleSeconds := r'.idleSeconds }
  advances : r.lastUpdate.val ≤ r'.lastUpdate.val
  idles : r.idleSeconds.val ≤ r'.idleSeconds.val
  seconds : r.lastUpdate.val + busySeconds r.endsAt.val r.lastUpdate.val us + r'.idleSeconds.val =
    r'.lastUpdate.val + r.idleSeconds.val

theorem Counted.cons {seconds : Nat} (h : r.Passed L.val now seconds q) (hq : q.Counted us r') :
    r.Counted ((L, now) :: us) r' := by
  have hends : q.endsAt = r.endsAt := by rw [h.frame]
  have hframe := hq.frame
  rw [h.frame] at hframe
  have hlast := h.lastUpdate
  have hidle := h.idleSeconds
  have hreached := h.reached
  have hadvances := hq.advances
  have hidles := hq.idles
  have hseconds := hq.seconds
  rw [hends, hreached] at hseconds
  refine ⟨hframe, by omega, by omega, ?_⟩
  rw [busySeconds]
  by_cases hL : L = 0
  · rw [if_pos (Word.eq_zero_iff.1 hL)] at hidle
    rw [if_pos hL]
    omega
  · rw [if_neg (mt Word.eq_zero_iff.2 hL)] at hidle
    rw [if_neg hL]
    omega

theorem updates_counted (ho : r.opened = true) (h : r.updates us = .ok r') : r.Counted us r' := by
  induction us generalizing r with
  | nil =>
    cases h
    exact ⟨rfl, Nat.le_refl _, Nat.le_refl _, rfl⟩
  | cons u us ih =>
    obtain ⟨q, hu, hq⟩ := updates_cons_eq_ok.1 h
    obtain ⟨_, hp⟩ := update_passed ho hu
    exact .cons hp (ih (hp.opened.trans ho) hq)

structure Roomy (r : RewardSlot) : Prop where
  inTime : r.lastUpdate.val ≤ r.endsAt.val
  perLiquidity_lt : r.perLiquidity.val +
    r.rate.val * (r.endsAt.val - r.lastUpdate.val) * 2 ^ 128 < 2 ^ 256
  idleSeconds_lt : r.idleSeconds.val + (r.endsAt.val - r.lastUpdate.val) < 2 ^ 64

theorem Roomy.stream_lt (h : r.Roomy) :
    r.rate.val * (r.endsAt.val - r.lastUpdate.val) < 2 ^ 128 := by
  have hlt := h.perLiquidity_lt
  omega

theorem Roomy.exists_update (h : r.Roomy) (L : Liquidity) (hnow : r.lastUpdate.val ≤ now.val) :
    ∃ q, r.update L now = .ok q := by
  obtain ⟨d, total, hd, htotal⟩ := exists_streamed h.inTime h.stream_lt hnow
  have helapsed := elapsed_eq_ok.1 hd
  have hseconds : d.val ≤ r.endsAt.val - r.lastUpdate.val := by omega
  unfold update
  split
  · split
    · have hidle := h.idleSeconds_lt
      obtain ⟨idle, hadd⟩ := Word.exists_add.2 (show r.idleSeconds.val + d.val < 2 ^ 64 by omega)
      simp only [bind_eq_ok]
      exact ⟨_, d, hd, idle, hadd, rfl⟩
    · rename_i hL
      obtain ⟨gain, hgain, hle⟩ := exists_accrued hd htotal hL
      have hlt := h.perLiquidity_lt
      have hstream : r.rate.val * d.val * 2 ^ 128 ≤
          r.rate.val * (r.endsAt.val - r.lastUpdate.val) * 2 ^ 128 :=
        Nat.mul_le_mul_right _ (Nat.mul_le_mul_left _ hseconds)
      obtain ⟨acc, hadd⟩ := Word.exists_add.2
        (show r.perLiquidity.val + gain.val < 2 ^ 256 by omega)
      simp only [accumulate, bind_eq_ok]
      exact ⟨_, gain, hgain, _, ⟨acc, hadd, rfl⟩, rfl⟩
  · exact ⟨r, rfl⟩

theorem Passed.roomy {L seconds : Nat} (h : r.Passed L now seconds q) (hr : r.Roomy) : q.Roomy := by
  have hrate : q.rate = r.rate := by rw [h.frame]
  have hends : q.endsAt = r.endsAt := by rw [h.frame]
  have hintime := hr.inTime
  have hlast := h.lastUpdate
  have hreached := h.reached
  -- Each second that has passed moves from the room that is still needed to the counters, and adds no more to them.
  obtain ⟨rest, hrest⟩ : ∃ rest, r.endsAt.val - q.lastUpdate.val = rest := ⟨_, rfl⟩
  have hsplit : r.endsAt.val - r.lastUpdate.val = seconds + rest := by omega
  have hlt := hr.perLiquidity_lt
  have hidle := hr.idleSeconds_lt
  rw [hsplit] at hidle
  rw [hsplit, Nat.mul_add, Nat.add_mul] at hlt
  refine ⟨?_, ?_, ?_⟩
  · rw [hends]
    omega
  · have hgain : r.gain L seconds ≤ r.rate.val * seconds * 2 ^ 128 := Nat.div_le_self _ _
    rw [hrate, hends, hrest, h.perLiquidity]
    omega
  · rw [hends, hrest, h.idleSeconds]
    split <;> omega

theorem Roomy.exists_updates (h : r.Roomy) (ho : r.opened = true)
    (hfirst : ∀ u ∈ us, r.lastUpdate ≤ u.2) (horder : us.Pairwise fun u v => u.2 ≤ v.2) :
    ∃ r', r.updates us = .ok r' := by
  induction us generalizing r with
  | nil => exact ⟨r, rfl⟩
  | cons u us ih =>
    obtain ⟨hnext, horder⟩ := List.pairwise_cons.1 horder
    obtain ⟨q, hq⟩ := h.exists_update u.1 (hfirst u (List.mem_cons_self ..))
    obtain ⟨_, hp⟩ := update_passed ho hq
    have hlater : ∀ v ∈ us, q.lastUpdate ≤ v.2 := fun v hv =>
      (hp.reached.trans_le (Nat.min_le_left _ _)).trans (hnext v hv)
    obtain ⟨r', hr'⟩ := ih (hp.roomy h) (hp.opened.trans ho) hlater horder
    exact ⟨r', updates_cons_eq_ok.2 ⟨q, hq, hr'⟩⟩

theorem gain_add (r : RewardSlot) (L s t : Nat) :
    r.gain L s + r.gain L t ≤ r.gain L (s + t) ∧ r.gain L (s + t) ≤ r.gain L s + r.gain L t + 1 := by
  unfold gain
  rw [Nat.mul_add, Nat.add_mul]
  exact ⟨Nat.div_add_div_le_add_div, Nat.add_div_le_div_add_div_add_one _ _ _⟩

/-- What `k` updates with one liquidity come to. However many seconds are still to follow, the updates took at most one
each from what all of them would gain at once. -/
structure Steady (r : RewardSlot) (L k seconds : Nat) (r' : RewardSlot) : Prop where
  lastUpdate : r'.lastUpdate.val = r.lastUpdate.val + seconds
  idleSeconds : r'.idleSeconds.val = r.idleSeconds.val + if L = 0 then seconds else 0
  le_once : ∀ later, r'.perLiquidity.val + r.gain L later ≤
    r.perLiquidity.val + r.gain L (seconds + later)
  once_le : ∀ later, r.perLiquidity.val + r.gain L (seconds + later) ≤
    r'.perLiquidity.val + r.gain L later + k

theorem Steady.cons {L k s t : Nat} (h : r.Passed L now s q) (hq : q.Steady L k t r') :
    r.Steady L (k + 1) (s + t) r' := by
  have hlast := h.lastUpdate
  have hgain := h.perLiquidity
  have hsame (later : Nat) : q.gain L later = r.gain L later := by rw [h.frame]; rfl
  refine ⟨?_, ?_, fun later => ?_, fun later => ?_⟩
  · have hlater := hq.lastUpdate
    omega
  · rw [hq.idleSeconds, h.idleSeconds, Nat.add_assoc, ite_add_ite, Nat.add_zero]
  · have hle := hq.le_once later
    have hadd := (gain_add r L s (t + later)).1
    rw [hsame, hsame] at hle
    rw [Nat.add_assoc]
    omega
  · have hle := hq.once_le later
    have hadd := (gain_add r L s (t + later)).2
    rw [hsame, hsame] at hle
    rw [Nat.add_assoc]
    omega

theorem updates_steady (ho : r.opened = true) (hL : ∀ u ∈ us, u.1 = L)
    (h : r.updates us = .ok r') : ∃ seconds, r.Steady L.val us.length seconds r' := by
  induction us generalizing r with
  | nil =>
    cases h
    exact ⟨0, rfl, by simp, by simp, by simp⟩
  | cons u us ih =>
    obtain ⟨q, hu, hq⟩ := updates_cons_eq_ok.1 h
    rw [hL u (List.mem_cons_self ..)] at hu
    obtain ⟨seconds, hp⟩ := update_passed ho hu
    obtain ⟨later, hs⟩ := ih (hp.opened.trans ho) (fun v hv => hL v (List.mem_cons_of_mem _ hv)) hq
    exact ⟨seconds + later, .cons hp hs⟩

/-- After any updates of an open slot it is up to date, and every second it advanced was counted, either as one with
liquidity or as an idle one. If the liquidity was the same all the time, a single update comes to the same time and the
same idle seconds, and it accrues at most one in the last place more for each update that it leaves out. -/
theorem updates_count_every_second (ho : r.opened = true) (h : r.updates (us ++ [(L, now)]) = .ok r') :
    r'.lastUpdate.val = min now.val r.endsAt.val ∧
    r.lastUpdate.val ≤ r'.lastUpdate.val ∧ r.idleSeconds.val ≤ r'.idleSeconds.val ∧
    busySeconds r.endsAt.val r.lastUpdate.val (us ++ [(L, now)]) +
        (r'.idleSeconds.val - r.idleSeconds.val) = r'.lastUpdate.val - r.lastUpdate.val ∧
    ∀ once, (∀ u ∈ us, u.1 = L) → r.update L now = .ok once →
      once.lastUpdate = r'.lastUpdate ∧ once.idleSeconds = r'.idleSeconds ∧
      r'.perLiquidity.val ≤ once.perLiquidity.val ∧
      once.perLiquidity.val ≤ r'.perLiquidity.val + us.length := by
  obtain ⟨-, hadvances, hidles, hseconds⟩ := updates_counted ho h
  obtain ⟨q, hq, hlast⟩ := updates_concat_eq_ok.1 h
  have hframe := (updates_counted ho hq).frame
  obtain ⟨t, hp⟩ := update_passed (by rw [hframe, ho]) hlast
  have hreached : r'.lastUpdate.val = min now.val r.endsAt.val := by rw [hp.reached, hframe]
  refine ⟨hreached, hadvances, hidles, by omega, fun once hL honce => ?_⟩
  obtain ⟨s, hsteady⟩ := updates_steady ho hL hq
  obtain ⟨total, hone⟩ := update_passed ho honce
  have hwhole := hone.perLiquidity
  have hgain := hp.perLiquidity
  have hidle := hp.idleSeconds
  have hsame : q.gain L.val t = r.gain L.val t := by rw [hframe]; rfl
  -- The single update comes to the same time, so that it takes all the seconds of the others.
  have htotal : total = s + t := by
    have h₁ := hone.lastUpdate
    have h₂ := hp.lastUpdate
    have h₃ := hsteady.lastUpdate
    have h₄ := hone.reached
    omega
  rw [htotal] at hwhole
  rw [hsame] at hgain
  have hle := hsteady.le_once t
  have hge := hsteady.once_le t
  refine ⟨Word.ext (hone.reached.trans hreached.symm), Word.ext ?_, by omega, by omega⟩
  rw [hone.idleSeconds, hidle, hsteady.idleSeconds, htotal, Nat.add_assoc, ite_add_ite, Nat.add_zero]

end

def oneASecond : RewardSlot where
  opened := true
  duration := .lit 64 96
  endsAt := .lit 64 2100
  rate := .lit 128 (2 ^ 64)
  lastUpdate := .lit 64 2004

/-- This liquidity leaves of each second's `2 ^ 192` all that a remainder can be. -/
def awkward : Liquidity := .lit 128 (2 ^ 64 + 1)

/-- Of three updates in three seconds each rounds off the most it can, and the one for all three gains two more. -/
theorem updates_count_every_second_attained : ∃ r' once,
    oneASecond.updates ([(awkward, .lit 64 2005), (awkward, .lit 64 2006)] ++
      [(awkward, .lit 64 2007)]) = .ok r' ∧
    oneASecond.update awkward (.lit 64 2007) = .ok once ∧ r'.lastUpdate.val = 2007 ∧
    once.lastUpdate = r'.lastUpdate ∧ once.idleSeconds = r'.idleSeconds ∧
    r'.perLiquidity.val + 2 = once.perLiquidity.val ∧
    once.perLiquidity.val ≤ r'.perLiquidity.val + 2 := by
  have h : ((oneASecond.updates ([(awkward, .lit 64 2005), (awkward, .lit 64 2006)] ++
      [(awkward, .lit 64 2007)])).toOption.bind fun r' =>
      (oneASecond.update awkward (.lit 64 2007)).toOption.map fun once =>
        decide (r'.perLiquidity.val + 2 = once.perLiquidity.val)) = some true := by decide +kernel
  obtain ⟨r', hr, h⟩ := Option.bind_eq_some_iff.1 h
  obtain ⟨once, honce, h⟩ := Option.map_eq_some_iff.1 h
  rw [toOption_eq_some] at hr honce
  obtain ⟨hreached, -, -, -, hsteady⟩ := updates_count_every_second rfl hr
  obtain ⟨hlast, hidle, -, hle⟩ := hsteady once (by simp) honce
  exact ⟨r', once, hr, honce, hreached, hlast, hidle, of_decide_eq_true h, hle⟩

/-- With spells without liquidity, and with the last update after the end. -/
example :
    let us := [(awkward, .lit 64 2010), (0, .lit 64 2040), (awkward, .lit 64 2060),
      (0, .lit 64 2090), (awkward, .lit 64 5000)]
    (oneASecond.updates us).toOption.map (fun r => (r.lastUpdate.val, r.idleSeconds.val)) =
      some (2100, 60) ∧ busySeconds 2100 2004 us = 36 := by decide +kernel

end RangePool.RewardSlot
