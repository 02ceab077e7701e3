import Mathlib.Tactic.Linarith
import RangePool.Proofs.Position.Settlement
/-!
What a reward slot streams. Its worth is what the liquidity has accrued, what the idle seconds stand for, and what
is still to come; bringing a slot or a stake to the present never raises it, and funding raises it by the amount
funded and by whatever the idle seconds gain in rate.
-/
set_option autoImplicit false

namespace RangePool

namespace RewardSlot

structure Updated (r : RewardSlot) (L : Nat) (now : Point) (r' : RewardSlot) : Prop where
  frame : r' = { r with
    perLiquidity := r'.perLiquidity
    lastUpdate := r'.lastUpdate
    idleSeconds := r'.idleSeconds }
  streamed : ∃ passed gain idle, r'.lastUpdate.val = r.lastUpdate.val + passed ∧
    r'.perLiquidity.val = r.perLiquidity.val + gain ∧
    r'.idleSeconds.val = r.idleSeconds.val + idle ∧
    L * gain + r.rate.val * idle * 2 ^ 128 ≤ r.rate.val * passed * 2 ^ 128 ∧
    r.rate.val * passed * 2 ^ 128 ≤ L * gain + r.rate.val * idle * 2 ^ 128 + L
  unopened : r.opened = false → r' = r
  reached : r.opened = true → r'.lastUpdate.val = min now.val r.endsAt.val

theorem elapsed_eq_ok {r : RewardSlot} {now : Point} {d : Word 64} :
    r.elapsed now = .ok d ↔ min now.val r.endsAt.val = r.lastUpdate.val + d.val := by
  rw [elapsed, Word.sub_eq_ok, Word.val_min]

def gain (r : RewardSlot) (L seconds : Nat) : Nat := r.rate.val * seconds * 2 ^ 128 / L

/-- How an open slot comes to `now`, to the unit: each second that passes counts either for the liquidity or as idle. -/
structure Passed (r : RewardSlot) (L : Nat) (now : Point) (seconds : Nat) (r' : RewardSlot) :
    Prop where
  frame : r' = { r with
    perLiquidity := r'.perLiquidity
    lastUpdate := r'.lastUpdate
    idleSeconds := r'.idleSeconds }
  reached : r'.lastUpdate.val = min now.val r.endsAt.val
  lastUpdate : r'.lastUpdate.val = r.lastUpdate.val + seconds
  perLiquidity : r'.perLiquidity.val = r.perLiquidity.val + r.gain L seconds
  idleSeconds : r'.idleSeconds.val = r.idleSeconds.val + if L = 0 then seconds else 0

theorem update_passed {r r' : RewardSlot} {L : Liquidity} {now : Point} (ho : r.opened = true)
    (h : r.update L now = .ok r') : ∃ seconds, r.Passed L.val now seconds r' := by
  unfold update at h
  rw [if_pos ho] at h
  by_cases hL : L = 0
  · simp only [hL, if_true, bind_eq_ok, pure_eq_ok, elapsed_eq_ok, Word.add_eq_ok] at h
    obtain ⟨d, hd, idle, hidle, rfl⟩ := h
    refine ⟨d.val, rfl, Word.val_min _ _, (Word.val_min _ _).trans hd, ?_, ?_⟩
    · simp [hL, touch, RewardSlot.gain]
    · simp [hL, touch, hidle]
  · have hL0 : L.val ≠ 0 := mt Word.eq_zero_iff.2 hL
    simp only [hL, if_false, accumulate, accrued, bind_eq_ok, pure_eq_ok, elapsed_eq_ok,
      Word.add_eq_ok, Word.mul_eq_ok, Word.wideShlDiv, Word.kept_eq_ok, Word.shlDiv?_eq_some,
      Word.val_widen] at h
    obtain ⟨gain, ⟨d, hd, total, ht, g, ⟨-, -, hg⟩, hgain⟩, _, ⟨acc, hacc, rfl⟩, rfl⟩ := h
    refine ⟨d.val, rfl, Word.val_min _ _, (Word.val_min _ _).trans hd, ?_, ?_⟩
    · rw [RewardSlot.gain, Nat.mul_comm r.rate.val, ht]
      exact hacc.symm.trans (congrArg (r.perLiquidity.val + ·) (hgain.symm.trans hg.symm))
    · simp [hL0, touch]

theorem Passed.updated {r r' : RewardSlot} {L seconds : Nat} {now : Point} (ho : r.opened = true)
    (h : r.Passed L now seconds r') : r.Updated L now r' where
  frame := h.frame
  unopened hn := by cases hn.symm.trans ho
  reached _ := h.reached
  streamed := by
    refine ⟨seconds, _, _, h.lastUpdate, h.perLiquidity, h.idleSeconds, ?_⟩
    by_cases hL : L = 0
    · simp [hL, RewardSlot.gain]
    · have hdiv := Nat.div_add_mod (r.rate.val * seconds * 2 ^ 128) L
      have hmod := Nat.mod_lt (r.rate.val * seconds * 2 ^ 128) (Nat.pos_of_ne_zero hL)
      rw [if_neg hL, RewardSlot.gain]
      omega

theorem update_ok {r r' : RewardSlot} {L : Liquidity} {now : Point} (h : r.update L now = .ok r') :
    r.Updated L.val now r' := by
  by_cases ho : r.opened = true
  · obtain ⟨_, hp⟩ := update_passed ho h
    exact hp.updated ho
  · rw [update, if_neg ho] at h
    cases h
    exact ⟨rfl, ⟨0, 0, 0, rfl, rfl, rfl, by simp, by simp⟩, fun _ => rfl, fun hn => absurd hn ho⟩

theorem exists_streamed {r : RewardSlot} {now : Point} (hend : r.lastUpdate.val ≤ r.endsAt.val)
    (hlt : r.rate.val * (r.endsAt.val - r.lastUpdate.val) < 2 ^ 128)
    (hnow : r.lastUpdate.val ≤ now.val) :
    ∃ d total, r.elapsed now = .ok d ∧ (d.widen 128).mul r.rate = .ok total := by
  have hlast : r.lastUpdate.val ≤ (min now r.endsAt).val := by
    rw [Word.val_min]
    exact Nat.le_min.2 ⟨hnow, hend⟩
  obtain ⟨d, hd, -⟩ := Word.exists_sub hlast
  have helapsed := elapsed_eq_ok.1 hd
  have hle : d.val * r.rate.val ≤ r.rate.val * (r.endsAt.val - r.lastUpdate.val) := by
    rw [Nat.mul_comm]
    exact Nat.mul_le_mul_left _ (by omega)
  exact ⟨d, ⟨_, Nat.lt_of_le_of_lt hle hlt⟩, hd, Word.mul_eq_ok.2 rfl⟩

theorem exists_accrued {r : RewardSlot} {now : Point} {d : Word 64} {total : Word 128}
    (hd : r.elapsed now = .ok d) (htotal : (d.widen 128).mul r.rate = .ok total) {L : Liquidity}
    (hL : L ≠ 0) : ∃ gain, r.accrued now L = .ok gain ∧ gain.val ≤ r.rate.val * d.val * 2 ^ 128 := by
  have hle : total.val * Nat.pow 2 128 / L.val ≤ r.rate.val * d.val * 2 ^ 128 := by
    rw [Nat.mul_comm r.rate.val, ← Word.val_widen d 128, Word.mul_eq_ok.1 htotal]
    exact Nat.div_le_self _ _
  have hfits : total.val * Nat.pow 2 128 / L.val < Nat.pow 2 256 :=
    Nat.lt_of_le_of_lt (Nat.div_le_self _ _)
      (Nat.mul_lt_mul_of_pos_right total.isLt (Nat.two_pow_pos 128))
  simp only [accrued, bind_eq_ok, Word.wideShlDiv, Word.kept_eq_ok, Word.shlDiv?_eq_some]
  exact ⟨⟨_, hfits⟩, ⟨d, hd, total, htotal, _, ⟨mt Word.eq_zero_iff.2 hL, by decide, rfl⟩, rfl⟩, hle⟩

theorem update_again {r : RewardSlot} {now : Point}
    (h : r.opened = true → r.lastUpdate.val = min now.val r.endsAt.val) (L : Liquidity) :
    r.update L now = .ok r := by
  unfold update
  by_cases ho : r.opened = true
  · have htouch : r.touch now = r := by
      have hu : min now r.endsAt = r.lastUpdate := Word.ext (by rw [Word.val_min, h ho])
      rw [touch, hu]
    have helapsed : r.elapsed now = .ok 0 := elapsed_eq_ok.2 (h ho).symm
    rw [if_pos ho]
    by_cases hL : L = 0
    · rw [if_pos hL]
      simp only [bind_eq_ok, pure_eq_ok]
      exact ⟨0, helapsed, r.idleSeconds, Word.add_eq_ok.2 rfl, htouch⟩
    · have hL0 : L.val ≠ 0 := fun h0 => hL (Word.ext h0)
      have hgain : r.accrued now L = .ok 0 := by
        simp only [accrued, bind_eq_ok, Word.mul_eq_ok, Word.wideShlDiv, Word.kept_eq_ok,
          Word.shlDiv?_eq_some]
        exact ⟨0, helapsed, 0, Nat.zero_mul _, 0, ⟨hL0, by decide, by simp [Rounding.quotient]⟩, rfl⟩
      rw [if_neg hL]
      simp only [accumulate, bind_eq_ok, pure_eq_ok]
      exact ⟨0, hgain, r, ⟨r.perLiquidity, Word.add_eq_ok.2 rfl, rfl⟩, htouch⟩
  · rw [if_neg ho]

structure Funded (r : RewardSlot) (now : Point) (x : Amount) (r' : RewardSlot) : Prop where
  frame : r' = { r with rate := r'.rate, lastUpdate := now, endsAt := r'.endsAt }
  rate : r'.rate.val * r.duration.val ≤ x.val * 2 ^ 64 + r.rate.val * (r.endsAt.val - now.val)
  rate_lt : x.val * 2 ^ 64 + r.rate.val * (r.endsAt.val - now.val) <
    r'.rate.val * r.duration.val + r.duration.val + 2 ^ 64
  endsAt : r'.endsAt.val = now.val + r.duration.val

def remaining (r : RewardSlot) (now : Point) : Nat :=
  r.rate.val * (r.endsAt.val - now.val) / 2 ^ 64

theorem leftover_eq_ok {r : RewardSlot} {now : Point} {x : Amount} :
    r.leftover now = .ok x ↔ r.remaining now = x.val := by
  unfold leftover remaining
  split
  · simp only [Word.mulShr, Word.kept_eq_ok, Word.mulShr?_eq_some]
    constructor
    · rintro ⟨a, ⟨-, ha⟩, hx⟩
      exact ha.trans hx
    · intro hx
      exact ⟨x.widen 128, ⟨by decide, hx⟩, rfl⟩
  · rename_i hnow
    have hend : r.endsAt.val - now.val = 0 := Nat.sub_eq_zero_of_le (Nat.not_lt.1 hnow)
    rw [hend, Nat.mul_zero, Nat.zero_div, Except.ok.injEq, ← Word.val_inj]
    rfl

theorem leftover_ok {r : RewardSlot} {now : Point} {x : Amount} (h : r.leftover now = .ok x) :
    x.val * 2 ^ 64 ≤ r.rate.val * (r.endsAt.val - now.val) := by
  rw [← leftover_eq_ok.1 h]
  exact Nat.div_mul_le_self _ _

theorem lt_leftover {r : RewardSlot} {now : Point} {x : Amount} (h : r.leftover now = .ok x) :
    r.rate.val * (r.endsAt.val - now.val) < (x.val + 1) * 2 ^ 64 := by
  rw [← leftover_eq_ok.1 h]
  exact (Nat.div_lt_iff_lt_mul (Nat.two_pow_pos 64)).1 (Nat.lt_succ_self _)

/-- How a campaign starts, to the unit: it streams `x` and what the last one left over. -/
structure Started (r : RewardSlot) (now : Point) (x left : Amount) (r' : RewardSlot) : Prop where
  leftover : r.leftover now = .ok left
  total_lt : left.val + x.val < 2 ^ 64
  duration_pos : 0 < r.duration.val
  rate : r'.rate.val = (left.val + x.val) * 2 ^ 64 / r.duration.val
  lastUpdate : r'.lastUpdate = now
  endsAt : r'.endsAt.val = now.val + r.duration.val
  duration : r'.duration = r.duration

theorem fund_started {r r' : RewardSlot} {now : Point} {x : Amount} (h : r.fund now x = .ok r') :
    r' = { r with rate := r'.rate, lastUpdate := now, endsAt := r'.endsAt } ∧
      ∃ left, r.Started now x left r' := by
  simp only [fund, bind_eq_ok, pure_eq_ok, Word.add_eq_ok, Word.shlDiv, Word.kept_eq_ok,
    Word.shlDiv?_eq_some, Word.val_widen] at h
  obtain ⟨left, hleft, total, ht, rate, ⟨q, ⟨hd, -, hq⟩, hrate⟩, ends, hends, rfl⟩ := h
  rw [Nat.add_comm] at ht
  refine ⟨rfl, left, hleft, ?_, Nat.pos_of_ne_zero hd, ?_, rfl, hends.symm, rfl⟩
  · rw [ht]
    exact total.isLt
  · rw [ht]
    exact hrate.symm.trans hq.symm

/-- The rate streams the whole amount but for less than one unit a campaign. -/
theorem Started.rate_bounds {r r' : RewardSlot} {now : Point} {x left : Amount}
    (h : r.Started now x left r') :
    r'.rate.val * r.duration.val ≤ (left.val + x.val) * 2 ^ 64 ∧
      (left.val + x.val) * 2 ^ 64 < r'.rate.val * r.duration.val + r.duration.val := by
  rw [h.rate]
  exact ⟨Nat.div_mul_le_self _ _, Nat.lt_div_mul_add h.duration_pos⟩

theorem fund_ok {r r' : RewardSlot} {now : Point} {x : Amount} (h : r.fund now x = .ok r') :
    r.Funded now x r' := by
  obtain ⟨hframe, left, hs⟩ := fund_started h
  obtain ⟨hle, hlt⟩ := hs.rate_bounds
  have hleft := leftover_ok hs.leftover
  have hleft' := lt_leftover hs.leftover
  exact ⟨hframe, by linarith, by linarith, hs.endsAt⟩

theorem idleReward_ok {r : RewardSlot} {x : Amount} (h : r.idleReward = .ok x) :
    x.val * 2 ^ 64 ≤ r.idleSeconds.val * r.rate.val := by
  simp only [idleReward, Word.mulShr, Word.kept_eq_ok, Word.mulShr?_eq_some, Word.val_widen] at h
  obtain ⟨a, ⟨-, ha⟩, hx⟩ := h
  rw [← hx, ← ha]
  exact Rounding.quotient_mul_down _ (Nat.two_pow_pos 64)

theorem lt_idleReward {r : RewardSlot} {x : Amount} (h : r.idleReward = .ok x) :
    r.idleSeconds.val * r.rate.val < (x.val + 1) * 2 ^ 64 := by
  simp only [idleReward, Word.mulShr, Word.kept_eq_ok, Word.mulShr?_eq_some, Word.val_widen] at h
  obtain ⟨a, ⟨-, ha⟩, hx⟩ := h
  rw [← hx, ← ha]
  exact Rounding.lt_quotient_down_mul _ (Nat.two_pow_pos 64)

/-- What a slot has to answer for with liquidity `L`, in units with 64 fractional bits: what was accrued since
the beginning, the idle seconds at the present rate, and the seconds to come. -/
def worth (r : RewardSlot) (L : Nat) : ℚ :=
  L * (r.perLiquidity.val / 2 ^ 128) +
    r.rate.val * (r.idleSeconds.val + r.endsAt.val - r.lastUpdate.val)

theorem Updated.worth_le {r r' : RewardSlot} {L : Nat} {now : Point} (h : r.Updated L now r') :
    r'.worth L ≤ r.worth L := by
  obtain ⟨passed, gain, idle, hu, hacc, hk, hle, -⟩ := h.streamed
  have hu : (r'.lastUpdate.val : ℚ) = r.lastUpdate.val + passed := by exact_mod_cast hu
  have hacc : (r'.perLiquidity.val : ℚ) = r.perLiquidity.val + gain := by exact_mod_cast hacc
  have hk : (r'.idleSeconds.val : ℚ) = r.idleSeconds.val + idle := by exact_mod_cast hk
  have hle : (L : ℚ) * gain + r.rate.val * idle * 2 ^ 128 ≤ r.rate.val * passed * 2 ^ 128 := by
    exact_mod_cast hle
  have hrate : r'.rate = r.rate := by rw [h.frame]
  have hends : r'.endsAt = r.endsAt := by rw [h.frame]
  have hgain : (L : ℚ) * (gain / 2 ^ 128) ≤ r.rate.val * passed - r.rate.val * idle := by
    rw [mul_div_assoc', div_le_iff₀ (by positivity)]
    linarith
  rw [worth, worth, hu, hacc, hk, hrate, hends, add_div]
  linarith

/-- The stream that was left goes into the new campaign; idle seconds are valued anew. -/
theorem Funded.worth_le {r r' : RewardSlot} {L : Nat} {now : Point} {x : Amount}
    (h : r.Funded now x r') (hu : r.lastUpdate.val = min now.val r.endsAt.val) :
    r'.worth L ≤ r.worth L + x.val * 2 ^ 64 +
      r.idleSeconds.val * ((r'.rate.val : ℚ) - r.rate.val) := by
  have hleft : r.endsAt.val - now.val = r.endsAt.val - r.lastUpdate.val := by omega
  have hrate := h.rate
  rw [hleft] at hrate
  have hrate : (r'.rate.val : ℚ) * r.duration.val ≤
      x.val * 2 ^ 64 + r.rate.val * (r.endsAt.val - r.lastUpdate.val) := by
    rw [← Nat.cast_sub (by omega)]
    exact_mod_cast hrate
  have hends : (r'.endsAt.val : ℚ) = now.val + r.duration.val := by exact_mod_cast h.endsAt
  have hnow : r'.lastUpdate = now := by rw [h.frame]
  have hk : r'.idleSeconds = r.idleSeconds := by rw [h.frame]
  have hacc : r'.perLiquidity = r.perLiquidity := by rw [h.frame]
  rw [worth, worth, hnow, hends, hk, hacc]
  linarith

theorem worth_idle {r : RewardSlot} {x : Amount} (h : r.idleReward = .ok x) (L : Nat) :
    worth { r with idleSeconds := 0 } L + x.val * 2 ^ 64 ≤ r.worth L := by
  have hx : (x.val : ℚ) * 2 ^ 64 ≤ r.idleSeconds.val * r.rate.val := by
    exact_mod_cast idleReward_ok h
  simp only [worth, Word.val_zero, Nat.cast_zero]
  linarith

/-! What rounding may take from the worth of a slot: less than a unit in the last place when it is brought to the
present, and one of the smallest amount for each quotient that is paid or funded. -/

theorem Updated.le_worth {r r' : RewardSlot} {L : Nat} {now : Point} (h : r.Updated L now r')
    (hL : L ≤ 2 ^ 128) : r.worth L ≤ r'.worth L + 1 := by
  obtain ⟨passed, gain, idle, hu, hacc, hk, -, hge⟩ := h.streamed
  have hu : (r'.lastUpdate.val : ℚ) = r.lastUpdate.val + passed := by exact_mod_cast hu
  have hacc : (r'.perLiquidity.val : ℚ) = r.perLiquidity.val + gain := by exact_mod_cast hacc
  have hk : (r'.idleSeconds.val : ℚ) = r.idleSeconds.val + idle := by exact_mod_cast hk
  have hge : (r.rate.val : ℚ) * passed * 2 ^ 128 ≤
      L * gain + r.rate.val * idle * 2 ^ 128 + 2 ^ 128 := by
    exact_mod_cast hge.trans (Nat.add_le_add_left hL _)
  have hrate : r'.rate = r.rate := by rw [h.frame]
  have hends : r'.endsAt = r.endsAt := by rw [h.frame]
  have hgain : (r.rate.val : ℚ) * passed - r.rate.val * idle - 1 ≤ L * (gain / 2 ^ 128) := by
    rw [mul_div_assoc', le_div_iff₀ (by positivity)]
    linarith
  rw [worth, worth, hu, hacc, hk, hrate, hends, add_div]
  linarith

theorem Funded.le_worth {r r' : RewardSlot} {L : Nat} {now : Point} {x : Amount}
    (h : r.Funded now x r') (hu : r.lastUpdate.val = min now.val r.endsAt.val) :
    r.worth L + x.val * 2 ^ 64 + r.idleSeconds.val * ((r'.rate.val : ℚ) - r.rate.val) ≤
      r'.worth L + 2 * 2 ^ 64 := by
  have hleft : r.endsAt.val - now.val = r.endsAt.val - r.lastUpdate.val := by omega
  have hduration : r.duration.val ≤ 2 ^ 64 := r.duration.isLt.le
  have hrate := h.rate_lt
  rw [hleft] at hrate
  have hrate : (x.val : ℚ) * 2 ^ 64 + r.rate.val * (r.endsAt.val - r.lastUpdate.val) ≤
      r'.rate.val * r.duration.val + 2 ^ 64 + 2 ^ 64 := by
    rw [← Nat.cast_sub (by omega)]
    exact_mod_cast (by omega : x.val * 2 ^ 64 + r.rate.val * (r.endsAt.val - r.lastUpdate.val) ≤
      r'.rate.val * r.duration.val + 2 ^ 64 + 2 ^ 64)
  have hends : (r'.endsAt.val : ℚ) = now.val + r.duration.val := by exact_mod_cast h.endsAt
  have hnow : r'.lastUpdate = now := by rw [h.frame]
  have hk : r'.idleSeconds = r.idleSeconds := by rw [h.frame]
  have hacc : r'.perLiquidity = r.perLiquidity := by rw [h.frame]
  rw [worth, worth, hnow, hends, hk, hacc]
  linarith

theorem le_worth_idle {r : RewardSlot} {x : Amount} (h : r.idleReward = .ok x) (L : Nat) :
    r.worth L ≤ worth { r with idleSeconds := 0 } L + x.val * 2 ^ 64 + 2 ^ 64 := by
  have hx : (r.idleSeconds.val : ℚ) * r.rate.val < (x.val + 1) * 2 ^ 64 := by
    exact_mod_cast lt_idleReward h
  simp only [worth, Word.val_zero, Nat.cast_zero]
  linarith

structure SameStream (r r' : RewardSlot) : Prop where
  frame : r' = { r with funder := r'.funder, duration := r'.duration }

theorem SameStream.worth_eq {r r' : RewardSlot} (h : r.SameStream r') (L : Nat) :
    r'.worth L = r.worth L := by
  rw [h.frame]
  rfl

structure SetUp (r r' : RewardSlot) : Prop where
  shut : r.opened = false
  frame : r' = { r with
    opened := true
    tokenFlag := r'.tokenFlag
    mint := r'.mint
    vault := r'.vault
    funder := r'.funder
    duration := r'.duration }

theorem SetUp.worth_eq {r r' : RewardSlot} (h : r.SetUp r') (L : Nat) :
    r'.worth L = r.worth L := by
  rw [h.frame]
  rfl

theorem SetUp.opened {r r' : RewardSlot} (h : r.SetUp r') : r'.opened = true := by
  rw [h.frame]

/-- An unopened slot has accrued nothing, and no slot is ahead of its campaign. -/
structure Kept (r : RewardSlot) : Prop where
  unopened : r.opened = false → r.perLiquidity = 0
  inTime : r.lastUpdate.val ≤ r.endsAt.val

theorem SameStream.kept {r r' : RewardSlot} (h : r.SameStream r') (hr : r.Kept) : r'.Kept := by
  rw [h.frame]
  exact ⟨hr.unopened, hr.inTime⟩

theorem SetUp.kept {r r' : RewardSlot} (h : r.SetUp r') (hr : r.Kept) : r'.Kept := by
  refine ⟨fun ho => ?_, ?_⟩
  · rw [h.opened] at ho
    cases ho
  · rw [h.frame]
    exact hr.inTime

theorem Updated.opened {r r' : RewardSlot} {L : Nat} {now : Point} (h : r.Updated L now r') :
    r'.opened = r.opened := by
  rw [h.frame]

theorem Updated.reached_of_opened {r r' : RewardSlot} {L : Nat} {now : Point}
    (h : r.Updated L now r') (ho : r'.opened = true) :
    r'.lastUpdate.val = min now.val r'.endsAt.val := by
  have hends : r'.endsAt = r.endsAt := by rw [h.frame]
  rw [hends]
  exact h.reached (h.opened ▸ ho)

theorem Updated.accrues {r r' : RewardSlot} {L : Nat} {now : Point} (h : r.Updated L now r') :
    r.perLiquidity.val ≤ r'.perLiquidity.val := by
  obtain ⟨_, gain, _, _, hacc, _⟩ := h.streamed
  omega

theorem Funded.kept {r r' : RewardSlot} {now : Point} {x : Amount} (h : r.Funded now x r')
    (ho : r.opened = true) : r'.Kept := by
  have ho' : r'.opened = r.opened := by rw [h.frame]
  have hnow : r'.lastUpdate = now := by rw [h.frame]
  have hends := h.endsAt
  refine ⟨fun hn => ?_, ?_⟩
  · rw [ho', ho] at hn
    cases hn
  · rw [hnow]
    omega

theorem Updated.kept {r r' : RewardSlot} {L : Nat} {now : Point} (h : r.Updated L now r')
    (hr : r.Kept) : r'.Kept := by
  cases ho : r.opened with
  | false =>
    rw [h.unopened ho]
    exact hr
  | true =>
    refine ⟨fun hn => ?_, ?_⟩
    · rw [h.opened, ho] at hn
      cases hn
    · have hends : r'.endsAt = r.endsAt := by rw [h.frame]
      rw [h.reached ho, hends]
      omega

structure SameToken (r r' : RewardSlot) : Prop where
  opened : r'.opened = r.opened
  mint : r'.mint = r.mint
  vault : r'.vault = r.vault

theorem SameToken.refl (r : RewardSlot) : r.SameToken r := ⟨rfl, rfl, rfl⟩

theorem SameToken.trans {r r' r'' : RewardSlot} (h : r.SameToken r') (h' : r'.SameToken r'') :
    r.SameToken r'' :=
  ⟨h'.opened.trans h.opened, h'.mint.trans h.mint, h'.vault.trans h.vault⟩

theorem SameToken.set {rewards : Slots RewardSlot} {j : SlotIndex} {s : RewardSlot}
    (h : (rewards.get j).SameToken s) (i : SlotIndex) :
    (rewards.get i).SameToken ((rewards.set j s).get i) :=
  Slots.get_set_of (P := fun i s => (rewards.get i).SameToken s) (fun _ => .refl _) h i

theorem SameStream.sameToken {r r' : RewardSlot} (h : r.SameStream r') : r.SameToken r' := by
  rw [h.frame]
  exact ⟨rfl, rfl, rfl⟩

theorem Updated.sameToken {r r' : RewardSlot} {L : Nat} {now : Point} (h : r.Updated L now r') :
    r.SameToken r' := by
  rw [h.frame]
  exact ⟨rfl, rfl, rfl⟩

theorem Funded.sameToken {r r' : RewardSlot} {now : Point} {x : Amount} (h : r.Funded now x r') :
    r.SameToken r' := by
  rw [h.frame]
  exact ⟨rfl, rfl, rfl⟩

def Silent (r : RewardSlot) : Prop := r.opened = false → r.rate = 0

theorem SameStream.silent {r r' : RewardSlot} (h : r.SameStream r') (hr : r.Silent) :
    r'.Silent := by
  rw [h.frame]
  exact hr

theorem SetUp.silent {r r' : RewardSlot} (h : r.SetUp r') : r'.Silent := by
  intro ho
  rw [h.opened] at ho
  cases ho

theorem Updated.silent {r r' : RewardSlot} {L : Nat} {now : Point} (h : r.Updated L now r')
    (hr : r.Silent) : r'.Silent := by
  intro ho
  have hrate : r'.rate = r.rate := by rw [h.frame]
  rw [hrate]
  exact hr (h.opened ▸ ho)

theorem Funded.silent {r r' : RewardSlot} {now : Point} {x : Amount} (h : r.Funded now x r')
    (ho : r.opened = true) : r'.Silent := by
  intro hn
  have ho' : r'.opened = r.opened := by rw [h.frame]
  rw [ho', ho] at hn
  cases hn

end RewardSlot

namespace Stake

structure Settled (s : Stake) (w : Nat) (r : RewardSlot) (s' : Stake) : Prop where
  frame : s' = { s with pending := s'.pending, checkpoint := s'.checkpoint }
  unopened : r.opened = false → s' = s
  checkpoint : r.opened = true → s'.checkpoint = r.perLiquidity
  pending : r.opened = true → s'.pending.val =
    s.pending.val + Accrual.earned w r.perLiquidity.val s.checkpoint.val 192
  reached : r.opened = true → w ≠ 0 → s.checkpoint.val ≤ r.perLiquidity.val

theorem settle_ok {s s' : Stake} {L : Liquidity} {r : RewardSlot} (h : s.settle L r = .ok s') :
    s.Settled L.val r s' := by
  unfold settle at h
  by_cases ho : r.opened = true
  · rw [if_pos ho] at h
    have hn : r.opened ≠ false := by simp [ho]
    by_cases hL : L = 0
    · simp only [hL, if_true, Except.ok.injEq] at h
      subst h
      refine ⟨rfl, fun h => absurd h hn, fun _ => rfl, fun _ => ?_, fun _ h0 => ?_⟩
      · simp [hL, Accrual.earned_zero]
      · rw [hL] at h0
        exact absurd rfl h0
    · simp only [hL, if_false, bind_eq_ok, pure_eq_ok, Accrual.gain_eq_ok, Word.narrow_eq_ok,
        Word.add_eq_ok] at h
      obtain ⟨g, ⟨hle, -, hg⟩, n, hn', p, hp, rfl⟩ := h
      refine ⟨rfl, fun h => absurd h hn, fun _ => rfl, fun _ => ?_, fun _ _ => hle⟩
      show p.val = _
      omega
  · rw [if_neg ho] at h
    cases h
    exact ⟨rfl, fun _ => rfl, fun h => absurd h ho, fun h => absurd h ho, fun h => absurd h ho⟩

/-- What a stake is still to be paid, less what its liquidity is counted with before its checkpoint. -/
def worth (s : Stake) (w : Nat) : ℚ :=
  s.pending.val * 2 ^ 64 - w * (s.checkpoint.val / 2 ^ 128)

/-- At an up to date checkpoint liquidity that comes or goes counts for the slot what it counts against the stake. -/
theorem worth_moved {r : RewardSlot} {s : Stake} {L L' w w' : Nat}
    (hc : s.checkpoint.val = r.perLiquidity.val) (hL : L' + w = L + w') :
    r.worth L' + s.worth w' = r.worth L + s.worth w := by
  have hL : (L' : ℚ) = L + w' - w := by
    rw [eq_sub_iff_add_eq]
    exact_mod_cast hL
  rw [RewardSlot.worth, RewardSlot.worth, worth, worth, hc, hL]
  ring

theorem worth_claimed (s : Stake) (c : Amount) (w : Nat) :
    worth { s with claimed := c, pending := 0 } w = s.worth w - s.pending.val * 2 ^ 64 := by
  simp only [worth, Word.val_zero]
  push_cast
  ring

theorem Settled.worth_le {s s' : Stake} {w : Nat} {r : RewardSlot} (h : s.Settled w r s') :
    s'.worth w ≤ s.worth w := by
  cases ho : r.opened with
  | false => rw [h.unopened ho]
  | true =>
    have hp : (s'.pending.val : ℚ) =
        s.pending.val + Accrual.earned w r.perLiquidity.val s.checkpoint.val 192 := by
      exact_mod_cast h.pending ho
    have he := Accrual.earned_le (n := 192) (h.reached ho)
    rw [worth, worth, hp, h.checkpoint ho]
    linarith

theorem Settled.le_worth {s s' : Stake} {w : Nat} {r : RewardSlot} (h : s.Settled w r s') :
    s.worth w ≤ s'.worth w + 2 ^ 64 := by
  cases ho : r.opened with
  | false =>
    rw [h.unopened ho]
    exact le_add_of_nonneg_right (by positivity)
  | true =>
    have hp : (s'.pending.val : ℚ) =
        s.pending.val + Accrual.earned w r.perLiquidity.val s.checkpoint.val 192 := by
      exact_mod_cast h.pending ho
    have he := Accrual.lt_earned_add_one (n := 192) (h.reached ho)
    rw [worth, worth, hp, h.checkpoint ho]
    linarith

theorem Settled.checkpoint_eq {s s' : Stake} {w : Nat} {r : RewardSlot} (h : s.Settled w r s')
    (hr : r.Kept) (hs : s.checkpoint.val ≤ r.perLiquidity.val) :
    s'.checkpoint.val = r.perLiquidity.val := by
  cases ho : r.opened with
  | false =>
    have h0 : r.perLiquidity.val = 0 := by rw [hr.unopened ho]; rfl
    rw [h.unopened ho]
    omega
  | true => rw [h.checkpoint ho]

end Stake

end RangePool
