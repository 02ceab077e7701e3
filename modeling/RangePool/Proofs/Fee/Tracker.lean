import RangePool.Fee.Shares
/-!
The volatility tracker never holds a trade up. Between any two prices of the widest range the bins can be counted,
and whatever a tracker remembers stays below the most that it may count.
-/
set_option autoImplicit false

namespace RangePool

namespace Curve

structure Admits (P : Price) : Prop where
  low : minPrice ≤ P
  high : P ≤ maxPrice

end Curve

theorem TrackerTerms.validate_ok {t : TrackerTerms} (h : t.validate = .ok ()) :
    t.binStep.val = 1 ∧ t.wideBinStep.val = 1844674407370955 ∧ t.reduction.val ≤ Fee.basisPoints := by
  simp only [validate, bind_eq_ok] at h
  obtain ⟨_, hbin, _, hstep, _, _, hreduction⟩ := h
  rw [require_eq_ok] at hbin hstep hreduction
  exact ⟨hbin, hstep, hreduction⟩

namespace Tracker

/-- What an enabled tracker relies on and never loses. -/
structure Sound (t : Tracker) : Prop where
  step : t.wideBinStep.val = 1844674407370955
  reduction : t.reduction.val ≤ Fee.basisPoints
  accumulator : t.accumulator.val ≤ t.maxAccumulator.val
  reference : t.reference.val ≤ t.maxAccumulator.val
  price : Curve.Admits t.priceReference

/-- The widest range is so narrow that the ratio of its ends still has 64 bits before the point. -/
theorem exists_ratio {P Q : Price} (hP : Curve.Admits P) (hQ : Curve.Admits Q) (hle : P ≤ Q) :
    ∃ r : Word 128, Word.shlDiv 128 .down Q P 64 = .ok r ∧ Nat.pow 2 64 ≤ r.val := by
  rw [Word.le_iff] at hle
  have hlow : 4295048016 ≤ P.val := hP.low
  have hhigh : Q.val ≤ 79226673521066979257578248091 := hQ.high
  have hpos : 0 < P.val := by omega
  have hfits : Rounding.down.quotient (Q.val * Nat.pow 2 64) P.val < Nat.pow 2 128 := by
    refine (Nat.div_lt_iff_lt_mul hpos).2 ?_
    calc Q.val * Nat.pow 2 64 ≤ 79226673521066979257578248091 * Nat.pow 2 64 :=
          Nat.mul_le_mul_right _ hhigh
      _ < Nat.pow 2 128 * 4295048016 := by decide
      _ ≤ Nat.pow 2 128 * P.val := Nat.mul_le_mul_left _ hlow
  refine ⟨⟨_, hfits⟩, ?_, ?_⟩
  · rw [Word.shlDiv, Word.kept_eq_ok]
    exact ⟨⟨_, hfits⟩, Word.shlDiv?_eq_some.2 ⟨by omega, by decide, rfl⟩, rfl⟩
  · refine (Rounding.le_quotient_down hpos).2 ?_
    rw [Nat.mul_comm]
    exact Nat.mul_le_mul_right _ hle

theorem exists_bins {step : Word 128} (hstep : step.val = 1844674407370955) {P Q : Price}
    (hP : Curve.Admits P) (hQ : Curve.Admits Q) :
    ∃ n, bins step P Q = .ok n ∧ n.val < Nat.pow 2 79 := by
  obtain ⟨r, hr, hone⟩ : ∃ r : Word 128, Word.shlDiv 128 .down (max P Q) (min P Q) 64 = .ok r ∧
      Nat.pow 2 64 ≤ r.val := by
    by_cases hle : P ≤ Q
    · rw [show max P Q = Q from if_pos hle, show min P Q = P from if_pos hle]
      exact exists_ratio hP hQ hle
    · rw [show max P Q = P from if_neg hle, show min P Q = Q from if_neg hle]
      exact exists_ratio hQ hP (Nat.le_of_not_le hle)
  obtain ⟨x, hx, hxr⟩ := Word.exists_sub (b := .lit 128 (Nat.pow 2 64)) hone
  have hlt : x.val < Nat.pow 2 128 := x.isLt
  have hcount : x.val / 1844674407370955 < Nat.pow 2 78 := by
    refine (Nat.div_lt_iff_lt_mul (by decide)).2 (Nat.lt_of_lt_of_le hlt (by decide))
  have hdouble : x.val / 1844674407370955 * 2 < Nat.pow 2 79 := by
    have : Nat.pow 2 79 = Nat.pow 2 78 * 2 := rfl
    omega
  refine ⟨⟨x.val / 1844674407370955 * 2, Nat.lt_trans hdouble (by decide)⟩, ?_, hdouble⟩
  simp only [bins, bind_eq_ok]
  exact ⟨r, hr, x, hx, x.divNat 1844674407370955,
    Word.div_eq_ok.2 ⟨by omega, by rw [hstep]; rfl⟩, Word.mul_eq_ok.2 rfl⟩

theorem exists_accumulate {t : Tracker} (h : t.Sound) {P : Price} (hP : Curve.Admits P) :
    ∃ t', t.accumulate P = .ok t' := by
  obtain ⟨n, hn, hlt⟩ := exists_bins h.step h.price hP
  have hmax : t.maxAccumulator.val < Nat.pow 2 32 := t.maxAccumulator.isLt
  have href := h.reference
  have h79 : Nat.pow 2 79 = 604462909807314587353088 := rfl
  have h32 : Nat.pow 2 32 = 4294967296 := rfl
  have h128 : Nat.pow 2 128 = 340282366920938463463374607431768211456 := rfl
  have hgrown : n.val * 10000 < Nat.pow 2 128 := by omega
  have htotal : t.reference.val + n.val * 10000 < Nat.pow 2 128 := by omega
  simp only [accumulate, bind_eq_ok, pure_eq_ok]
  exact ⟨_, n, hn, ⟨_, hgrown⟩, Word.mul_eq_ok.2 rfl, ⟨_, htotal⟩, Word.add_eq_ok.2 rfl, rfl⟩

theorem Sound.accumulate {t t' : Tracker} (h : t.Sound) {P : Price} (ht : t.accumulate P = .ok t') :
    t'.Sound := by
  simp only [Tracker.accumulate, bind_eq_ok, pure_eq_ok] at ht
  obtain ⟨_, _, _, _, total, _, rfl⟩ := ht
  refine ⟨h.step, h.reduction, ?_, h.reference, h.price⟩
  show (min total (t.maxAccumulator.widen 128)).val ≤ t.maxAccumulator.val
  rw [Word.val_min, Word.val_widen]
  exact Nat.min_le_right _ _

theorem Sound.rebase {t t' : Tracker} (h : t.Sound) {P : Price} (hP : Curve.Admits P) {now : Point}
    (ht : t.rebase P now = .ok t') : t'.Sound := by
  simp only [Tracker.rebase, bind_eq_ok] at ht
  obtain ⟨elapsed, _, ht⟩ := ht
  split at ht
  · cases ht
    exact h
  split at ht
  · simp only [bind_eq_ok, pure_eq_ok, Word.mul_eq_ok, Word.val_widen] at ht
    obtain ⟨part, hpart, rfl⟩ := ht
    refine ⟨h.step, h.reduction, h.accumulator, ?_, hP⟩
    show part.val / Fee.basisPoints ≤ t.maxAccumulator.val
    rw [← hpart]
    refine Nat.div_le_of_le_mul ?_
    rw [Nat.mul_comm]
    exact Nat.mul_le_mul h.reduction h.accumulator
  · cases ht
    exact ⟨h.step, h.reduction, h.accumulator, Nat.zero_le _, hP⟩

theorem Sound.of_terms {t : TrackerTerms} (h : t.validate = .ok ()) {P : Price}
    (hP : Curve.Admits P) : Sound { t.tracker with priceReference := P } := by
  obtain ⟨-, hstep, hreduction⟩ := TrackerTerms.validate_ok h
  exact ⟨hstep, hreduction, Nat.zero_le _, Nat.zero_le _, hP⟩

/-- What was moved in bins of one basis point has 32 bits, so that its square times the control has 96. -/
theorem Sound.exists_fee {t : Tracker} (h : t.Sound) (hbin : t.binStep.val = 1) :
    ∃ v, t.fee = .ok v := by
  unfold fee
  split
  · have hcontrol : t.control.val < 2 ^ 32 := t.control.isLt
    have hmax : t.maxAccumulator.val < 2 ^ 32 := t.maxAccumulator.isLt
    have hmoved : t.accumulator.val < 2 ^ 32 := Nat.lt_of_le_of_lt h.accumulator hmax
    have hsquared : t.accumulator.val * t.accumulator.val < 2 ^ 64 :=
      Nat.lt_of_lt_of_eq (Nat.mul_lt_mul'' hmoved hmoved) (Nat.pow_add 2 32 32).symm
    have hscaled : t.accumulator.val * t.accumulator.val * t.control.val < 2 ^ 96 :=
      Nat.lt_of_lt_of_eq (Nat.mul_lt_mul'' hsquared hcontrol) (Nat.pow_add 2 64 32).symm
    have hraised : t.accumulator.val * t.accumulator.val * t.control.val + 99999999999 < Nat.pow 2 128 := by
      have h128 : Nat.pow 2 128 = 2 ^ 96 * 2 ^ 32 := rfl
      omega
    simp only [bind_eq_ok, pure_eq_ok]
    refine ⟨_, t.accumulator, ?_, ⟨_, Nat.lt_trans hsquared (by decide)⟩, ?_,
      ⟨_, Nat.lt_trans hscaled (by decide)⟩, ?_, ⟨_, hraised⟩, ?_, rfl⟩
    · rw [Word.mul_eq_ok, Word.val_widen, hbin, Nat.mul_one]
    · exact Word.mul_eq_ok.2 rfl
    · exact Word.mul_eq_ok.2 rfl
    · exact Word.add_eq_ok.2 rfl
  · exact ⟨0, rfl⟩

theorem Sound.exists_rebase {t : Tracker} (h : t.Sound) {now : Point} (hlast : t.lastUpdate ≤ now)
    (P : Price) : ∃ t', t.rebase P now = .ok t' := by
  obtain ⟨elapsed, helapsed, -⟩ := Word.exists_sub hlast
  simp only [Tracker.rebase, helapsed, bind_eq_ok, Except.ok.injEq, exists_eq_left']
  split
  · exact ⟨t, rfl⟩
  split
  · have hpart : t.accumulator.val * t.reduction.val < Nat.pow 2 128 := by
      have hmax : t.maxAccumulator.val < Nat.pow 2 32 := t.maxAccumulator.isLt
      have hmoved : t.accumulator.val < Nat.pow 2 32 := Nat.lt_of_le_of_lt h.accumulator hmax
      exact Nat.lt_trans (Nat.mul_lt_mul'' hmoved (Nat.lt_of_le_of_lt h.reduction (by decide :
        Fee.basisPoints < Nat.pow 2 14))) (by decide)
    exact ⟨_, bind_eq_ok.2 ⟨⟨_, hpart⟩, Word.mul_eq_ok.2 rfl, rfl⟩⟩
  · exact ⟨_, rfl⟩

end Tracker

end RangePool
