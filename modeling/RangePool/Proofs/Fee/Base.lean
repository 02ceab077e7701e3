import RangePool.Fee.Base
import RangePool.Proofs.Fraction
/-!
The schedule of a base fee. Where the last step can be taken every step before it can, and none raises the fee, so
that the one check of the last step bounds the fee at every point. In particular a checked fee is never zero.
-/
set_option autoImplicit false

namespace RangePool.BaseFee

def NeverFree (f : BaseFee) : Prop :=
  ∀ now activation n, f.current now activation = .ok n → 0 < n.val

theorem limits_ok {f : BaseFee} (h : (do
      require (f.cliff.val ≤ Fee.maxNumerator) .highestFee
      let lowest ← f.lowest
      require (Fee.minNumerator ≤ lowest.val) .lowestFee) = .ok ()) :
    f.cliff.val ≤ Fee.maxNumerator ∧ ∃ low, f.lowest = .ok low ∧ Fee.minNumerator ≤ low.val := by
  simp only [bind_eq_ok] at h
  obtain ⟨_, hmax, low, hlow, hmin⟩ := h
  rw [require_eq_ok] at hmax hmin
  exact ⟨hmax, low, hlow, hmin⟩

theorem validate_ok {f : BaseFee} (h : f.validate = .ok ()) :
    (f.frequency = 0 → f.periods = 0) ∧ f.cliff.val ≤ Fee.maxNumerator ∧
      ∃ low, f.lowest = .ok low ∧ Fee.minNumerator ≤ low.val := by
  unfold validate at h
  split at h <;> dsimp only at h <;> split at h
  case h_1.isTrue | h_2.isTrue =>
    obtain ⟨_, hcomplete, h⟩ := bind_eq_ok.1 h
    obtain ⟨_, _, h⟩ := bind_eq_ok.1 h
    exact ⟨fun h0 => absurd h0 (require_eq_ok.1 hcomplete).1, limits_ok h⟩
  case h_3.isTrue =>
    obtain ⟨_, hcomplete, h⟩ := bind_eq_ok.1 h
    exact ⟨fun h0 => absurd h0 (require_eq_ok.1 hcomplete).1, limits_ok h⟩
  case h_1.isFalse hnone | h_2.isFalse hnone =>
    obtain ⟨_, _, h⟩ := bind_eq_ok.1 h
    exact ⟨fun _ => Decidable.not_not.1 fun h0 => hnone (.inr (.inl h0)), limits_ok h⟩
  case h_3.isFalse hnone =>
    exact ⟨fun _ => Decidable.not_not.1 fun h0 => hnone (.inr (.inl h0)), limits_ok h⟩

theorem stepsAt_le (f : BaseFee) (now activation : Point) :
    (f.stepsAt now activation).val ≤ f.periods.val := by
  unfold stepsAt
  split
  · rw [Word.val_min, Word.val_widen]
    omega
  · exact Nat.le_refl _

theorem after_le {f : BaseFee} {n m : Word 64} (h : f.after n = .ok m) : m.val ≤ f.cliff.val := by
  simp only [after, bind_eq_ok] at h
  obtain ⟨d, _, h⟩ := h
  cases d with
  | linear =>
    simp only [bind_eq_ok, Word.sub_eq_ok] at h
    obtain ⟨s, _, h⟩ := h
    omega
  | exponential =>
    simp only [bind_eq_ok, pure_eq_ok] at h
    obtain ⟨φ, _, rfl⟩ := h
    rw [Fraction.val_scale]
    refine Nat.div_le_of_le_mul ?_
    rw [Nat.mul_comm]
    exact Nat.mul_le_mul_right _ (Fraction.le_one _)

/-- Fewer steps can be taken whenever more can, and they leave no less. -/
theorem exists_after {f : BaseFee} {n m low : Word 64} (h : f.after m = .ok low) (hn : n.val ≤ m.val) :
    ∃ v, f.after n = .ok v ∧ low.val ≤ v.val := by
  simp only [after, bind_eq_ok] at h ⊢
  obtain ⟨d, hd, h⟩ := h
  cases d with
  | linear =>
    simp only [bind_eq_ok, Word.mul_eq_ok, Word.sub_eq_ok] at h
    obtain ⟨cut, hcut, hlow⟩ := h
    have hless : n.val * f.reduction.val ≤ cut.val := hcut ▸ Nat.mul_le_mul_right _ hn
    obtain ⟨v, hv, -⟩ := Word.exists_sub (a := f.cliff)
      (b := ⟨_, Nat.lt_of_le_of_lt hless cut.isLt⟩) (Nat.le_trans hless (by omega))
    refine ⟨v, ⟨.linear, hd, bind_eq_ok.2 ⟨_, Word.mul_eq_ok.2 rfl, hv⟩⟩, ?_⟩
    have hval := Word.sub_eq_ok.1 hv
    simp only at hval
    omega
  | exponential =>
    simp only [bind_eq_ok, pure_eq_ok] at h
    obtain ⟨φ, hφ, rfl⟩ := h
    refine ⟨(φ.pow n).scale f.cliff, ⟨.exponential, hd, bind_eq_ok.2 ⟨φ, hφ, rfl⟩⟩, ?_⟩
    exact Nat.div_le_div_right (Nat.mul_le_mul_left _ (φ.pow_le_pow hn))

theorem after_zero {f : BaseFee} {m low : Word 64} (h : f.after m = .ok low) :
    f.after 0 = .ok f.cliff := by
  simp only [after, bind_eq_ok] at h ⊢
  obtain ⟨d, hd, h⟩ := h
  refine ⟨d, hd, ?_⟩
  cases d with
  | linear =>
    refine bind_eq_ok.2 ⟨0, Word.mul_eq_ok.2 (Nat.zero_mul _), Word.sub_eq_ok.2 ?_⟩
    rw [Word.val_zero, Nat.zero_add]
  | exponential =>
    simp only [bind_eq_ok, pure_eq_ok] at h
    obtain ⟨φ, hφ, -⟩ := h
    refine bind_eq_ok.2 ⟨φ, hφ, ?_⟩
    rw [pure_eq_ok, Word.ext_iff, Fraction.val_scale, φ.pow_zero, Fraction.val_one,
      Nat.mul_div_cancel _ (Nat.two_pow_pos 64)]

/-! The steps taken at a point, and the fee there. -/

section
variable {f : BaseFee} {low : Word 64} {now later activation : Point}

theorem stepsAt_self (f : BaseFee) (activation : Point) : f.stepsAt activation activation = 0 := by
  rw [stepsAt, if_pos (Word.le_iff.2 (Nat.le_refl _)), Word.ext_iff, Word.val_min]
  simp

theorem stepsAt_mono (hact : activation ≤ now) (hle : now ≤ later) :
    (f.stepsAt now activation).val ≤ (f.stepsAt later activation).val := by
  rw [Word.le_iff] at hact hle
  have hpast : (now.val - activation.val) / f.frequency.val ≤
      (later.val - activation.val) / f.frequency.val := Nat.div_le_div_right (by omega)
  rw [stepsAt, stepsAt, if_pos (Word.le_iff.2 hact), if_pos (Word.le_iff.2 (Nat.le_trans hact hle)),
    Word.val_min, Word.val_min]
  exact min_le_min (Nat.le_refl _) hpast

theorem stepsAt_end (hfreq : f.frequency ≠ 0)
    (h : now < activation ∨ activation.val + f.periods.val * f.frequency.val ≤ now.val) :
    f.stepsAt now activation = f.periods.widen 64 := by
  unfold stepsAt
  split
  · rename_i hact
    have hend := h.resolve_left (Nat.not_lt.2 hact)
    have hpos : 0 < f.frequency.val := Nat.pos_of_ne_zero fun h0 => hfreq (Word.ext h0)
    have hall : f.periods.val ≤ (now.val - activation.val) / f.frequency.val :=
      (Nat.le_div_iff_mul_le hpos).2 (by omega)
    rw [Word.ext_iff, Word.val_min]
    exact Nat.min_eq_left hall
  · rfl

theorem exists_current (h : f.lowest = .ok low) (now activation : Point) :
    ∃ v, f.current now activation = .ok v ∧ low.val ≤ v.val ∧ v.val ≤ f.cliff.val := by
  unfold current
  split
  · exact ⟨f.cliff, rfl, after_le h, Nat.le_refl _⟩
  · obtain ⟨v, hv, hle⟩ := exists_after h (f.stepsAt_le now activation)
    exact ⟨v, hv, hle, after_le hv⟩

theorem current_self (h : f.lowest = .ok low) (activation : Point) :
    f.current activation activation = .ok f.cliff := by
  unfold current
  split
  · rfl
  · rw [stepsAt_self]
    exact after_zero h

theorem current_le {v w : Word 64} (hact : activation ≤ now) (hle : now ≤ later)
    (hv : f.current now activation = .ok v) (hw : f.current later activation = .ok w) :
    w.val ≤ v.val := by
  unfold current at hv hw
  split at hv
  · rw [if_pos ‹_›] at hw
    exact Nat.le_of_eq (congrArg Word.val (Except.ok.inj (hw.symm.trans hv)))
  · rw [if_neg ‹_›] at hw
    obtain ⟨v', hv', hstep⟩ := exists_after hw (stepsAt_mono hact hle)
    exact eq_of_ok hv' hv ▸ hstep

/-- Before the activation and after the last step the fee is the lowest. Without a schedule that is the cliff. -/
theorem current_end (hnone : f.frequency = 0 → f.periods = 0) (h : f.lowest = .ok low)
    (hend : now < activation ∨ activation.val + f.periods.val * f.frequency.val ≤ now.val) :
    f.current now activation = .ok low := by
  unfold current
  split
  · rename_i h0
    rw [lowest, hnone h0] at h
    exact (after_zero h).symm.trans h
  · rw [stepsAt_end ‹_› hend]
    exact h

end

theorem neverFree_of_validate {f : BaseFee} (h : f.validate = .ok ()) : f.NeverFree := by
  obtain ⟨-, -, low, hlow, hmin⟩ := validate_ok h
  intro now activation n hn
  obtain ⟨v, hv, hle, -⟩ := exists_current hlow now activation
  obtain rfl : v = n := eq_of_ok hv hn
  exact Nat.lt_of_lt_of_le (by decide : 0 < Fee.minNumerator) (Nat.le_trans hmin hle)

/-- A checked fee is there at every point, between its lowest and its cliff. It starts at the cliff, never rises after
that, and is the lowest before the activation and once all steps are taken. -/
theorem schedule_descends {f : BaseFee} (h : f.validate = .ok ()) :
    f.cliff.val ≤ Fee.maxNumerator ∧ ∃ low, f.lowest = .ok low ∧ Fee.minNumerator ≤ low.val ∧
      ∃ fee : Point → Point → Word 64, ∀ activation,
        (∀ now, f.current now activation = .ok (fee now activation) ∧ low ≤ fee now activation ∧
          fee now activation ≤ f.cliff) ∧
        (∀ now later, activation ≤ now → now ≤ later → fee later activation ≤ fee now activation) ∧
        fee activation activation = f.cliff ∧
        ∀ now, now < activation ∨ activation.val + f.periods.val * f.frequency.val ≤ now.val →
          fee now activation = low := by
  obtain ⟨hnone, hmax, low, hlow, hmin⟩ := validate_ok h
  choose fee hfee hge hle using exists_current hlow
  refine ⟨hmax, low, hlow, hmin, fee, fun activation => ⟨?_, ?_, ?_, ?_⟩⟩
  · exact fun now => ⟨hfee now activation, hge now activation, hle now activation⟩
  · exact fun now later hact hlater => current_le hact hlater (hfee now activation) (hfee later activation)
  · exact eq_of_ok (hfee activation activation) (current_self hlow activation)
  · exact fun now hend => eq_of_ok (hfee now activation) (current_end hnone hlow hend)

/-- Ten percent, less three hundredths of itself for each of ninety periods of fifteen points. -/
def fadingFee : BaseFee where
  cliff := .lit 64 100000000
  decay := .of .exponential
  periods := .lit 16 90
  frequency := .lit 64 15
  reduction := .lit 64 300

theorem schedule_descends_fading : fadingFee.validate = .ok () ∧
    fadingFee.lowest = .ok (.lit 64 6448461) ∧
    fadingFee.current (.lit 64 5225) (.lit 64 5000) = .ok (.lit 64 63325118) ∧
    fadingFee.current (.lit 64 5240) (.lit 64 5000) = .ok (.lit 64 61425365) ∧
    ∃ fee : Point → Word 64, (∀ now, fadingFee.current now (.lit 64 5000) = .ok (fee now)) ∧
      (∀ now later, .lit 64 5000 ≤ now → now ≤ later → fee later ≤ fee now) ∧
      (fee (.lit 64 5000)).val = 100000000 ∧
      ∀ now, now < .lit 64 5000 ∨ 6350 ≤ now.val → (fee now).val = 6448461 := by
  have h : fadingFee.validate = .ok () := by decide +kernel
  have hlow : fadingFee.lowest = .ok (.lit 64 6448461) := toOption_eq_some.1 (by decide +kernel)
  refine ⟨h, hlow, toOption_eq_some.1 (by decide +kernel), toOption_eq_some.1 (by decide +kernel), ?_⟩
  obtain ⟨-, low, hlow', -, fee, hfee⟩ := schedule_descends h
  obtain rfl : low = .lit 64 6448461 := eq_of_ok hlow' hlow
  obtain ⟨hthere, hfalls, hstart, hend⟩ := hfee (.lit 64 5000)
  exact ⟨fun now => fee now (.lit 64 5000), fun now => (hthere now).1, hfalls, congrArg Word.val hstart,
    fun now hnow => congrArg Word.val (hend now hnow)⟩

end RangePool.BaseFee
