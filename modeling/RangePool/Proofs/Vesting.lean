import RangePool.Vesting
/-!
What a release schedule promises, as exact numbers: nothing before the cliff, then a part with each period until
all of it is free. Its checked operations compute these numbers or fail.
-/
set_option autoImplicit false

namespace RangePool

namespace Vesting

def whole (v : Vesting) : Nat := v.atCliff.val + v.perPeriod.val * v.periods.val

def passed (v : Vesting) (now : Point) : Nat :=
  min ((now.val - v.cliff.val) / v.frequency.val) v.periods.val

def allowed (v : Vesting) (now : Point) : Nat :=
  if now < v.cliff then 0 else v.atCliff.val + v.perPeriod.val * v.passed now

def outstanding (v : Vesting) : Nat := v.whole - v.released.val

section
variable {v : Vesting} {L : Liquidity} {now later : Point}

theorem total_eq_ok : v.total = .ok L ↔ v.whole = L.val := by
  simp only [total, bind_eq_ok, Word.add_eq_ok, Word.mul_eq_ok, Word.val_widen, whole]
  constructor
  · rintro ⟨a, ha, h⟩
    omega
  · intro h
    have := L.isLt
    exact ⟨⟨v.perPeriod.val * v.periods.val, by omega⟩, rfl, h⟩

theorem passed_of_frequency_zero (h : v.frequency.val = 0) : v.passed now = 0 := by
  simp [passed, h]

theorem unlockedAt_eq_ok : v.unlockedAt now = .ok L ↔ v.allowed now = L.val := by
  unfold unlockedAt allowed
  by_cases hc : now < v.cliff
  · rw [if_pos hc, if_pos hc, Except.ok.injEq, Word.ext_iff]
    rfl
  · rw [if_neg hc, if_neg hc]
    by_cases hf : v.frequency = 0
    · rw [if_pos hf, passed_of_frequency_zero (by rw [hf]; rfl), Nat.mul_zero, Nat.add_zero,
        Except.ok.injEq, Word.ext_iff]
    · rw [if_neg hf]
      simp only [bind_eq_ok, Word.fit_eq_ok, Word.add_eq_ok]
      constructor
      · rintro ⟨a, ha, h⟩
        rw [passed, ha, h]
      · intro h
        have := L.isLt
        exact ⟨⟨v.perPeriod.val * v.passed now, by omega⟩, rfl, h⟩

theorem allowed_le_whole : v.allowed now ≤ v.whole := by
  unfold allowed whole
  split
  · exact Nat.zero_le _
  · exact Nat.add_le_add_left (Nat.mul_le_mul_left _ (Nat.min_le_right _ _)) _

/-- Releasing moves a schedule from one amount released to the next and leaves its terms alone. -/
structure SameSchedule (v w : Vesting) : Prop where
  frame : w = { v with released := w.released }

theorem SameSchedule.whole {w : Vesting} (h : v.SameSchedule w) : w.whole = v.whole := by
  rw [h.frame]
  rfl

theorem SameSchedule.allowed {w : Vesting} (h : v.SameSchedule w) (now : Point) :
    w.allowed now = v.allowed now := by
  rw [h.frame]
  rfl

end

end Vesting

namespace LockTerms

variable {t : LockTerms} {now last : Point}

theorem validate_ok (h : t.validate now last = .ok ()) :
    (t.frequency.val = 0 → t.periods.val = 0) ∧ ∃ T, t.total = .ok T ∧ T ≠ 0 := by
  simp only [validate, bind_eq_ok] at h
  obtain ⟨_, _, h⟩ := h
  split at h
  · simp only [bind_eq_ok] at h
    obtain ⟨_, hf, _, _, T, hT, h0⟩ := h
    rw [require_eq_ok] at hf h0
    exact ⟨fun hz => absurd (Word.ext hz) hf.1, T, hT, h0⟩
  · rename_i hp
    simp only [bind_eq_ok] at h
    obtain ⟨_, _, T, hT, h0⟩ := h
    rw [require_eq_ok] at h0
    refine ⟨fun _ => ?_, T, hT, h0⟩
    rw [Classical.not_not.1 hp]
    rfl

end LockTerms

end RangePool
