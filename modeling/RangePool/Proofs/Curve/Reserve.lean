import Mathlib.Algebra.Order.Floor.Semiring
import Mathlib.Data.Nat.Cast.Order.Field
import Mathlib.Data.Rat.Cast.Order
import Mathlib.Tactic.FieldSimp
import Mathlib.Tactic.Linarith
import Mathlib.Tactic.Positivity
import Mathlib.Tactic.Ring
import RangePool.Curve
/-!
The exact reserves behind a price. They are never stored; amounts that move are these reserves rounded, up for
what the pool receives and down for what it pays. The main statement: a step along the curve never takes more
out of a reserve than the reserve loses, nor adds more to it than comes in.
-/
set_option autoImplicit false

namespace RangePool

namespace Rounding

def Sides : Rounding → Nat → ℚ → Prop
  | .up, n, q => q ≤ n
  | .down, n, q => n ≤ q

theorem sides_quotient (r : Rounding) (n : Nat) {d : Nat} (hd : 0 < d) :
    r.Sides (r.quotient n d) (n / d) := by
  cases r with
  | up =>
    have h : (n : ℚ) ≤ (up.quotient n d * d : Nat) := by exact_mod_cast quotient_mul_up n hd
    show (n : ℚ) / d ≤ _
    rw [div_le_iff₀ (by exact_mod_cast hd)]
    exact_mod_cast h
  | down => exact Nat.cast_div_le

end Rounding

namespace Curve

theorem wideA_eq_ok {r : Rounding} {lower upper : Price} {L : Liquidity} {w : Word 256} :
    wideA r lower upper L = .ok w ↔ lower.val ≤ upper.val ∧ 0 < lower.val ∧
      r.quotient (L.val * (upper.val - lower.val)) (lower.val * upper.val) = w.val := by
  simp only [wideA, bind_eq_ok, Word.sub_eq_ok]
  constructor
  · rintro ⟨s, hs, h⟩
    split at h
    · cases h
    · rename_i h0
      cases h
      have : upper.val - lower.val = s.val := by omega
      exact ⟨by omega, Nat.pos_of_ne_zero fun hl => h0 (by rw [hl, Nat.zero_mul]), by rw [this]⟩
  · rintro ⟨hle, hl, hq⟩
    refine ⟨⟨upper.val - lower.val, Nat.lt_of_le_of_lt (Nat.sub_le _ _) upper.isLt⟩, ?_, ?_⟩
    · show upper.val = lower.val + (upper.val - lower.val)
      omega
    · have : lower.val * upper.val ≠ 0 := Nat.mul_ne_zero (by omega) (by omega)
      rw [if_neg this, Except.ok.injEq, Word.ext_iff]
      exact hq

theorem wideB_eq_ok {r : Rounding} {lower upper : Price} {L : Liquidity} {w : Word 256} :
    wideB r lower upper L = .ok w ↔ lower.val ≤ upper.val ∧
      r.quotient (L.val * (upper.val - lower.val)) (Nat.pow 2 128) = w.val := by
  simp only [wideB, bind_eq_ok, Word.sub_eq_ok, pure_eq_ok, Word.ext_iff]
  constructor
  · rintro ⟨s, hs, h⟩
    have : upper.val - lower.val = s.val := by omega
    exact ⟨by omega, by rw [this]; exact h⟩
  · rintro ⟨hle, hq⟩
    refine ⟨⟨upper.val - lower.val, Nat.lt_of_le_of_lt (Nat.sub_le _ _) upper.isLt⟩, ?_, hq⟩
    show upper.val = lower.val + (upper.val - lower.val)
    omega

def spanA (lower upper : Price) : ℚ := 1 / lower.val - 1 / upper.val
def spanB (lower upper : Price) : ℚ := (upper.val - lower.val) / 2 ^ 128

theorem spanA_pos_iff {P Q : Price} (hP : 0 < P.val) (hQ : 0 < Q.val) :
    0 < spanA P Q ↔ P.val < Q.val := by
  have hP : (0 : ℚ) < P.val := by exact_mod_cast hP
  have hQ : (0 : ℚ) < Q.val := by exact_mod_cast hQ
  rw [spanA, sub_pos, one_div_lt_one_div hQ hP]
  exact_mod_cast Iff.rfl

theorem spanB_pos_iff {P Q : Price} : 0 < spanB P Q ↔ P.val < Q.val := by
  rw [spanB, div_pos_iff_of_pos_right (by positivity), sub_pos]
  exact_mod_cast Iff.rfl

theorem mul_spanA (n : Nat) {lower upper : Price} (hl : 0 < lower.val)
    (hle : lower.val ≤ upper.val) :
    n * spanA lower upper = (n * (upper.val - lower.val) : Nat) / (lower.val * upper.val : Nat) := by
  have hl' : (lower.val : ℚ) ≠ 0 := by exact_mod_cast hl.ne'
  have hu' : (upper.val : ℚ) ≠ 0 := by exact_mod_cast (by omega : upper.val ≠ 0)
  rw [spanA]
  push_cast [Nat.cast_sub hle]
  field_simp

theorem mul_spanB (n : Nat) {lower upper : Price} (hle : lower.val ≤ upper.val) :
    n * spanB lower upper = (n * (upper.val - lower.val) : Nat) / (2 ^ 128 : Nat) := by
  rw [spanB]
  push_cast [Nat.cast_sub hle]
  ring

section
variable {r : Rounding} {lower upper : Price} {L : Liquidity} {x : Amount}

theorem deltaA_ok (h : deltaA r lower upper L = .ok x) :
    lower.val ≤ upper.val ∧ 0 < lower.val ∧ r.Sides x.val (L.val * spanA lower upper) := by
  simp only [deltaA, toAmount, bind_eq_ok, Word.fit_eq_ok, wideA_eq_ok] at h
  obtain ⟨w, ⟨hle, hl, hw⟩, hx⟩ := h
  refine ⟨hle, hl, ?_⟩
  rw [mul_spanA L.val hl hle, ← hx, ← hw]
  exact r.sides_quotient _ (Nat.mul_pos hl (by omega))

theorem deltaB_ok (h : deltaB r lower upper L = .ok x) :
    lower.val ≤ upper.val ∧ r.Sides x.val (L.val * spanB lower upper) := by
  simp only [deltaB, toAmount, bind_eq_ok, Word.fit_eq_ok, wideB_eq_ok] at h
  obtain ⟨w, ⟨hle, hw⟩, hx⟩ := h
  refine ⟨hle, ?_⟩
  rw [mul_spanB L.val hle, ← hx, ← hw]
  exact r.sides_quotient _ (Nat.two_pow_pos 128)

end

theorem nextPrice_ok {exact : Exact} {dir : Direction} {P next : Price} {L : Liquidity} {x : Amount}
    (h : nextPrice exact dir P L x = .ok next) :
    0 < P.val ∧ 0 < L.val ∧ (match exact, dir with
      | .input, .aToB => priceFromA .enters P L x
      | .input, .bToA => priceFromB .enters P L x
      | .output, .aToB => priceFromB .leaves P L x
      | .output, .bToA => priceFromA .leaves P L x) = .ok next := by
  unfold nextPrice at h
  by_cases hP : P = 0
  · simp [hP] at h
  · by_cases hL : L = 0
    · simp [hP, hL] at h
    · rw [if_neg hP, if_neg hL] at h
      exact ⟨Nat.pos_of_ne_zero fun h0 => hP (Word.ext h0),
        Nat.pos_of_ne_zero fun h0 => hL (Word.ext h0), h⟩

/-! The next price is rounded towards the present one where the trader gives the amount to the pool, and away
from it where the trader takes it. -/

section
variable {P next : Price} {L : Liquidity} {x : Amount}

theorem priceFromA_enters_ok (hP : 0 < P.val) (hL : 0 < L.val)
    (h : priceFromA .enters P L x = .ok next) :
    0 < next.val ∧ L.val * spanA next P ≤ x.val := by
  unfold priceFromA at h
  split at h
  · rename_i hx
    cases h
    refine ⟨hP, ?_⟩
    rw [spanA, hx]
    simp
  · simp only [bind_eq_ok, Except.ok.injEq, exists_eq_left'] at h
    have hd : 0 < L.val + x.val * P.val := by omega
    rw [if_neg (by omega), Word.fit_eq_ok] at h
    have hle := Rounding.quotient_mul_up (L.val * P.val) hd
    rw [h] at hle
    have hn : 0 < next.val := by
      rcases Nat.eq_zero_or_pos next.val with h0 | h0
      · rw [h0, Nat.zero_mul] at hle
        have := Nat.mul_pos hL hP
        omega
      · exact h0
    refine ⟨hn, ?_⟩
    have hP' : (0 : ℚ) < P.val := by exact_mod_cast hP
    have hn' : (0 : ℚ) < next.val := by exact_mod_cast hn
    have hle' : (L.val : ℚ) * P.val ≤ next.val * (L.val + x.val * P.val) := by exact_mod_cast hle
    rw [spanA, div_sub_div _ _ hn'.ne' hP'.ne', mul_div_assoc', div_le_iff₀ (by positivity)]
    linarith

theorem priceFromA_leaves_ok (hP : 0 < P.val) (hL : 0 < L.val)
    (h : priceFromA .leaves P L x = .ok next) :
    0 < next.val ∧ (x.val : ℚ) ≤ L.val * spanA P next := by
  unfold priceFromA at h
  split at h
  · rename_i hx
    cases h
    refine ⟨hP, ?_⟩
    rw [spanA, hx]
    simp
  · simp only at h
    split at h
    · rename_i hle
      simp only [bind_eq_ok, Except.ok.injEq, exists_eq_left'] at h
      split at h
      · cases h
      · rename_i h0
        rw [Word.fit_eq_ok] at h
        -- rounded up, the price is above zero and does not pass the one that frees `x` exactly
        have hup := Rounding.quotient_mul_up (L.val * P.val) (Nat.pos_of_ne_zero h0)
        rw [h] at hup
        have hn : 0 < next.val := by
          rcases Nat.eq_zero_or_pos next.val with hz | hz
          · rw [hz, Nat.zero_mul] at hup
            have := Nat.mul_pos hL hP
            omega
          · exact hz
        refine ⟨hn, ?_⟩
        have hP' : (0 : ℚ) < P.val := by exact_mod_cast hP
        have hn' : (0 : ℚ) < next.val := by exact_mod_cast hn
        have hup' : (L.val : ℚ) * P.val ≤ next.val * (L.val - x.val * P.val) := by
          have : (L.val : ℚ) * P.val ≤ next.val * ((L.val - x.val * P.val : Nat) : ℚ) := by
            exact_mod_cast hup
          rwa [Nat.cast_sub hle, Nat.cast_mul] at this
        rw [spanA, div_sub_div _ _ hP'.ne' hn'.ne', mul_div_assoc', le_div_iff₀ (by positivity)]
        linarith
    · simp at h

theorem priceFromB_enters_ok (hL : 0 < L.val) (h : priceFromB .enters P L x = .ok next) :
    P.val ≤ next.val ∧ L.val * spanB P next ≤ x.val := by
  unfold priceFromB at h
  have hL0 : ¬ L = 0 := fun h0 => by rw [h0] at hL; exact absurd hL (Nat.lt_irrefl 0)
  rw [if_neg hL0] at h
  simp only [Word.fit_eq_ok] at h
  have hle := Rounding.quotient_mul_down (x.val * Nat.pow 2 128) hL
  refine ⟨by omega, ?_⟩
  have hs : (next.val : ℚ) - P.val =
      (Rounding.down.quotient (x.val * Nat.pow 2 128) L.val : Nat) := by
    rw [← h]; push_cast; ring
  have hle' : ((Rounding.down.quotient (x.val * Nat.pow 2 128) L.val : Nat) : ℚ) * L.val ≤
      x.val * 2 ^ 128 := by exact_mod_cast hle
  rw [spanB, hs, mul_div_assoc', div_le_iff₀ (by positivity)]
  linarith

theorem priceFromB_leaves_ok (hL : 0 < L.val) (h : priceFromB .leaves P L x = .ok next) :
    next.val ≤ P.val ∧ (x.val : ℚ) ≤ L.val * spanB next P := by
  unfold priceFromB at h
  have hL0 : ¬ L = 0 := fun h0 => by rw [h0] at hL; exact absurd hL (Nat.lt_irrefl 0)
  rw [if_neg hL0] at h
  simp only at h
  split at h
  · rename_i hstep
    cases h
    have hup := Rounding.quotient_mul_up (x.val * Nat.pow 2 128) hL
    refine ⟨Nat.sub_le _ _, ?_⟩
    have hup' : (x.val : ℚ) * 2 ^ 128 ≤
        ((Rounding.up.quotient (x.val * Nat.pow 2 128) L.val : Nat) : ℚ) * L.val := by
      exact_mod_cast hup
    rw [spanB, mul_div_assoc', le_div_iff₀ (by positivity), Nat.cast_sub hstep]
    linarith
  · cases h

end

end Curve

end RangePool
