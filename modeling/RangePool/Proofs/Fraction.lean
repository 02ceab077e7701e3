import Mathlib.Algebra.Order.Field.Rat
import Mathlib.Data.Nat.Cast.Order.Field
import Mathlib.Tactic.GCongr
import Mathlib.Tactic.Linarith
import Mathlib.Tactic.Ring
import RangePool.Fraction
/-!
Powers of fractions. Every product is rounded down, and the exponent bounds what is lost by it. Although exponents
that follow each other are multiplied out along different bits, a power never grows with its exponent.
-/
set_option autoImplicit false

namespace RangePool

namespace Fraction

def toRat (f : Fraction) : ℚ := f.val / 2 ^ 64

def unit : ℚ := 1 / 2 ^ 64

theorem unit_pos : 0 < unit := by
  unfold unit
  positivity

theorem toRat_nonneg (f : Fraction) : 0 ≤ f.toRat := by
  unfold toRat
  positivity

theorem toRat_le_one (f : Fraction) : f.toRat ≤ 1 := by
  have hle : (f.val : ℚ) ≤ 2 ^ 64 := by exact_mod_cast f.le_one
  rw [toRat, div_le_one (by positivity)]
  exact hle

theorem toRat_one : one.toRat = 1 := by
  rw [toRat, val_one]
  norm_num

theorem toRat_mul_le (f g : Fraction) : (f.mul g).toRat ≤ f.toRat * g.toRat := by
  have hle : ((f.mul g).val : ℚ) * 2 ^ 64 ≤ f.val * g.val := by
    exact_mod_cast Nat.div_mul_le_self (f.val * g.val) (2 ^ 64)
  rw [toRat, toRat, toRat, div_mul_div_comm, div_le_div_iff₀ (by positivity) (by positivity)]
  linarith

theorem le_toRat_mul (f g : Fraction) : f.toRat * g.toRat - unit ≤ (f.mul g).toRat := by
  have hle : (f.val : ℚ) * g.val ≤ 2 ^ 64 * ((f.mul g).val + 1) := by
    exact_mod_cast (Nat.lt_mul_div_succ (f.val * g.val) (Nat.two_pow_pos 64)).le
  rw [toRat, toRat, toRat, unit, sub_le_iff_le_add, ← add_div, div_mul_div_comm,
    div_le_div_iff₀ (by positivity) (by positivity)]
  linarith

theorem pow_sub_pow_le {x y : ℚ} (h0 : 0 ≤ y) (hle : y ≤ x) (h1 : x ≤ 1) (k : Nat) :
    x ^ k - y ^ k ≤ k * (x - y) := by
  induction k with
  | zero => simp
  | succ k ih =>
    have hx : 0 ≤ x := h0.trans hle
    have hy : y ^ k ≤ 1 := pow_le_one₀ h0 (hle.trans h1)
    have hmono : 0 ≤ x ^ k - y ^ k := sub_nonneg.2 (pow_le_pow_left₀ h0 hle k)
    have hxk : x * (x ^ k - y ^ k) ≤ x ^ k - y ^ k := mul_le_of_le_one_left hmono h1
    have hyk : y ^ k * (x - y) ≤ x - y := mul_le_of_le_one_left (sub_nonneg.2 hle) hy
    calc x ^ (k + 1) - y ^ (k + 1) = x * (x ^ k - y ^ k) + y ^ k * (x - y) := by ring
      _ ≤ k * (x - y) + (x - y) := by linarith
      _ = ((k + 1 : Nat) : ℚ) * (x - y) := by push_cast; ring

def absorb (acc f : Fraction) (e : Nat) : Fraction := if e % 2 = 1 then acc.mul f else acc

theorem absorb_bounds (acc f : Fraction) (e : Nat) :
    (absorb acc f e).toRat ≤ acc.toRat * f.toRat ^ (e % 2) ∧
      acc.toRat * f.toRat ^ (e % 2) - (e % 2 : Nat) * unit ≤ (absorb acc f e).toRat := by
  unfold absorb
  rcases Nat.mod_two_eq_zero_or_one e with h | h
  · simp [h]
  · simp only [h, if_true, pow_one, Nat.cast_one, one_mul]
    exact ⟨toRat_mul_le acc f, le_toRat_mul acc f⟩

theorem powBits_zero (bits : Nat) (acc f : Fraction) : powBits bits acc f 0 = acc := by
  cases bits <;> rfl

theorem powBits_succ (bits : Nat) (acc f : Fraction) (e : Nat) :
    powBits (bits + 1) acc f e = powBits bits (absorb acc f e) (f.mul f) (e / 2) := by
  by_cases h : e = 0
  · subst h
    exact (powBits_zero bits acc (f.mul f)).symm
  · rw [powBits, if_neg h, absorb]

theorem pow_half (x : ℚ) (e : Nat) : x ^ e = x ^ (e % 2) * (x * x) ^ (e / 2) := by
  conv_lhs => rw [← Nat.mod_add_div e 2]
  rw [pow_add, pow_mul, pow_two]

theorem powBits_le (bits : Nat) (acc f : Fraction) (e : Nat) (h : e < 2 ^ bits) :
    (powBits bits acc f e).toRat ≤ acc.toRat * f.toRat ^ e := by
  induction bits generalizing acc f e with
  | zero =>
    have he : e = 0 := by omega
    simp [powBits, he]
  | succ bits ih =>
    have hf := f.toRat_nonneg
    rw [powBits_succ, pow_half]
    calc (powBits bits (absorb acc f e) (f.mul f) (e / 2)).toRat
        ≤ (absorb acc f e).toRat * (f.mul f).toRat ^ (e / 2) := ih _ _ _ (by omega)
      _ ≤ acc.toRat * f.toRat ^ (e % 2) * (f.toRat * f.toRat) ^ (e / 2) := by
        gcongr
        · exact pow_nonneg (toRat_nonneg _) _
        · exact mul_nonneg acc.toRat_nonneg (pow_nonneg hf _)
        · exact (absorb_bounds acc f e).1
        · exact (f.mul f).toRat_nonneg
        · exact toRat_mul_le f f
      _ = _ := by ring

/-- The square that is rounded is short by one unit for every time that it is used. -/
theorem square_loss {c : ℚ} (h0 : 0 ≤ c) (h1 : c ≤ 1) (f : Fraction) (k : Nat) :
    c * (f.toRat * f.toRat) ^ k - k * unit ≤ c * (f.mul f).toRat ^ k := by
  have hsq : f.toRat * f.toRat - (f.mul f).toRat ≤ unit := by linarith [le_toRat_mul f f]
  have hsq1 : f.toRat * f.toRat ≤ 1 := mul_le_one₀ f.toRat_le_one f.toRat_nonneg f.toRat_le_one
  have hpow : (f.toRat * f.toRat) ^ k - (f.mul f).toRat ^ k ≤ k * unit :=
    (pow_sub_pow_le (f.mul f).toRat_nonneg (toRat_mul_le f f) hsq1 k).trans
      (mul_le_mul_of_nonneg_left hsq (Nat.cast_nonneg _))
  have hloss : c * ((f.toRat * f.toRat) ^ k - (f.mul f).toRat ^ k) ≤ k * unit :=
    (mul_le_mul_of_nonneg_left hpow h0).trans
      (mul_le_of_le_one_left (mul_nonneg (Nat.cast_nonneg _) unit_pos.le) h1)
  linarith

theorem count_half (e : Nat) : (e : ℚ) = (e % 2 : Nat) + 2 * (e / 2 : Nat) := by
  exact_mod_cast (Nat.mod_add_div e 2).symm

/-- Each unit of the exponent loses at most one unit: an odd step loses one, and the square is short by one unit
for every time that it is used. -/
theorem le_powBits (bits : Nat) (acc f : Fraction) (e : Nat) (h : e < 2 ^ bits) :
    acc.toRat * f.toRat ^ e - e * unit ≤ (powBits bits acc f e).toRat := by
  induction bits generalizing acc f e with
  | zero =>
    have he : e = 0 := by omega
    simp [powBits, he]
  | succ bits ih =>
    have hu := unit_pos.le
    have hrest := ih (absorb acc f e) (f.mul f) (e / 2) (by omega)
    have hsq1 : f.toRat * f.toRat ≤ 1 := mul_le_one₀ f.toRat_le_one f.toRat_nonneg f.toRat_le_one
    have hsquare := square_loss (toRat_nonneg (absorb acc f e)) (toRat_le_one _) f (e / 2)
    -- The product with the odd bit, against the exact one.
    have hodd : (acc.toRat * f.toRat ^ (e % 2) - (e % 2 : Nat) * unit) *
        (f.toRat * f.toRat) ^ (e / 2) ≤
        (absorb acc f e).toRat * (f.toRat * f.toRat) ^ (e / 2) :=
      mul_le_mul_of_nonneg_right (absorb_bounds acc f e).2 (pow_nonneg (mul_self_nonneg _) _)
    have hunit : (e % 2 : Nat) * unit * (f.toRat * f.toRat) ^ (e / 2) ≤ (e % 2 : Nat) * unit :=
      mul_le_of_le_one_right (mul_nonneg (Nat.cast_nonneg _) hu)
        (pow_le_one₀ (mul_self_nonneg _) hsq1)
    rw [powBits_succ, pow_half f.toRat e, count_half e]
    linarith

theorem one_mul_val (f : Fraction) : (one.mul f).val = f.val := by
  rw [val_mul, val_one, Nat.mul_div_cancel_left _ (Nat.two_pow_pos 64)]

/-- The first factor meets one, and nothing is lost by that product: from one on, one unit less is lost. -/
theorem le_powBits_one (bits : Nat) (f : Fraction) (e : Nat) (h : e < 2 ^ bits) (he : e ≠ 0) :
    f.toRat ^ e - (e - 1) * unit ≤ (powBits bits one f e).toRat := by
  induction bits generalizing f e with
  | zero => omega
  | succ bits ih =>
    rw [powBits_succ, pow_half f.toRat e, count_half e]
    rcases Nat.mod_two_eq_zero_or_one e with heven | hodd
    · have hrest := ih (f.mul f) (e / 2) (by omega) (by omega)
      have hsquare := square_loss zero_le_one le_rfl f (e / 2)
      rw [absorb, if_neg (by omega), heven]
      push_cast
      linarith
    · have hrest := le_powBits bits (one.mul f) (f.mul f) (e / 2) (by omega)
      have hsquare := square_loss f.toRat_nonneg f.toRat_le_one f (e / 2)
      have hone : (one.mul f).toRat = f.toRat := by rw [toRat, toRat, one_mul_val]
      rw [absorb, if_pos hodd, hodd]
      rw [hone] at hrest
      push_cast
      linarith

theorem pow_le (f : Fraction) (e : Word 64) : (f.pow e).toRat ≤ f.toRat ^ e.val := by
  have h := powBits_le 64 one f e.val e.isLt
  rwa [toRat_one, one_mul] at h

theorem toRat_pow_scaled (f : Fraction) (k : Nat) :
    f.toRat ^ (k + 1) * 2 ^ 64 = (f.val : ℚ) ^ (k + 1) / 2 ^ (64 * k) := by
  rw [toRat, div_pow, pow_succ (2 ^ 64 : ℚ), ← pow_mul, div_mul_eq_mul_div,
    mul_div_mul_right _ _ (by positivity)]

theorem pow_bounds (f : Fraction) {e : Word 64} (he : 1 ≤ e.val) :
    (f.val : ℚ) ^ e.val / 2 ^ (64 * (e.val - 1)) - (e.val - 1) ≤ (f.pow e).val ∧
      ((f.pow e).val : ℚ) ≤ (f.val : ℚ) ^ e.val / 2 ^ (64 * (e.val - 1)) := by
  have hle := f.pow_le e
  have hge : f.toRat ^ e.val - (e.val - 1) * unit ≤ (f.pow e).toRat :=
    le_powBits_one 64 f e.val e.isLt (by omega)
  obtain ⟨k, hk⟩ : ∃ k, e.val = k + 1 := ⟨e.val - 1, by omega⟩
  have hval : ((f.pow e).val : ℚ) = (f.pow e).toRat * 2 ^ 64 := by
    rw [toRat, div_mul_cancel₀ _ (by positivity)]
  have hunit : (k : ℚ) * unit * 2 ^ 64 = k := by
    rw [unit, mul_assoc, div_mul_cancel₀ _ (by positivity), mul_one]
  rw [hk] at hle hge
  rw [hval, hk, Nat.add_sub_cancel, ← toRat_pow_scaled]
  push_cast at hge ⊢
  rw [add_sub_cancel_right] at hge ⊢
  constructor
  · calc f.toRat ^ (k + 1) * 2 ^ 64 - k
        = (f.toRat ^ (k + 1) - k * unit) * 2 ^ 64 := by rw [sub_mul, hunit]
      _ ≤ (f.pow e).toRat * 2 ^ 64 := by gcongr
  · gcongr

theorem mul_val_le_mul {f f' g g' : Fraction} (hf : f.val ≤ f'.val) (hg : g.val ≤ g'.val) :
    (f.mul g).val ≤ (f'.mul g').val :=
  Nat.div_le_div_right (Nat.mul_le_mul hf hg)

theorem powBits_mono (bits e : Nat) {acc acc' f f' : Fraction} (hacc : acc.val ≤ acc'.val)
    (hf : f.val ≤ f'.val) : (powBits bits acc f e).val ≤ (powBits bits acc' f' e).val := by
  induction bits generalizing acc acc' f f' e with
  | zero => exact hacc
  | succ bits ih =>
    rw [powBits_succ, powBits_succ]
    refine ih _ ?_ (mul_val_le_mul hf hf)
    unfold absorb
    split
    · exact mul_val_le_mul hacc hf
    · exact hacc

/-- The next exponent starts with an accumulator that is ahead by no more than one factor. An even exponent makes it
up with its lowest bit; an odd one carries, and then the accumulators are apart by no more than the next square. -/
theorem powBits_succ_le (bits e : Nat) (h : e + 1 < 2 ^ bits) {acc f : Fraction} (hacc : f.val ≤ acc.val) :
    (powBits bits one f (e + 1)).val ≤ (powBits bits acc f e).val := by
  induction bits generalizing acc f e with
  | zero => omega
  | succ bits ih =>
    rw [powBits_succ, powBits_succ]
    rcases Nat.mod_two_eq_zero_or_one e with heven | hodd
    · rw [absorb, if_pos (by omega), absorb, if_neg (by omega), show (e + 1) / 2 = e / 2 by omega]
      exact powBits_mono bits _ ((one_mul_val f).trans_le hacc) (Nat.le_refl _)
    · rw [absorb, if_neg (by omega), absorb, if_pos hodd, show (e + 1) / 2 = e / 2 + 1 by omega]
      exact ih _ (by omega) (mul_val_le_mul hacc (Nat.le_refl _))

theorem pow_le_pow (f : Fraction) {d e : Word 64} (h : d.val ≤ e.val) : (f.pow e).val ≤ (f.pow d).val := by
  have he : e.val < 2 ^ 64 := e.isLt
  unfold pow
  generalize e.val = n at h he
  induction n, h using Nat.le_induction with
  | base => exact Nat.le_refl _
  | succ n _ ih => exact (powBits_succ_le 64 n he f.le_one).trans (ih (by omega))

end Fraction

namespace Word

/-! The products of the loop over words are those of fractions, and so none of them fails. -/

theorem scaleIf_toWord (p : Prop) [Decidable p] (f g : Fraction) :
    scaleIf p f.toWord g.toWord = .ok (if p then f.mul g else f).toWord := by
  unfold scaleIf
  split
  · exact kept_eq_ok.2 ⟨(f.mul g).toWord, mulShr?_eq_some.2 ⟨by decide, rfl⟩, rfl⟩
  · rfl

theorem powerLoop_eq (bits : Nat) (acc f : Fraction) (e : Nat) (h : e < 2 ^ bits) :
    powerLoop acc.toWord f.toWord e = .ok (Fraction.powBits bits acc f e).toWord := by
  induction bits generalizing acc f e with
  | zero =>
    have he : e = 0 := by omega
    rw [powerLoop, if_pos he]
    rfl
  | succ bits ih =>
    by_cases he : e = 0
    · rw [powerLoop, if_pos he, he, Fraction.powBits_zero]
    rw [powerLoop, if_neg he, scaleIf_toWord, scaleIf_toWord, Fraction.powBits_succ]
    by_cases hlast : e / 2 = 0
    · -- The square is left out, and no bit is left that would use it.
      rw [hlast, Fraction.powBits_zero]
      exact ih _ _ 0 (Nat.two_pow_pos bits) |>.trans (by rw [Fraction.powBits_zero, Fraction.absorb])
    · rw [if_pos hlast]
      exact ih _ _ _ (by omega)

theorem ofWord_eq_ok {x : Word 128} {f : Fraction} : Fraction.ofWord x = .ok f ↔ x.val = f.val := by
  unfold Fraction.ofWord
  split
  · rw [Except.ok.injEq, Fraction.mk.injEq]
  · rename_i h
    simp only [reduceCtorEq, false_iff]
    exact fun hx => h (hx ▸ f.le_one)

theorem power_eq {x : Word 128} {f : Fraction} (h : x.val = f.val) (e : Word 64) :
    x.power e = .ok (f.pow e).toWord := by
  rw [power, ofWord_eq_ok.2 h]
  exact powerLoop_eq 64 Fraction.one f e.val e.isLt

theorem exists_fraction {x : Word 128} (h : x.val ≤ 2 ^ 64) : ∃ f : Fraction, x.val = f.val :=
  ⟨⟨x.val, h⟩, rfl⟩

/-- A power of a word that is at most one as a fraction exists for every exponent. It is a fraction again, is never
above the exact power, and below it by less than one unit for each product. It does not grow with the exponent
and does not fall with the base. -/
theorem powers_are_accurate {x : Word 128} (hx : x.val ≤ 2 ^ 64) (e : Word 64) :
    ∃ p, x.power e = .ok p ∧ p.val ≤ 2 ^ 64 ∧ (e.val = 0 → p.val = 2 ^ 64) ∧
      (1 ≤ e.val →
        (x.val : ℚ) ^ e.val / 2 ^ (64 * (e.val - 1)) - (e.val - 1) ≤ p.val ∧
        (p.val : ℚ) ≤ (x.val : ℚ) ^ e.val / 2 ^ (64 * (e.val - 1))) ∧
      (∀ (d : Word 64) (q : Word 128), e.val ≤ d.val → x.power d = .ok q → q.val ≤ p.val) ∧
      ∀ y q : Word 128, x.val ≤ y.val → y.power e = .ok q → p.val ≤ q.val := by
  obtain ⟨f, hf⟩ := exists_fraction hx
  refine ⟨(f.pow e).toWord, power_eq hf e, (f.pow e).le_one, fun he => ?_, fun he => ?_,
    fun d q hd hq => ?_, fun y q hy hq => ?_⟩
  · rw [show e = 0 from Word.ext he, f.pow_zero]
    rfl
  · rw [hf]
    exact f.pow_bounds he
  · rw [power_eq hf d] at hq
    cases hq
    exact f.pow_le_pow hd
  · obtain ⟨g, hg, hq⟩ := bind_eq_ok.1 hq
    have hg := ofWord_eq_ok.1 hg
    rw [powerLoop_eq 64 Fraction.one g e.val e.isLt] at hq
    cases hq
    exact Fraction.powBits_mono 64 e.val (Nat.le_refl _) (hf ▸ hg ▸ hy)

theorem powers_are_accurate_half : ∃ p, (lit 128 9223372036854775809).val ≤ 2 ^ 64 ∧
    (lit 128 9223372036854775809).power (lit 64 3) = .ok p ∧ p.val = 2 ^ 61 ∧
    (9223372036854775809 : ℚ) ^ 3 / 2 ^ 128 - 2 ≤ p.val ∧
    (p.val : ℚ) ≤ 9223372036854775809 ^ 3 / 2 ^ 128 := by
  have hx : (lit 128 9223372036854775809).val ≤ 2 ^ 64 := by decide
  have hvalue : (lit 128 9223372036854775809).power (lit 64 3) = .ok (lit 128 2305843009213693952) :=
    (power_eq (f := ⟨9223372036854775809, by decide⟩) rfl (lit 64 3)).trans rfl
  obtain ⟨p, hp, -, -, hbounds, -⟩ := powers_are_accurate hx (lit 64 3)
  obtain ⟨hge, hle⟩ := hbounds (by decide)
  refine ⟨p, hx, hp, ?_, ?_, ?_⟩
  · rw [eq_of_ok hp hvalue, val_lit]
    norm_num
  · norm_num at hge ⊢
    exact hge
  · norm_num at hle ⊢
    exact hle

end Word

end RangePool
