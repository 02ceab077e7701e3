import Mathlib.Algebra.Order.Field.Rat
import Mathlib.Algebra.Order.Floor.Semiring
import Mathlib.Data.Nat.Cast.Order.Field
import Mathlib.Data.Rat.Floor
import RangePool.Word.Scaled
/-!
Word arithmetic against the numbers that words stand for. Whatever the width, an operation gives the exact integer,
or the floor or ceiling of the exact fraction, if there is a word with that value; otherwise it fails.
-/
set_option autoImplicit false

namespace RangePool

def Rounding.whole : Rounding → ℚ → Nat
  | .up, q => ⌈q⌉₊
  | .down, q => ⌊q⌋₊

theorem Rounding.whole_div (r : Rounding) (n : Nat) {d : Nat} (hd : d ≠ 0) :
    r.whole (n / d) = r.quotient n d := by
  have hpos := Nat.pos_of_ne_zero hd
  have hpos' : (0 : ℚ) < d := by exact_mod_cast hpos
  cases r with
  | up =>
    refine eq_of_forall_ge_iff fun k => ?_
    rw [whole, Nat.ceil_le, div_le_iff₀ hpos', quotient_up_le hpos]
    exact_mod_cast Iff.rfl
  | down =>
    refine eq_of_forall_le_iff fun k => ?_
    rw [whole, Nat.le_floor_iff (by positivity), le_div_iff₀ hpos', le_quotient_down hpos]
    exact_mod_cast Iff.rfl

namespace Word

/-- Where `defined` holds and a word of `w` bits has the value `z`, the answer is that word; otherwise there is none. -/
structure Exact {w : Nat} (defined : Prop) (z : ℤ) (answer : Option (Word w)) : Prop where
  eq_some : ∀ c, answer = some c ↔ defined ∧ (c.val : ℤ) = z
  eq_none : answer = none ↔ ¬(defined ∧ 0 ≤ z ∧ z < 2 ^ w)

structure Checked {w : Nat} (defined : Prop) (z : ℤ) (answer : Except Fault (Word w)) : Prop where
  eq_ok : ∀ c, answer = .ok c ↔ defined ∧ (c.val : ℤ) = z
  fails : (∃ f, answer = .error f ∧ f.kind = .mathOverflow) ↔ ¬(defined ∧ 0 ≤ z ∧ z < 2 ^ w)

section
variable {w : Nat} {defined : Prop} {z : ℤ}

theorem exists_val_iff : (∃ c : Word w, (c.val : ℤ) = z) ↔ 0 ≤ z ∧ z < 2 ^ w := by
  constructor
  · rintro ⟨c, rfl⟩
    exact ⟨Int.natCast_nonneg _, by exact_mod_cast c.isLt⟩
  · rintro ⟨h0, hlt⟩
    obtain ⟨n, rfl⟩ := Int.eq_ofNat_of_zero_le h0
    exact ⟨⟨n, by exact_mod_cast hlt⟩, rfl⟩

theorem Exact.of_eq_some {answer : Option (Word w)}
    (h : ∀ c, answer = some c ↔ defined ∧ (c.val : ℤ) = z) : Exact defined z answer where
  eq_some := h
  eq_none := by
    rw [← exists_val_iff, ← exists_and_left, not_exists, Option.eq_none_iff_forall_ne_some]
    exact forall_congr' fun c => not_congr (h c)

/-- An operation that fails in one way only is judged by when it succeeds. -/
theorem Checked.of_eq_ok {answer : Except Fault (Word w)} (step : Step)
    (h : ∀ c, answer = .ok c ↔ defined ∧ (c.val : ℤ) = z)
    (hfault : ∀ f, answer = .error f → f = .arithmetic step) : Checked defined z answer where
  eq_ok := h
  fails := by
    rw [← exists_val_iff, ← exists_and_left, not_exists]
    constructor
    · rintro ⟨f, hf, -⟩ c hc
      rw [(h c).2 hc] at hf
      cases hf
    · intro hnone
      obtain ⟨f, hf⟩ := exists_error_iff.2 fun c hc => hnone c ((h c).1 hc)
      exact ⟨f, hf, hfault f hf ▸ rfl⟩

end

section
variable {w : Nat} (a b d : Word w) (n : Nat) (r : Rounding)

theorem add_checked : Checked True (a.val + b.val) (a.add b) := by
  refine .of_eq_ok .add (fun c => ?_) fun f hf => ?_
  · rw [add_eq_ok, true_and]
    omega
  · rw [add_eq_fit] at hf
    exact (fit_eq_error.1 hf).2

theorem sub_checked : Checked True (a.val - b.val) (a.sub b) := by
  refine .of_eq_ok .sub (fun c => ?_) fun f hf => (sub_eq_error.1 hf).2
  rw [sub_eq_ok, true_and]
  omega

theorem mul_checked : Checked True (a.val * b.val) (a.mul b) := by
  refine .of_eq_ok .mul (fun c => ?_) fun f hf => ?_
  · rw [mul_eq_ok, true_and, eq_comm]
    exact_mod_cast Iff.rfl
  · rw [mul_eq_fit] at hf
    exact (fit_eq_error.1 hf).2

theorem div_checked :
    Checked (b.val ≠ 0) (Rounding.down.whole (a.val / b.val)) (a.div b) := by
  refine .of_eq_ok .div (fun c => ?_) fun f hf => ?_
  · rw [div_eq_ok]
    refine and_congr_right fun hb => ?_
    rw [Rounding.whole_div _ _ hb, Nat.cast_inj, eq_comm]
    rfl
  · unfold div at hf
    split at hf
    · exact (Except.error.inj hf).symm
    · cases hf

theorem shl_checked : Checked (n < w) (a.val * 2 ^ n) (a.shl n) := by
  refine .of_eq_ok .shl (fun c => ?_) fun f hf => ?_
  · rw [shl_eq_ok, eq_comm (a := (c.val : ℤ))]
    refine and_congr_right fun _ => ?_
    exact_mod_cast Iff.rfl
  · by_cases h : n < w
    · rw [shl_eq_fit a h] at hf
      exact (fit_eq_error.1 hf).2
    · rw [shl, if_pos (Nat.not_lt.1 h)] at hf
      exact (Except.error.inj hf).symm

theorem mulDiv?_exact :
    Exact (d.val ≠ 0) (r.whole (a.val * b.val / d.val)) (mulDiv? r a b d) := by
  refine .of_eq_some fun c => ?_
  rw [mulDiv?_eq_some]
  refine and_congr_right fun hd => ?_
  rw [← Nat.cast_mul, Rounding.whole_div _ _ hd, Nat.cast_inj, eq_comm]

theorem mulShr?_exact :
    Exact (n < 2 * w) (r.whole (a.val * b.val / 2 ^ n)) (mulShr? r a b n) := by
  refine .of_eq_some fun c => ?_
  have hpow : ((2 : ℚ) ^ n) = (2 ^ n : Nat) := by push_cast; rfl
  rw [mulShr?_eq_some, hpow, ← Nat.cast_mul, Rounding.whole_div _ _ (Nat.two_pow_pos n).ne',
    Nat.cast_inj, eq_comm (a := c.val)]
  rfl

theorem shlDiv?_exact (v : Nat) :
    Exact (b.val ≠ 0 ∧ n ≤ w) (r.whole (a.val * 2 ^ n / b.val)) (shlDiv? v r a b n) := by
  refine .of_eq_some fun c => ?_
  rw [shlDiv?_eq_some, ← and_assoc]
  refine and_congr_right fun hb => ?_
  have hpow : ((a.val * 2 ^ n : Nat) : ℚ) = a.val * 2 ^ n := by push_cast; rfl
  rw [← hpow, Rounding.whole_div _ _ hb.1, Nat.cast_inj, eq_comm (a := c.val)]
  rfl

/-- At every width, addition, subtraction, multiplication, division and the shift to the left give the exact integer
or overflow, and scaled products and quotients give the exact floor or ceiling or nothing. No product, shift or step
up on the way wraps: each has the value that it would have without a width. -/
theorem arithmetic_is_exact :
    Checked True (a.val + b.val) (a.add b) ∧ Checked True (a.val - b.val) (a.sub b) ∧
    Checked True (a.val * b.val) (a.mul b) ∧
    Checked (b.val ≠ 0) (Rounding.down.whole (a.val / b.val)) (a.div b) ∧
    Checked (n < w) (a.val * 2 ^ n) (a.shl n) ∧
    Exact (d.val ≠ 0) (r.whole (a.val * b.val / d.val)) (mulDiv? r a b d) ∧
    Exact (n < 2 * w) (r.whole (a.val * b.val / 2 ^ n)) (mulShr? r a b n) ∧
    (∀ v, Exact (b.val ≠ 0 ∧ n ≤ w) (r.whole (a.val * 2 ^ n / b.val)) (shlDiv? v r a b n)) ∧
    (wideProduct a b).val = a.val * b.val ∧
    (n ≤ w → ((a.widen (2 * w)).shiftLeft n).val = a.val * 2 ^ n) ∧
    (b.val ≠ 0 → (divRounded r a b).val = r.whole (a.val / b.val)) ∧
    (n < w → (shrRounded r a n).val = r.whole (a.val / 2 ^ n)) := by
  refine ⟨add_checked a b, sub_checked a b, mul_checked a b, div_checked a b, shl_checked a n,
    mulDiv?_exact a b d r, mulShr?_exact a b n r, shlDiv?_exact a b n r, val_wideProduct a b,
    val_widen_shiftLeft a, fun hb => ?_, fun hn => ?_⟩
  · rw [Rounding.whole_div _ _ hb]
    exact val_divRounded r a b hb
  · have hpow : ((2 : ℚ) ^ n) = (2 ^ n : Nat) := by push_cast; rfl
    rw [hpow, Rounding.whole_div _ _ (Nat.two_pow_pos n).ne']
    exact val_shrRounded r a hn

/-- The floor is the largest word, and the step up from it is refused. -/
example : mulDiv? .down (.lit 8 13) (.lit 8 59) (.lit 8 3) = some .top ∧
    mulDiv? .up (.lit 8 13) (.lit 8 59) (.lit 8 3) = none := by decide

end

end Word

end RangePool
