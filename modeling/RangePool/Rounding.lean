/-!
Rounding of a quotient of naturals. Whoever has to bear the rounding error picks the direction. The main
statements are the two adjunctions: a floor is the greatest number whose multiple does not exceed, a ceiling
the least whose multiple suffices. A fee is a rounded up part of an amount, and what is least to cover it is met
exactly.
-/
set_option autoImplicit false

namespace RangePool

inductive Rounding
  | up
  | down
  deriving DecidableEq, Repr

/-- `n / d` as an integer. A zero divisor is refused before it gets here. -/
def Rounding.quotient : Rounding → Nat → Nat → Nat
  | .down, n, d => n / d
  | .up, n, d => (n + (d - 1)) / d

namespace Rounding

theorem quotient_le (r : Rounding) (n d : Nat) : r.quotient n d ≤ n := by
  cases r
  · rcases Nat.eq_zero_or_pos d with rfl | hd
    · simp [quotient]
    · show (n + (d - 1)) / d ≤ n
      rcases Nat.eq_zero_or_pos n with rfl | hn
      · exact Nat.le_of_eq (Nat.div_eq_of_lt (by omega))
      · apply Nat.le_of_lt_succ
        rw [Nat.div_lt_iff_lt_mul hd]
        obtain ⟨d, rfl⟩ := Nat.exists_eq_succ_of_ne_zero (by omega : d ≠ 0)
        have := Nat.le_mul_of_pos_left d hn
        simp only [Nat.succ_eq_add_one, Nat.add_sub_cancel, Nat.add_mul, Nat.mul_add]
        omega
  · exact Nat.div_le_self n d

theorem le_quotient_down {n d k : Nat} (hd : 0 < d) : k ≤ down.quotient n d ↔ k * d ≤ n :=
  Nat.le_div_iff_mul_le hd

theorem quotient_up_le {n d k : Nat} (hd : 0 < d) : up.quotient n d ≤ k ↔ n ≤ k * d := by
  show (n + (d - 1)) / d ≤ k ↔ n ≤ k * d
  rw [← Nat.lt_succ_iff, Nat.div_lt_iff_lt_mul hd, Nat.succ_mul]
  omega

theorem quotient_mul_down (n : Nat) {d : Nat} (hd : 0 < d) : down.quotient n d * d ≤ n :=
  (le_quotient_down hd).1 (Nat.le_refl _)

theorem lt_quotient_down_mul (n : Nat) {d : Nat} (hd : 0 < d) : n < (down.quotient n d + 1) * d :=
  (Nat.div_lt_iff_lt_mul hd).1 (Nat.lt_succ_self _)

theorem quotient_mul_up (n : Nat) {d : Nat} (hd : 0 < d) : n ≤ up.quotient n d * d :=
  (quotient_up_le hd).1 (Nat.le_refl _)

theorem quotient_le_quotient (r : Rounding) {n n' : Nat} (d : Nat) (h : n ≤ n') :
    r.quotient n d ≤ r.quotient n' d := by
  cases r with
  | up => exact Nat.div_le_div_right (Nat.add_le_add_right h _)
  | down => exact Nat.div_le_div_right h

theorem quotient_mul_self (r : Rounding) (n : Nat) {d : Nat} (hd : 0 < d) : r.quotient (d * n) d = n := by
  cases r with
  | up =>
    show (d * n + (d - 1)) / d = n
    rw [Nat.mul_add_div hd, Nat.div_eq_of_lt (by omega), Nat.add_zero]
  | down => exact Nat.mul_div_cancel_left n hd

theorem quotient_up_eq (n : Nat) {d : Nat} (hd : 0 < d) :
    up.quotient n d = if n % d = 0 then n / d else n / d + 1 := by
  split
  · rename_i h
    obtain ⟨k, rfl⟩ := Nat.dvd_of_mod_eq_zero h
    rw [quotient_mul_self .up k hd, Nat.mul_div_cancel_left k hd]
  · have hmod := Nat.mod_lt n hd
    have hdiv := Nat.div_add_mod' n d
    have hsucc : (n / d + 1) * d = n / d * d + d := Nat.succ_mul _ _
    show (n + (d - 1)) / d = n / d + 1
    rw [Nat.div_eq_iff hd]
    omega

theorem part_le (r : Rounding) {x n d : Nat} (hd : 0 < d) (hn : n ≤ d) : r.quotient (x * n) d ≤ x := by
  have hpart : x * n ≤ x * d := Nat.mul_le_mul_left x hn
  cases r with
  | up => exact (quotient_up_le hd).2 hpart
  | down => exact Nat.le_of_mul_le_mul_right (Nat.le_trans (quotient_mul_down _ hd) hpart) hd

/-- Beside a rounded up part `n / d` of `x` there is room for `y` just when there is beside the exact part. -/
theorem add_part_le_iff {x y n d : Nat} (hd : 0 < d) (hn : n ≤ d) :
    y + up.quotient (x * n) d ≤ x ↔ y * d ≤ x * (d - n) := by
  have hpart : x * n ≤ x * d := Nat.mul_le_mul_left x hn
  have hle : up.quotient (x * n) d ≤ x - y ↔ x * n ≤ (x - y) * d := quotient_up_le hd
  rw [Nat.sub_mul] at hle
  rw [Nat.mul_sub]
  constructor
  · intro h
    have hyx : y * d ≤ x * d := Nat.mul_le_mul_right d (by omega)
    omega
  · intro h
    have hyx : y ≤ x := Nat.le_of_mul_le_mul_right (by omega : y * d ≤ x * d) hd
    omega

end Rounding

theorem le_gross {y n d : Nat} (hn : n < d) : y ≤ Rounding.up.quotient (y * d) (d - n) := by
  have hup := Rounding.quotient_mul_up (y * d) (by omega : 0 < d - n)
  exact Nat.le_of_mul_le_mul_right
    (Nat.le_trans hup (Nat.mul_le_mul_left _ (Nat.sub_le d n))) (by omega)

/-- The least amount with room for `y` beside the fee on it has room for no more: where a fee does not fall, one unit
more pays for one unit more at most. -/
theorem least_eq_add {fee : Nat → Nat} (hfee : ∀ x, fee x ≤ fee (x + 1)) {y least : Nat}
    (h : ∀ x, y + fee x ≤ x ↔ least ≤ x) : least = y + fee least := by
  have hroom := (h least).2 (Nat.le_refl least)
  cases least with
  | zero => omega
  | succ x =>
    have hx := mt (h x).1 (by omega)
    have hmono := hfee x
    omega

end RangePool
