import RangePool.Proofs.Curve.Reserve
/-!
The rounded step is the best one. Among all prices that a given amount reaches, the next price is the farthest one;
among all prices that free a wanted amount, it is the nearest one; and where there is such a price there is a next
one. A rounded amount is the best integer on its side of the exact one.
-/
set_option autoImplicit false

namespace RangePool

/-- Rounding is an adjunction: a number lies on the good side of a quotient just when it lies there of the rounded
quotient. -/
theorem Rounding.sides_iff (r : Rounding) (n : Nat) {d : Nat} (hd : 0 < d) {k : Nat} :
    r.Sides k (n / d) ↔ r.Sides k (r.quotient n d : Nat) := by
  have hd' : (0 : ℚ) < d := by exact_mod_cast hd
  cases r with
  | up =>
    show (n : ℚ) / d ≤ k ↔ ((up.quotient n d : Nat) : ℚ) ≤ k
    rw [div_le_iff₀ hd', Nat.cast_le, quotient_up_le hd]
    exact_mod_cast Iff.rfl
  | down =>
    show (k : ℚ) ≤ n / d ↔ (k : ℚ) ≤ (down.quotient n d : Nat)
    rw [le_div_iff₀ hd', Nat.cast_le, le_quotient_down hd]
    exact_mod_cast Iff.rfl

namespace Curve

section
variable {r : Rounding} {lower upper : Price} {L : Liquidity} {x : Amount}

theorem deltaA_eq_ok : deltaA r lower upper L = .ok x ↔ lower.val ≤ upper.val ∧ 0 < lower.val ∧
    r.quotient (L.val * (upper.val - lower.val)) (lower.val * upper.val) = x.val := by
  simp only [deltaA, toAmount, bind_eq_ok, Word.fit_eq_ok, wideA_eq_ok]
  constructor
  · rintro ⟨w, ⟨hle, hl, hw⟩, hx⟩
    exact ⟨hle, hl, hw.trans hx⟩
  · rintro ⟨hle, hl, hx⟩
    have hlt : x.val < Nat.pow 2 256 := Nat.lt_of_lt_of_le x.isLt (by decide)
    exact ⟨⟨x.val, hlt⟩, ⟨hle, hl, hx⟩, rfl⟩

theorem deltaB_eq_ok : deltaB r lower upper L = .ok x ↔ lower.val ≤ upper.val ∧
    r.quotient (L.val * (upper.val - lower.val)) (Nat.pow 2 128) = x.val := by
  simp only [deltaB, toAmount, bind_eq_ok, Word.fit_eq_ok, wideB_eq_ok]
  constructor
  · rintro ⟨w, ⟨hle, hw⟩, hx⟩
    exact ⟨hle, hw.trans hx⟩
  · rintro ⟨hle, hx⟩
    have hlt : x.val < Nat.pow 2 256 := Nat.lt_of_lt_of_le x.isLt (by decide)
    exact ⟨⟨x.val, hlt⟩, ⟨hle, hx⟩, rfl⟩

theorem deltaA_best (h : deltaA r lower upper L = .ok x) {k : Nat}
    (hk : r.Sides k (L.val * spanA lower upper)) : r.Sides k x.val := by
  obtain ⟨hle, hl, hx⟩ := deltaA_eq_ok.1 h
  rw [mul_spanA L.val hl hle, r.sides_iff _ (Nat.mul_pos hl (by omega)), hx] at hk
  exact hk

theorem deltaB_best (h : deltaB r lower upper L = .ok x) {k : Nat}
    (hk : r.Sides k (L.val * spanB lower upper)) : r.Sides k x.val := by
  obtain ⟨hle, hx⟩ := deltaB_eq_ok.1 h
  rw [mul_spanB L.val hle, r.sides_iff _ (Nat.two_pow_pos 128)] at hk
  rw [← hx]
  exact hk

theorem exists_deltaA (hle : lower.val ≤ upper.val) (hl : 0 < lower.val) {k : Amount}
    (hk : L.val * spanA lower upper ≤ k.val) : ∃ x, deltaA .up lower upper L = .ok x := by
  have hq := (Rounding.up.sides_iff _ (Nat.mul_pos hl (Nat.lt_of_lt_of_le hl hle))).1
    ((mul_spanA L.val hl hle).symm.trans_le hk)
  have hlt := Nat.lt_of_le_of_lt (Nat.cast_le.1 hq) k.isLt
  exact ⟨⟨_, hlt⟩, deltaA_eq_ok.2 ⟨hle, hl, rfl⟩⟩

theorem exists_deltaB (hle : lower.val ≤ upper.val) {k : Amount}
    (hk : L.val * spanB lower upper ≤ k.val) : ∃ x, deltaB .up lower upper L = .ok x := by
  have hq := (Rounding.up.sides_iff _ (Nat.two_pow_pos 128)).1
    ((mul_spanB L.val hle).symm.trans_le hk)
  have hlt := Nat.lt_of_le_of_lt (Nat.cast_le.1 hq) k.isLt
  exact ⟨⟨_, hlt⟩, deltaB_eq_ok.2 ⟨hle, rfl⟩⟩

end

theorem spanA_mono {l l' u u' : Price} (hl : 0 < l'.val) (hle : l'.val ≤ l.val) (hu : 0 < u.val)
    (hue : u.val ≤ u'.val) : spanA l u ≤ spanA l' u' := by
  refine sub_le_sub ?_ ?_
  · exact one_div_le_one_div_of_le (by exact_mod_cast hl) (by exact_mod_cast hle)
  · exact one_div_le_one_div_of_le (by exact_mod_cast hu) (by exact_mod_cast hue)

theorem spanB_mono {l l' u u' : Price} (hle : l'.val ≤ l.val) (hue : u.val ≤ u'.val) :
    spanB l u ≤ spanB l' u' := by
  have hle : (l'.val : ℚ) ≤ l.val := by exact_mod_cast hle
  have hue : (u.val : ℚ) ≤ u'.val := by exact_mod_cast hue
  unfold spanB
  gcongr

/-! Exact amounts between two prices, with the divisions multiplied out. -/

section
variable {L : Liquidity} {lower upper : Price} {x : Nat}

theorem mul_spanA_eq (hl : 0 < lower.val) (hu : 0 < upper.val) :
    L.val * spanA lower upper =
      (L.val * upper.val - L.val * lower.val : ℚ) / (lower.val * upper.val) := by
  have hl' : (lower.val : ℚ) ≠ 0 := by exact_mod_cast hl.ne'
  have hu' : (upper.val : ℚ) ≠ 0 := by exact_mod_cast hu.ne'
  rw [spanA]
  field_simp

theorem mul_spanA_le_iff (hl : 0 < lower.val) (hu : 0 < upper.val) :
    L.val * spanA lower upper ≤ x ↔ L.val * upper.val ≤ lower.val * (L.val + x * upper.val) := by
  have hd : (0 : ℚ) < lower.val * upper.val := by exact_mod_cast Nat.mul_pos hl hu
  rw [mul_spanA_eq hl hu, div_le_iff₀ hd, sub_le_iff_le_add]
  constructor
  · intro h
    have : (L.val * upper.val : ℚ) ≤ lower.val * (L.val + x * upper.val) := by linarith
    exact_mod_cast this
  · intro h
    have : (L.val * upper.val : ℚ) ≤ lower.val * (L.val + x * upper.val) := by exact_mod_cast h
    linarith

theorem le_mul_spanA_iff (hl : 0 < lower.val) (hu : 0 < upper.val) :
    (x : ℚ) ≤ L.val * spanA lower upper ↔
      lower.val * (L.val + x * upper.val) ≤ L.val * upper.val := by
  have hd : (0 : ℚ) < lower.val * upper.val := by exact_mod_cast Nat.mul_pos hl hu
  rw [mul_spanA_eq hl hu, le_div_iff₀ hd, le_sub_iff_add_le]
  constructor
  · intro h
    have : (lower.val * (L.val + x * upper.val) : ℚ) ≤ L.val * upper.val := by linarith
    exact_mod_cast this
  · intro h
    have : (lower.val * (L.val + x * upper.val) : ℚ) ≤ L.val * upper.val := by exact_mod_cast h
    linarith

theorem mul_spanB_le_iff :
    L.val * spanB lower upper ≤ x ↔ L.val * upper.val ≤ L.val * lower.val + x * Nat.pow 2 128 := by
  rw [spanB, mul_div_assoc', div_le_iff₀ (by positivity), mul_sub, sub_le_iff_le_add']
  exact_mod_cast Iff.rfl

theorem le_mul_spanB_iff :
    (x : ℚ) ≤ L.val * spanB lower upper ↔
      L.val * lower.val + x * Nat.pow 2 128 ≤ L.val * upper.val := by
  rw [spanB, mul_div_assoc', le_div_iff₀ (by positivity), mul_sub, le_sub_iff_add_le']
  exact_mod_cast Iff.rfl

end

section
variable {P next M : Price} {L : Liquidity} {x : Amount}

theorem nextPrice_of_pos {exact : Exact} {dir : Direction} (hP : 0 < P.val) (hL : 0 < L.val) :
    nextPrice exact dir P L x = match exact, dir with
      | .input, .aToB => priceFromA .enters P L x
      | .input, .bToA => priceFromB .enters P L x
      | .output, .aToB => priceFromB .leaves P L x
      | .output, .bToA => priceFromA .leaves P L x := by
  have hP0 : P ≠ 0 := Word.ne_zero_of_pos hP
  have hL0 : L ≠ 0 := Word.ne_zero_of_pos hL
  unfold nextPrice
  cases exact <;> cases dir <;> exact (if_neg hP0).trans (if_neg hL0)

theorem priceFromA_enters_least (hP : 0 < P.val) (hL : 0 < L.val)
    (h : priceFromA .enters P L x = .ok next) (hM : 0 < M.val)
    (hx : L.val * spanA M P ≤ x.val) : next.val ≤ M.val := by
  rw [mul_spanA_le_iff hM hP] at hx
  unfold priceFromA at h
  split at h
  · rename_i h0
    cases h
    rw [h0, Word.val_zero, Nat.zero_mul, Nat.add_zero, Nat.mul_comm] at hx
    exact Nat.le_of_mul_le_mul_right hx hL
  · simp only [bind_eq_ok, Except.ok.injEq, exists_eq_left'] at h
    rw [if_neg (by omega), Word.fit_eq_ok] at h
    rw [← h]
    exact (Rounding.quotient_up_le (by omega)).2 hx

theorem priceFromB_enters_most (hL : 0 < L.val) (h : priceFromB .enters P L x = .ok next)
    (hx : L.val * spanB P M ≤ x.val) : M.val ≤ next.val := by
  rw [mul_spanB_le_iff] at hx
  unfold priceFromB at h
  rw [if_neg (Word.ne_zero_of_pos hL)] at h
  simp only [Word.fit_eq_ok] at h
  have hq : M.val - P.val ≤ Rounding.down.quotient (x.val * Nat.pow 2 128) L.val := by
    rw [Rounding.le_quotient_down hL, Nat.sub_mul, Nat.mul_comm M.val, Nat.mul_comm P.val]
    omega
  omega

theorem step_le (hL : 0 < L.val) (hx : x.val ≤ L.val * spanB M P) :
    M.val + Rounding.up.quotient (x.val * Nat.pow 2 128) L.val ≤ P.val := by
  rw [le_mul_spanB_iff] at hx
  have hle : M.val ≤ P.val := Nat.le_of_mul_le_mul_left (by omega) hL
  have hq : Rounding.up.quotient (x.val * Nat.pow 2 128) L.val ≤ P.val - M.val := by
    rw [Rounding.quotient_up_le hL, Nat.sub_mul, Nat.mul_comm M.val, Nat.mul_comm P.val]
    omega
  omega

theorem exists_priceFromB_leaves (hL : 0 < L.val) (hx : x.val ≤ L.val * spanB M P) :
    ∃ next, priceFromB .leaves P L x = .ok next ∧ M.val ≤ next.val := by
  have hstep := step_le hL hx
  unfold priceFromB
  rw [if_neg (Word.ne_zero_of_pos hL)]
  simp only
  rw [if_pos (by omega)]
  exact ⟨_, rfl, by simp only; omega⟩

theorem divisor_ge (hP : 0 < P.val) (hL : 0 < L.val) (hM : 0 < M.val)
    (hx : x.val ≤ L.val * spanA P M) :
    x.val * P.val < L.val ∧ L.val * P.val ≤ M.val * (L.val - x.val * P.val) := by
  rw [le_mul_spanA_iff hP hM, Nat.mul_add, Nat.mul_comm P.val L.val, ← Nat.mul_assoc,
    Nat.mul_comm P.val x.val, Nat.mul_comm L.val M.val, Nat.mul_comm _ M.val] at hx
  have hpos := Nat.mul_pos hL hP
  have hlt : x.val * P.val < L.val := Nat.lt_of_mul_lt_mul_left (a := M.val) (by omega)
  refine ⟨hlt, ?_⟩
  rw [Nat.mul_sub]
  omega

theorem exists_priceFromA_leaves (hP : 0 < P.val) (hL : 0 < L.val) (hM : 0 < M.val)
    (hx : x.val ≤ L.val * spanA P M) :
    ∃ next, priceFromA .leaves P L x = .ok next ∧ P.val ≤ next.val ∧ next.val ≤ M.val := by
  unfold priceFromA
  split
  · rename_i h0
    rw [le_mul_spanA_iff hP hM, h0, Word.val_zero, Nat.zero_mul, Nat.add_zero, Nat.mul_comm] at hx
    exact ⟨P, rfl, Nat.le_refl _, Nat.le_of_mul_le_mul_left hx hL⟩
  · obtain ⟨hlt, hle⟩ := divisor_ge hP hL hM hx
    have hd : 0 < L.val - x.val * P.val := by omega
    have hfar := (Rounding.quotient_up_le hd).2 hle
    have hback : L.val * P.val ≤ L.val * Rounding.up.quotient (L.val * P.val) (L.val - x.val * P.val) := by
      rw [Nat.mul_comm L.val (Rounding.quotient ..)]
      exact Nat.le_trans (Rounding.quotient_mul_up _ hd) (Nat.mul_le_mul_left _ (Nat.sub_le _ _))
    simp only [if_pos hlt.le, bind_eq_ok, Except.ok.injEq, exists_eq_left']
    rw [if_neg (by omega)]
    exact ⟨⟨_, Nat.lt_of_le_of_lt hfar M.isLt⟩, Word.fit_eq_ok.2 rfl,
      Nat.le_of_mul_le_mul_left hback hL, hfar⟩

end

end Curve

end RangePool
