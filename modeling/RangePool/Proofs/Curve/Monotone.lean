import RangePool.Proofs.Curve.Limit
/-!
Steps along the curve, in order. The next price for less is there whenever the one for more is, and it lies no
farther; and the smaller one of two spans holds no more of either token.
-/
set_option autoImplicit false

namespace RangePool

def Direction.Leads : Direction → Price → Price → Prop
  | .aToB, P, Q => Q ≤ P
  | .bToA, P, Q => P ≤ Q

theorem Direction.Leads.refl (dir : Direction) (P : Price) : dir.Leads P P := by
  cases dir <;> exact Nat.le_refl P.val

theorem Direction.Leads.trans {dir : Direction} {P Q R : Price} (h : dir.Leads P Q)
    (h' : dir.Leads Q R) : dir.Leads P R := by
  cases dir with
  | aToB => exact Nat.le_trans h' h
  | bToA => exact Nat.le_trans h h'

theorem Direction.Leads.antisymm {dir : Direction} {P Q : Price} (h : dir.Leads P Q)
    (h' : dir.Leads Q P) : P = Q := by
  cases dir with
  | aToB => exact Word.ext (Nat.le_antisymm h' h)
  | bToA => exact Word.ext (Nat.le_antisymm h h')

theorem Direction.Leads.pos {dir : Direction} {P Q : Price} (hP : 0 < P.val) (h : dir.Leads P Q)
    (hdir : dir = .bToA) : 0 < Q.val := by
  subst hdir
  exact Nat.lt_of_lt_of_le hP h

theorem Rounding.quotient_mono (r : Rounding) {n d n' d' : Nat} (hd : 0 < d) (hd' : 0 < d')
    (h : (n : ℚ) / d ≤ n' / d') : r.quotient n d ≤ r.quotient n' d' := by
  cases r with
  | up => exact Nat.cast_le.1 ((up.sides_iff n hd).1 (h.trans (up.sides_quotient n' hd')))
  | down => exact Nat.cast_le.1 ((down.sides_iff n' hd').1 ((down.sides_quotient n hd).trans h))

namespace Curve

section
variable {r : Rounding} {l u l' u' : Price} {L : Liquidity} {x : Amount}

theorem exists_deltaA_le (h : deltaA r l u L = .ok x) (hl : l.val ≤ l'.val) (hle : l'.val ≤ u'.val)
    (hu : u'.val ≤ u.val) : ∃ x', deltaA r l' u' L = .ok x' ∧ x'.val ≤ x.val := by
  obtain ⟨hlu, hpos, hx⟩ := deltaA_eq_ok.1 h
  have hpos' : 0 < l'.val := by omega
  have hspan := mul_le_mul_of_nonneg_left (spanA_mono hpos hl (by omega) hu) (Nat.cast_nonneg L.val)
  rw [mul_spanA L.val hpos' hle, mul_spanA L.val hpos hlu] at hspan
  have hq := r.quotient_mono (Nat.mul_pos hpos' (by omega)) (Nat.mul_pos hpos (by omega)) hspan
  rw [hx] at hq
  exact ⟨⟨_, Nat.lt_of_le_of_lt hq x.isLt⟩, deltaA_eq_ok.2 ⟨hle, hpos', rfl⟩, hq⟩

theorem exists_deltaB_le (h : deltaB r l u L = .ok x) (hl : l.val ≤ l'.val) (hle : l'.val ≤ u'.val)
    (hu : u'.val ≤ u.val) : ∃ x', deltaB r l' u' L = .ok x' ∧ x'.val ≤ x.val := by
  obtain ⟨hlu, hx⟩ := deltaB_eq_ok.1 h
  have hspan := mul_le_mul_of_nonneg_left (spanB_mono hl hu) (Nat.cast_nonneg L.val)
  rw [mul_spanB L.val hle, mul_spanB L.val hlu] at hspan
  have hq := r.quotient_mono (Nat.two_pow_pos 128) (Nat.two_pow_pos 128) hspan
  rw [show r.quotient (L.val * (u.val - l.val)) (2 ^ 128) = x.val from hx] at hq
  exact ⟨⟨_, Nat.lt_of_le_of_lt hq x.isLt⟩, deltaB_eq_ok.2 ⟨hle, rfl⟩, hq⟩

end

section
variable {P next M : Price} {L : Liquidity} {x x' : Amount}

theorem exists_priceFromA_enters (hL : 0 < L.val) (x : Amount) :
    ∃ next, priceFromA .enters P L x = .ok next ∧ next.val ≤ P.val := by
  unfold priceFromA
  split
  · exact ⟨P, rfl, Nat.le_refl _⟩
  · have hd : 0 < L.val + x.val * P.val := by omega
    have hle : Rounding.up.quotient (L.val * P.val) (L.val + x.val * P.val) ≤ P.val := by
      rw [Rounding.quotient_up_le hd, Nat.mul_comm]
      exact Nat.mul_le_mul_left _ (Nat.le_add_right _ _)
    simp only [bind_eq_ok, Except.ok.injEq, exists_eq_left']
    rw [if_neg (by omega)]
    exact ⟨⟨_, Nat.lt_of_le_of_lt hle P.isLt⟩, Word.fit_eq_ok.2 rfl, hle⟩

theorem exists_priceFromB_enters (hL : 0 < L.val) (h : priceFromB .enters P L x = .ok next)
    (hx : x'.val ≤ x.val) : ∃ next', priceFromB .enters P L x' = .ok next' ∧ next'.val ≤ next.val := by
  unfold priceFromB at h ⊢
  rw [if_neg (Word.ne_zero_of_pos hL)] at h ⊢
  simp only [Word.fit_eq_ok] at h ⊢
  have hle : P.val + Rounding.down.quotient (x'.val * Nat.pow 2 128) L.val ≤ next.val := by
    rw [← h]
    exact Nat.add_le_add_left (Nat.div_le_div_right (Nat.mul_le_mul_right _ hx)) _
  exact ⟨⟨_, Nat.lt_of_le_of_lt hle next.isLt⟩, rfl, hle⟩

theorem exists_nextPrice_le {exact : Exact} {dir : Direction} (h : nextPrice exact dir P L x = .ok next)
    (hx : x'.val ≤ x.val) :
    ∃ next', nextPrice exact dir P L x' = .ok next' ∧ dir.Leads P next' ∧ dir.Leads next' next := by
  obtain ⟨hP, hL, h⟩ := nextPrice_ok h
  have hx' : (x'.val : ℚ) ≤ x.val := by exact_mod_cast hx
  rw [nextPrice_of_pos hP hL]
  cases exact <;> cases dir <;> simp only at h ⊢
  case input.aToB =>
    obtain ⟨next', h', hback⟩ := exists_priceFromA_enters hL x'
    obtain ⟨hpos, hreach⟩ := priceFromA_enters_ok hP hL h'
    exact ⟨next', h', hback, priceFromA_enters_least hP hL h hpos (hreach.trans hx')⟩
  case input.bToA =>
    obtain ⟨next', h', hnear⟩ := exists_priceFromB_enters hL h hx
    exact ⟨next', h', (priceFromB_enters_ok hL h').1, hnear⟩
  case output.aToB =>
    obtain ⟨-, hfree⟩ := priceFromB_leaves_ok hL h
    obtain ⟨next', h', hnear⟩ := exists_priceFromB_leaves hL (hx'.trans hfree)
    exact ⟨next', h', (priceFromB_leaves_ok hL h').1, hnear⟩
  case output.bToA =>
    obtain ⟨hpos, hfree⟩ := priceFromA_leaves_ok hP hL h
    exact exists_priceFromA_leaves hP hL hpos (hx'.trans hfree)

end

end Curve

end RangePool
