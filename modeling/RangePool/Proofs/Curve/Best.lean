import RangePool.Proofs.Curve.Monotone
/-!
The formulas for the next price and those for the amount between two prices fit together, although they were found
apart and are rounded against each other. A price along the way is paid for just when it lies no farther than the next
price for what is given, and it frees enough just when it lies no nearer than the next price for what is wanted. So a
next price is the best one there is, and it is missing only where there is none.
-/
set_option autoImplicit false

namespace RangePool

namespace Curve

def due (dir : Direction) (P Q : Price) (L : Liquidity) : Except Fault (Word 256) :=
  match dir with
  | .aToB => wideA .up Q P L
  | .bToA => wideB .up P Q L

def freed (dir : Direction) (P Q : Price) (L : Liquidity) : Except Fault (Word 256) :=
  match dir with
  | .aToB => wideB .down Q P L
  | .bToA => wideA .down P Q L

/-- For what is due when the price goes to `Q` the amount `x` is enough, but not for any price beyond. -/
structure Farthest (dir : Direction) (P : Price) (L : Liquidity) (x : Amount) (Q : Price) : Prop where
  leads : dir.Leads P Q
  paid : ∃ w, due dir P Q L = .ok w ∧ w.val ≤ x.val
  beyond : ∀ R, 0 < R.val → dir.Leads Q R → R ≠ Q → ∃ w, due dir P R L = .ok w ∧ x.val < w.val

/-- When the price goes to `Q` it frees the amount `x`, but not at any price before. -/
structure Nearest (dir : Direction) (P : Price) (L : Liquidity) (x : Amount) (Q : Price) : Prop where
  leads : dir.Leads P Q
  frees : ∃ w, freed dir P Q L = .ok w ∧ x.val ≤ w.val
  before : ∀ R, dir.Leads P R → dir.Leads R Q → R ≠ Q → ∃ w, freed dir P R L = .ok w ∧ w.val < x.val

/-- The numbers above `P`, prices or not, for which `x` of token B is enough. -/
def reach (P : Price) (L : Liquidity) (x : Amount) : Set Nat :=
  {M | P.val ≤ M ∧ Rounding.up.quotient (L.val * (M - P.val)) (Nat.pow 2 128) ≤ x.val}

def spanIn : Direction → Price → Price → ℚ
  | .aToB, P, Q => spanA Q P
  | .bToA, P, Q => spanB P Q

def spanOut : Direction → Price → Price → ℚ
  | .aToB, P, Q => spanB Q P
  | .bToA, P, Q => spanA P Q

section
variable {lower upper : Price}

theorem quotient_span_lt (r : Rounding) (L : Liquidity) (lower upper : Price) (d : Nat) :
    r.quotient (L.val * (upper.val - lower.val)) d < Nat.pow 2 256 := by
  have hspan : upper.val - lower.val < Nat.pow 2 128 :=
    Nat.lt_of_le_of_lt (Nat.sub_le _ _) upper.isLt
  exact Nat.lt_of_le_of_lt (r.quotient_le _ _)
    (Nat.lt_of_lt_of_eq (Nat.mul_lt_mul'' L.isLt hspan) (Nat.pow_add 2 128 128).symm)

theorem exists_wideA (r : Rounding) (L : Liquidity) (hl : 0 < lower.val) (hle : lower.val ≤ upper.val) :
    ∃ w, wideA r lower upper L = .ok w ∧
      ∀ k : Nat, r.Sides k w.val ↔ r.Sides k (L.val * spanA lower upper) := by
  refine ⟨⟨_, quotient_span_lt r L lower upper _⟩, wideA_eq_ok.2 ⟨hle, hl, rfl⟩, fun k => ?_⟩
  rw [mul_spanA L.val hl hle, r.sides_iff _ (Nat.mul_pos hl (by omega))]

theorem exists_wideB (r : Rounding) (L : Liquidity) (hle : lower.val ≤ upper.val) :
    ∃ w, wideB r lower upper L = .ok w ∧
      ∀ k : Nat, r.Sides k w.val ↔ r.Sides k (L.val * spanB lower upper) := by
  refine ⟨⟨_, quotient_span_lt r L lower upper _⟩, wideB_eq_ok.2 ⟨hle, rfl⟩, fun k => ?_⟩
  rw [mul_spanB L.val hle, r.sides_iff _ (Nat.two_pow_pos 128)]

end

section
variable {exact : Exact} {dir : Direction} {P Q next M : Price} {L : Liquidity} {x : Amount}

theorem exists_due (L : Liquidity) (hQ : 0 < Q.val) (h : dir.Leads P Q) :
    ∃ w, due dir P Q L = .ok w ∧ ∀ k : Nat, w.val ≤ k ↔ L.val * spanIn dir P Q ≤ k := by
  cases dir with
  | aToB =>
    obtain ⟨w, hw, hsides⟩ := exists_wideA .up L hQ h
    exact ⟨w, hw, fun k => Nat.cast_le.symm.trans (hsides k)⟩
  | bToA =>
    obtain ⟨w, hw, hsides⟩ := exists_wideB .up L h
    exact ⟨w, hw, fun k => Nat.cast_le.symm.trans (hsides k)⟩

theorem exists_freed (L : Liquidity) (hP : 0 < P.val) (h : dir.Leads P Q) :
    ∃ w, freed dir P Q L = .ok w ∧ ∀ k : Nat, k ≤ w.val ↔ (k : ℚ) ≤ L.val * spanOut dir P Q := by
  cases dir with
  | aToB =>
    obtain ⟨w, hw, hsides⟩ := exists_wideB .down L h
    exact ⟨w, hw, fun k => Nat.cast_le.symm.trans (hsides k)⟩
  | bToA =>
    obtain ⟨w, hw, hsides⟩ := exists_wideA .down L hP h
    exact ⟨w, hw, fun k => Nat.cast_le.symm.trans (hsides k)⟩

theorem spanIn_mono (hP : 0 < P.val) (hQ : 0 < Q.val) (h : dir.Leads M Q) :
    spanIn dir P M ≤ spanIn dir P Q := by
  cases dir with
  | aToB => exact spanA_mono hQ h hP (Nat.le_refl _)
  | bToA => exact spanB_mono (Nat.le_refl _) h

theorem spanOut_mono (hP : 0 < P.val) (hPQ : dir.Leads P Q) (h : dir.Leads Q M) :
    spanOut dir P Q ≤ spanOut dir P M := by
  cases dir with
  | aToB => exact spanB_mono h (Nat.le_refl _)
  | bToA => exact spanA_mono hP (Nat.le_refl _) (Nat.lt_of_lt_of_le hP hPQ) h

theorem nextPrice_leads (h : nextPrice exact dir P L x = .ok next) : dir.Leads P next := by
  obtain ⟨next', h', hleads, -⟩ := exists_nextPrice_le h (Nat.le_refl _)
  cases h.symm.trans h'
  exact hleads

theorem nextPrice_input_ok (h : nextPrice .input dir P L x = .ok next) :
    0 < next.val ∧ L.val * spanIn dir P next ≤ x.val := by
  obtain ⟨hP, hL, hn⟩ := nextPrice_ok h
  cases dir with
  | aToB => exact priceFromA_enters_ok hP hL hn
  | bToA =>
    obtain ⟨hback, hpaid⟩ := priceFromB_enters_ok hL hn
    exact ⟨Nat.lt_of_lt_of_le hP hback, hpaid⟩

theorem nextPrice_output_ok (h : nextPrice .output dir P L x = .ok next) :
    x.val ≤ L.val * spanOut dir P next := by
  obtain ⟨hP, hL, hn⟩ := nextPrice_ok h
  cases dir with
  | aToB => exact (priceFromB_leaves_ok hL hn).2
  | bToA => exact (priceFromA_leaves_ok hP hL hn).2

/-- An amount is enough for a price just when the price lies no farther than the next price for it. -/
theorem nextPrice_input_iff (h : nextPrice .input dir P L x = .ok next) (hM : 0 < M.val) :
    L.val * spanIn dir P M ≤ x.val ↔ dir.Leads M next := by
  obtain ⟨hpos, hpaid⟩ := nextPrice_input_ok h
  obtain ⟨hP, hL, hn⟩ := nextPrice_ok h
  constructor
  · intro hx
    cases dir with
    | aToB => exact priceFromA_enters_least hP hL hn hM hx
    | bToA => exact priceFromB_enters_most hL hn hx
  · intro hnear
    exact (mul_le_mul_of_nonneg_left (spanIn_mono hP hpos hnear) (Nat.cast_nonneg _)).trans hpaid

/-- Where a price frees the amount there is a next price, and it lies no farther. Token B may run out, so that the
price is zero. -/
theorem exists_nextPrice_output (hP : 0 < P.val) (hL : 0 < L.val) (hM : dir = .bToA → 0 < M.val)
    (hx : x.val ≤ L.val * spanOut dir P M) :
    ∃ next, nextPrice .output dir P L x = .ok next ∧ dir.Leads next M := by
  rw [nextPrice_of_pos hP hL]
  cases dir with
  | aToB => exact exists_priceFromB_leaves hL hx
  | bToA =>
    obtain ⟨next, hn, -, hnear⟩ := exists_priceFromA_leaves hP hL (hM rfl) hx
    exact ⟨next, hn, hnear⟩

/-- A price frees an amount just when it lies no nearer than the next price for it. -/
theorem nextPrice_output_iff (h : nextPrice .output dir P L x = .ok next) (hPM : dir.Leads P M) :
    x.val ≤ L.val * spanOut dir P M ↔ dir.Leads next M := by
  obtain ⟨hP, hL, -⟩ := nextPrice_ok h
  constructor
  · intro hx
    obtain ⟨next', h', hnear⟩ := exists_nextPrice_output hP hL (hPM.pos hP) hx
    cases h.symm.trans h'
    exact hnear
  · intro hfar
    have hspan := spanOut_mono hP (nextPrice_leads h) hfar
    exact (nextPrice_output_ok h).trans (mul_le_mul_of_nonneg_left hspan (Nat.cast_nonneg _))

theorem nextPrice_farthest (h : nextPrice .input dir P L x = .ok next) : Farthest dir P L x next := by
  have hleads := nextPrice_leads h
  obtain ⟨hpos, -⟩ := nextPrice_input_ok h
  refine ⟨hleads, ?_, fun R hR hfar hne => ?_⟩
  · obtain ⟨w, hw, hiff⟩ := exists_due L hpos hleads
    exact ⟨w, hw, (hiff _).2 ((nextPrice_input_iff h hpos).2 (.refl _ _))⟩
  · obtain ⟨w, hw, hiff⟩ := exists_due L hR (hleads.trans hfar)
    refine ⟨w, hw, Nat.not_le.1 fun hle => hne ?_⟩
    exact ((nextPrice_input_iff h hR).1 ((hiff _).1 hle)).antisymm hfar

theorem nextPrice_nearest (h : nextPrice .output dir P L x = .ok next) : Nearest dir P L x next := by
  have hleads := nextPrice_leads h
  obtain ⟨hP, -, -⟩ := nextPrice_ok h
  refine ⟨hleads, ?_, fun R hR hnear hne => ?_⟩
  · obtain ⟨w, hw, hiff⟩ := exists_freed L hP hleads
    exact ⟨w, hw, (hiff _).2 ((nextPrice_output_iff h hleads).2 (.refl _ _))⟩
  · obtain ⟨w, hw, hiff⟩ := exists_freed L hP hR
    refine ⟨w, hw, Nat.not_le.1 fun hle => hne ?_⟩
    exact hnear.antisymm ((nextPrice_output_iff h hR).1 ((hiff _).1 hle))

theorem nextPrice_output_fails_iff (hP : 0 < P.val) (hL : 0 < L.val) :
    (∃ e, nextPrice .output dir P L x = .error e) ↔ ∀ Q, ¬Nearest dir P L x Q := by
  rw [exists_error_iff]
  refine ⟨fun h Q hQ => ?_, fun h next hn => h next (nextPrice_nearest hn)⟩
  obtain ⟨w, hw, hx⟩ := hQ.frees
  obtain ⟨w', hw', hiff⟩ := exists_freed L hP hQ.leads
  cases hw.symm.trans hw'
  obtain ⟨next, hn, -⟩ := exists_nextPrice_output hP hL (hQ.leads.pos hP) ((hiff _).1 hx)
  exact h next hn

theorem isGreatest_reach (hL : 0 < L.val) : IsGreatest (reach P L x)
    (P.val + Rounding.down.quotient (x.val * Nat.pow 2 128) L.val) := by
  have hreach (M : Nat) : M ∈ reach P L x ↔ P.val ≤ M ∧
      M ≤ P.val + Rounding.down.quotient (x.val * Nat.pow 2 128) L.val := by
    refine and_congr_right fun hM => ?_
    have hq : M - P.val ≤ Rounding.down.quotient (x.val * Nat.pow 2 128) L.val ↔ _ :=
      Rounding.le_quotient_down hL
    rw [Rounding.quotient_up_le (Nat.two_pow_pos 128), Nat.mul_comm, ← hq]
    omega
  exact ⟨(hreach _).2 ⟨Nat.le_add_right _ _, Nat.le_refl _⟩, fun M hM => ((hreach M).1 hM).2⟩

theorem nextPrice_input_bToA_fails_iff (hP : 0 < P.val) (hL : 0 < L.val) :
    (∃ e, nextPrice .input .bToA P L x = .error e) ↔
      ∃ M, IsGreatest (reach P L x) M ∧ Nat.pow 2 128 ≤ M := by
  simp only [nextPrice_of_pos hP hL, priceFromB, if_neg (Word.ne_zero_of_pos hL), Word.fit_eq_error]
  constructor
  · rintro ⟨e, hwide, -⟩
    exact ⟨_, isGreatest_reach hL, hwide⟩
  · rintro ⟨M, hM, hwide⟩
    exact ⟨_, hM.unique (isGreatest_reach hL) ▸ hwide, rfl⟩

/-- The next price is the farthest one that is paid for, and the nearest one that frees enough. Token A can always be
put in. Token B cannot be where the price would leave its width, and nothing can be taken out that no price frees. -/
theorem nextPrice_is_best (hP : 0 < P.val) (hL : 0 < L.val) (x : Amount) :
    (∃ next, nextPrice .input .aToB P L x = .ok next) ∧
    (∀ dir next, nextPrice .input dir P L x = .ok next → Farthest dir P L x next) ∧
    (∀ dir next, nextPrice .output dir P L x = .ok next → Nearest dir P L x next) ∧
    ((∃ e, nextPrice .input .bToA P L x = .error e) ↔ (∀ Q, ¬Farthest .bToA P L x Q) ∨
      ∃ M, IsGreatest (reach P L x) M ∧ Nat.pow 2 128 ≤ M) ∧
    ∀ dir, (∃ e, nextPrice .output dir P L x = .error e) ↔ ∀ Q, ¬Nearest dir P L x Q := by
  refine ⟨?_, fun _ _ => nextPrice_farthest, fun _ _ => nextPrice_nearest, ?_,
    fun _ => nextPrice_output_fails_iff hP hL⟩
  · obtain ⟨next, hn, -⟩ := exists_priceFromA_enters hL x
    exact ⟨next, (nextPrice_of_pos hP hL).trans hn⟩
  · refine ⟨fun h => .inr ((nextPrice_input_bToA_fails_iff hP hL).1 h), ?_⟩
    rintro (hnone | hfar)
    · exact exists_error_iff.2 fun next hn => hnone next (nextPrice_farthest hn)
    · exact (nextPrice_input_bToA_fails_iff hP hL).2 hfar

end

def samplePrice : Price := .lit 128 (Nat.pow 2 65)
def sampleLiquidity : Liquidity := .lit 128 (Nat.pow 2 80)

theorem nextPrice_is_best_sample : 0 < samplePrice.val ∧ 0 < sampleLiquidity.val ∧
    Farthest .aToB samplePrice sampleLiquidity (.lit 64 1000) (.lit 128 35800930455301740545) ∧
    Farthest .bToA samplePrice sampleLiquidity (.lit 64 1000) (.lit 128 37174963124129759232) ∧
    Nearest .aToB samplePrice sampleLiquidity (.lit 64 1000) (.lit 128 36612013170708447232) ∧
    Nearest .bToA samplePrice sampleLiquidity (.lit 64 1000) (.lit 128 38054829375932673594) ∧
    ∀ dir Q, ¬Nearest dir samplePrice (.lit 128 1) (.lit 64 1) Q := by
  have hP : 0 < samplePrice.val := by decide
  have hL : 0 < sampleLiquidity.val := by decide
  obtain ⟨-, hfar, hnear, -⟩ := nextPrice_is_best hP hL (.lit 64 1000)
  obtain ⟨-, -, -, -, hnone⟩ := nextPrice_is_best hP (by decide : 0 < (Word.lit 128 1).val) (.lit 64 1)
  refine ⟨hP, hL, hfar _ _ ?_, hfar _ _ ?_, hnear _ _ ?_, hnear _ _ ?_, fun dir => (hnone dir).1 ?_⟩
  · exact toOption_eq_some.1 (by decide +kernel)
  · exact toOption_eq_some.1 (by decide +kernel)
  · exact toOption_eq_some.1 (by decide +kernel)
  · exact toOption_eq_some.1 (by decide +kernel)
  · cases dir <;> exact toOption_eq_none.1 (by decide +kernel)

end Curve

end RangePool
