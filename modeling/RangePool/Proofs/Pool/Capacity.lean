import RangePool.Proofs.Pool.Refusal
/-!
How much the range can take in. The limit is an amount between two prices rounded down, a trade is a next price rounded
on its own; they meet, because a price is paid for just when it lies no farther than the next price. Up to the limit
the range refuses no trade; beyond it a trade ends at the bound of the range, or it does not go through.
-/
set_option autoImplicit false

namespace RangePool

namespace Curve

section
variable {dir : Direction} {P Q M : Price} {L : Liquidity} {x : Amount}

theorem spanIn_le_iff (P : Price) (hM : 0 < M.val) (hQ : 0 < Q.val) :
    spanIn dir P M ≤ spanIn dir P Q ↔ dir.Leads M Q := by
  cases dir with
  | aToB =>
    have hM' : (0 : ℚ) < M.val := by exact_mod_cast hM
    have hQ' : (0 : ℚ) < Q.val := by exact_mod_cast hQ
    show spanA M P ≤ spanA Q P ↔ Q.val ≤ M.val
    rw [spanA, spanA, sub_le_sub_iff_right, one_div_le_one_div hM' hQ']
    exact_mod_cast Iff.rfl
  | bToA =>
    show spanB P M ≤ spanB P Q ↔ M.val ≤ Q.val
    rw [spanB, spanB, div_le_div_iff_of_pos_right (by positivity), sub_le_sub_iff_right]
    exact_mod_cast Iff.rfl

/-- What does not pay for going beyond `Q` has a next price, and it lies on the way to `Q`. -/
theorem exists_nextPrice_input (hP : 0 < P.val) (hL : 0 < L.val) (hQ : 0 < Q.val)
    (hx : x.val ≤ L.val * spanIn dir P Q) :
    ∃ next, nextPrice .input dir P L x = .ok next ∧ dir.Leads P next ∧ dir.Leads next Q := by
  have hfits : soldTo dir P L x.val < Nat.pow 2 128 := by
    cases dir with
    | aToB => exact Nat.lt_of_le_of_lt (soldTo_leads P hL x.val).1 P.isLt
    | bToA =>
      have hroom := le_mul_spanB_iff.1 hx
      have hle : P.val ≤ Q.val := Nat.le_of_mul_le_mul_left (by omega) hL
      have hstep : Rounding.down.quotient (x.val * Nat.pow 2 128) L.val ≤ Q.val - P.val := by
        refine Nat.div_le_of_le_mul ?_
        rw [Nat.mul_sub]
        omega
      have hQ' : Q.val < Nat.pow 2 128 := Q.isLt
      show P.val + Rounding.down.quotient (x.val * Nat.pow 2 128) L.val < Nat.pow 2 128
      omega
  have hn : nextPrice .input dir P L x = .ok ⟨_, hfits⟩ := by
    rw [nextPrice_input_eq hP hL, Word.fit_eq_ok]
  obtain ⟨hpos, hpaid⟩ := nextPrice_input_ok hn
  have hL' : (0 : ℚ) < L.val := by exact_mod_cast hL
  have hspan := (mul_le_mul_iff_right₀ hL').1 (hpaid.trans hx)
  exact ⟨_, hn, nextPrice_leads hn, (spanIn_le_iff P hpos hQ).1 hspan⟩

end

end Curve

namespace Pool

def bound (p : Pool) : Direction → Price
  | .aToB => p.minPrice
  | .bToA => p.maxPrice

section
variable {p : Pool} {dir : Direction} {next : Price} {x m : Amount} {fee : Placement} {now : Point} {e : Fault}

theorem Ranged.bound_pos (hp : p.Ranged) (dir : Direction) : 0 < (p.bound dir).val := by
  cases dir with
  | aToB => exact hp.pos
  | bToA => exact Nat.lt_of_lt_of_le hp.price_pos hp.high

theorem keeps_iff : p.Keeps dir next ↔ dir.Leads next (p.bound dir) := by
  cases dir <;> exact Iff.rfl

theorem Ranged.within (hp : p.Ranged) (hback : dir.Leads p.price next)
    (hnear : dir.Leads next (p.bound dir)) : p.minPrice ≤ next ∧ next ≤ p.maxPrice := by
  cases dir with
  | aToB => exact ⟨hnear, Nat.le_trans hback hp.high⟩
  | bToA => exact ⟨Nat.le_trans hp.low hback, hnear⟩

/-- The limit holds the amounts that do not pay for going beyond the bound, and no others. -/
theorem exists_maxInput (hp : p.Ranged) (dir : Direction) : ∃ m, p.maxInput dir = .ok m ∧
    ∀ x : Amount, x.val ≤ m.val ↔ x.val ≤ p.liquidity.val * Curve.spanIn dir p.price (p.bound dir) := by
  have hcapped (w : Word 256) (x : Amount) : x.val ≤ ((Word.ofNat? 64 w.val).getD .top).val ↔ x.val ≤ w.val := by
    unfold Word.ofNat?
    split
    · rfl
    · rename_i hwide
      have hx : x.val < Nat.pow 2 64 := x.isLt
      exact iff_of_true (Nat.le_sub_one_of_lt hx) (Nat.le_trans hx.le (Nat.not_lt.1 hwide))
  cases dir with
  | aToB =>
    obtain ⟨w, hw, hsides⟩ := Curve.exists_wideA .down p.liquidity hp.pos hp.low
    refine ⟨_, bind_eq_ok.2 ⟨w, hw, rfl⟩, fun x => (hcapped w x).trans ?_⟩
    exact Nat.cast_le.symm.trans (hsides x.val)
  | bToA =>
    obtain ⟨w, hw, hsides⟩ := Curve.exists_wideB .down p.liquidity hp.high
    refine ⟨_, bind_eq_ok.2 ⟨w, hw, rfl⟩, fun x => (hcapped w x).trans ?_⟩
    exact Nat.cast_le.symm.trans (hsides x.val)

theorem leads_past_bound (hp : p.Ranged)
    (hm : ∀ x : Amount, x.val ≤ m.val ↔ x.val ≤ p.liquidity.val * Curve.spanIn dir p.price (p.bound dir))
    (hx : m < x) (hn : Curve.nextPrice .input dir p.price p.liquidity x = .ok next) :
    dir.Leads (p.bound dir) next := by
  have hpaid := not_le.1 (mt (hm x).2 (Nat.not_le.2 hx))
  exact (Curve.nextPrice_input_iff hn (hp.bound_pos dir)).1 hpaid.le

theorem lt_or_lt_of_not_keeps (h : ¬p.Keeps dir next) : next < p.minPrice ∨ p.maxPrice < next := by
  cases dir with
  | aToB => exact .inl (Nat.not_le.1 h)
  | bToA => exact .inr (Nat.not_le.1 h)

theorem move_keeps_error (hn : Curve.nextPrice .input dir p.price p.liquidity x = .ok next)
    (hkeeps : p.Keeps dir next) (h : p.move .input dir x = .error e) : ∃ s, e = .arithmetic s := by
  obtain hn' | ⟨next', hn', ⟨hout, -⟩ | ⟨-, hcounter⟩⟩ := move_eq_error.1 h
  · cases hn.symm.trans hn'
  · cases hn.symm.trans hn'
    exact absurd hkeeps hout
  · exact counterAt_error hcounter

theorem quote_input_kind (hm : ∀ y : Amount, y.val ≤ x.val → ∀ e, p.move .input dir y = .error e →
      ∃ s, e = .arithmetic s) (h : p.quote .input dir fee now x = .error e) :
    e.kind ≠ .priceRangeViolation := by
  intro hkind
  have hcharge (y : Amount) : p.fees.charge .input y fee.referred now p.activationPoint ≠ .error e := by
    refine FeePlan.charge_ne_error ?_ ?_ ?_ _ _ _ _ _ _
    · rintro s rfl
      cases hkind
    · rintro rfl
      cases hkind
    · rintro rfl
      cases hkind
  have hmove (y : Amount) (hy : y.val ≤ x.val) : p.move .input dir y ≠ .error e := by
    intro hy'
    obtain ⟨s, rfl⟩ := hm y hy e hy'
    cases hkind
  cases hc : chargesGiven .input fee with
  | true =>
    obtain h | ⟨c, hc', h⟩ := (quote_charged_error hc).1 h
    · exact hcharge x h
    · obtain ⟨n, taken, -, -, hnet, -⟩ := FeePlan.charge_input_eq_ok.1 hc'
      exact hmove c.amount (by omega) h
  | false =>
    obtain h | ⟨_, other, -, h⟩ := (quote_uncharged_error hc).1 h
    · exact hmove x (Nat.le_refl _) h
    · exact hcharge other h

/-- The limit marks the bound of the range. Up to it the next price is there and within the range, so that the range
refuses no trade whatever the fee. Beyond it the next price is the bound or out of the range, where it is refused; a
trade that goes through with more on the curve ends at the bound. -/
theorem maxInput_marks_bound (hp : p.Ranged) (hL : 0 < p.liquidity.val) (dir : Direction) :
    ∃ m, p.maxInput dir = .ok m ∧
      (∀ x, x ≤ m →
        (∃ next, Curve.nextPrice .input dir p.price p.liquidity x = .ok next ∧
          p.minPrice ≤ next ∧ next ≤ p.maxPrice) ∧
        ∀ fee now e, p.quote .input dir fee now x = .error e → e.kind ≠ .priceRangeViolation) ∧
      (∀ x, m < x → ∀ next, Curve.nextPrice .input dir p.price p.liquidity x = .ok next →
        next = p.bound dir ∨
          (next < p.minPrice ∨ p.maxPrice < next) ∧ p.move .input dir x = .error (outside dir)) ∧
      ∀ fee now x q, p.quote .input dir fee now x = .ok q →
        m.val < q.input.val - (if fee.onInput then q.shares.sum else 0) → q.nextPrice = p.bound dir := by
  have hP := hp.price_pos
  obtain ⟨m, hmax, hm⟩ := exists_maxInput hp dir
  have hreach (x : Amount) (hx : x ≤ m) := Curve.exists_nextPrice_input hP hL (hp.bound_pos dir) ((hm x).1 hx)
  refine ⟨m, hmax, fun x hx => ⟨?_, fun fee now e h => ?_⟩, fun x hx next hn => ?_, fun fee now x q hq hx => ?_⟩
  · obtain ⟨next, hn, hback, hnear⟩ := hreach x hx
    exact ⟨next, hn, hp.within hback hnear⟩
  · refine quote_input_kind (fun y hy e he => ?_) h
    obtain ⟨next, hn, -, hnear⟩ := hreach y (Nat.le_trans hy hx)
    exact move_keeps_error hn (keeps_iff.2 hnear) he
  · have hpast := leads_past_bound hp hm hx hn
    by_cases hkeeps : p.Keeps dir next
    · exact .inl ((keeps_iff.1 hkeeps).antisymm hpast)
    · exact .inr ⟨lt_or_lt_of_not_keeps hkeeps, move_eq_error.2 (.inr ⟨next, hn, .inl ⟨hkeeps, rfl⟩⟩)⟩
  · obtain ⟨-, into, out, hcrosses, hin, -⟩ := quote_crosses hq
    obtain ⟨hn, hkeeps, -⟩ := move_eq_ok.1 hcrosses
    have hinto : m < into := Nat.lt_of_lt_of_eq hx (by omega)
    exact (keeps_iff.1 hkeeps).antisymm (leads_past_bound hp hm hinto hn)

end

def narrowPool : Pool :=
  { widePool with
    minPrice := .lit 128 20000000000000000000
    maxPrice := .lit 128 40000000000000000000 }

theorem maxInput_marks_bound_narrow : narrowPool.maxInput .aToB = .ok (.lit 64 211168) ∧
    (∀ x, x ≤ .lit 64 211168 →
      (∃ next, Curve.nextPrice .input .aToB narrowPool.price narrowPool.liquidity x = .ok next ∧
        narrowPool.minPrice ≤ next ∧ next ≤ narrowPool.maxPrice) ∧
      ∀ fee now e, narrowPool.quote .input .aToB fee now x = .error e → e.kind ≠ .priceRangeViolation) ∧
    narrowPool.move .input .aToB (.lit 64 211169) = .error .priceBelowRange := by
  have hp : narrowPool.Ranged := ⟨by decide, by decide, by decide⟩
  obtain ⟨m, hm, hwithin, hbeyond, -⟩ := maxInput_marks_bound hp (by decide) .aToB
  have hmax : narrowPool.maxInput .aToB = .ok (.lit 64 211168) := toOption_eq_some.1 (by decide +kernel)
  obtain rfl : m = .lit 64 211168 := eq_of_ok hm hmax
  have hn : Curve.nextPrice .input .aToB narrowPool.price narrowPool.liquidity (.lit 64 211169) =
      .ok (.lit 128 19999982732696204229) := toOption_eq_some.1 (by decide +kernel)
  obtain h | ⟨-, hrefused⟩ := hbeyond (.lit 64 211169) (by decide) _ hn
  · exact absurd h (by decide)
  · exact ⟨hmax, hwithin, hrefused⟩

end Pool

end RangePool
