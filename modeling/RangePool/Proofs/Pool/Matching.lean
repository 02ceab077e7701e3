import RangePool.Proofs.Curve.Best
import RangePool.Proofs.Fee.Gross
import RangePool.Proofs.Pool.Trade
/-!
The two ways to ask for a trade are a matched pair. A trade on the curve is optimal among all ways to walk it: an
exact input buys the most that it can, an exact output costs the least, and both mean the same walks. The fee before
or after the curve is matched in the same way, so that a quote for what is wanted is the least of the quotes that
deliver it.
-/
set_option autoImplicit false

namespace RangePool

namespace Pool

section
variable {p : Pool} {dir : Direction} {next M : Price} {x y other : Amount} {into out : Nat}

theorem MovesTo.mono (h : p.MovesTo dir M into out) {into' out' : Nat} (hin : into ≤ into')
    (hout : out' ≤ out) : p.MovesTo dir M into' out' where
  liquid := h.liquid
  next_pos := h.next_pos
  low := h.low
  high := h.high
  gained := h.gained.trans (by exact_mod_cast hin)
  lost := le_trans (by exact_mod_cast hout) h.lost

theorem densityAt_input_le (hP : 0 < next.val) (hQ : 0 < M.val) (h : dir.Leads next M) :
    p.densityAt next dir.input ≤ p.densityAt M dir.input := by
  cases dir with
  | aToB => exact not_lt.1 (mt (densityAt_a_lt hQ hP).1 (Nat.not_lt.2 h))
  | bToA => exact not_lt.1 (mt densityAt_b_lt.1 (Nat.not_lt.2 h))

theorem densityAt_output_le (hP : 0 < next.val) (hQ : 0 < M.val) (h : dir.Leads next M) :
    p.densityAt M dir.output ≤ p.densityAt next dir.output := by
  cases dir with
  | aToB => exact not_lt.1 (mt densityAt_b_lt.1 (Nat.not_lt.2 h))
  | bToA => exact not_lt.1 (mt (densityAt_a_lt hP hQ).1 (Nat.not_lt.2 h))

/-- The amount on the other side of a trade is the best integer for the way that the price goes. -/
theorem move_best {exact : Curve.Exact} (h : p.move exact dir x = .ok (next, other)) :
    Curve.nextPrice exact dir p.price p.liquidity x = .ok next ∧ match exact with
      | .input => ∀ k : Nat,
        k ≤ p.liquidity.val * (p.density dir.output - p.densityAt next dir.output) → k ≤ other.val
      | .output => ∀ k : Nat,
        p.liquidity.val * (p.densityAt next dir.input - p.density dir.input) ≤ k → other.val ≤ k := by
  obtain ⟨hn, -, hother⟩ := move_eq_ok.1 h
  refine ⟨hn, ?_⟩
  cases exact <;> cases dir <;> intro k hk
  case input.aToB =>
    rw [density, Direction.output, densityAt_sub_b] at hk
    exact Nat.cast_le.1 (Curve.deltaB_best hother hk)
  case input.bToA =>
    rw [density, Direction.output, densityAt_sub_a] at hk
    exact Nat.cast_le.1 (Curve.deltaA_best hother hk)
  case output.aToB =>
    rw [density, Direction.input, densityAt_sub_a] at hk
    exact Nat.cast_le.1 (Curve.deltaA_best hother hk)
  case output.bToA =>
    rw [density, Direction.input, densityAt_sub_b] at hk
    exact Nat.cast_le.1 (Curve.deltaB_best hother hk)

theorem densityAt_sub_input (p : Pool) (dir : Direction) (M : Price) :
    p.densityAt M dir.input - p.density dir.input = Curve.spanIn dir p.price M := by
  cases dir with
  | aToB => exact densityAt_sub_a ..
  | bToA => exact densityAt_sub_b ..

theorem densityAt_sub_output (p : Pool) (dir : Direction) (M : Price) :
    p.density dir.output - p.densityAt M dir.output = Curve.spanOut dir p.price M := by
  cases dir with
  | aToB => exact densityAt_sub_b ..
  | bToA => exact densityAt_sub_a ..

theorem move_input_farthest (h : p.move .input dir x = .ok (next, other))
    (hm : p.MovesTo dir M x.val out) : dir.Leads M next := by
  have hin := hm.gained
  rw [densityAt_sub_input] at hin
  exact (Curve.nextPrice_input_iff (move_best h).1 hm.next_pos).1 hin

theorem move_output_nearest (h : p.move .output dir y = .ok (next, other))
    (hm : p.MovesTo dir M into y.val) : dir.Leads next M := by
  have hn := (move_best h).1
  obtain ⟨hP, hL, -⟩ := Curve.nextPrice_ok hn
  have hout := hm.lost
  rw [densityAt_sub_output] at hout
  obtain ⟨next', hn', hnear⟩ := Curve.exists_nextPrice_output hP hL (fun _ => hm.next_pos) hout
  cases hn.symm.trans hn'
  exact hnear

theorem move_input_most (h : p.move .input dir x = .ok (next, other))
    (hm : p.MovesTo dir M x.val out) : out ≤ other.val := by
  have hfar := densityAt_output_le (p := p) hm.next_pos (move_ok h).next_pos (move_input_farthest h hm)
  exact (move_best h).2 out (hm.lost.trans
    (mul_le_mul_of_nonneg_left (sub_le_sub_left hfar _) (Nat.cast_nonneg _)))

theorem move_output_least (h : p.move .output dir y = .ok (next, other))
    (hm : p.MovesTo dir M into y.val) : other.val ≤ into := by
  have hnear := densityAt_input_le (p := p) (move_ok h).next_pos hm.next_pos (move_output_nearest h hm)
  exact (move_best h).2 into (le_trans
    (mul_le_mul_of_nonneg_left (sub_le_sub_right hnear _) (Nat.cast_nonneg _)) hm.gained)

theorem exists_counterAt_output (hnext : 0 < next.val) (hway : dir.Leads p.price next)
    (hx : p.liquidity.val * Curve.spanIn dir p.price next ≤ x.val) :
    ∃ other, p.counterAt next .output dir = .ok other ∧ other.val ≤ x.val := by
  cases dir with
  | aToB =>
    obtain ⟨z, hz⟩ := Curve.exists_deltaA hway hnext hx
    have hbest : (z.val : ℚ) ≤ x.val := Curve.deltaA_best hz hx
    exact ⟨z, hz, by exact_mod_cast hbest⟩
  | bToA =>
    obtain ⟨z, hz⟩ := Curve.exists_deltaB hway hx
    have hbest : (z.val : ℚ) ≤ x.val := Curve.deltaB_best hz hx
    exact ⟨z, hz, by exact_mod_cast hbest⟩

theorem exists_move_output (hp : p.Ranged) (hm : p.MovesTo dir M x.val y.val) :
    ∃ next other, p.move .output dir y = .ok (next, other) ∧ other.val ≤ x.val := by
  obtain ⟨hL, hM, hlow, hhigh, hin, hout⟩ := hm
  have hP := hp.price_pos
  rw [densityAt_sub_input] at hin
  rw [densityAt_sub_output] at hout
  -- the trade goes no farther than the walk, so that it stays in the range and takes no more
  obtain ⟨next, hn, hnear⟩ := Curve.exists_nextPrice_output hP hL (fun _ => hM) hout
  have hway := Curve.nextPrice_leads hn
  have hkeeps : p.Keeps dir next ∧ 0 < next.val := by
    cases dir with
    | aToB => exact ⟨Nat.le_trans (hlow hp.low) hnear, Nat.lt_of_lt_of_le hM hnear⟩
    | bToA => exact ⟨Nat.le_trans hnear (hhigh hp.high), Nat.lt_of_lt_of_le hP hway⟩
  have hspan := mul_le_mul_of_nonneg_left (Curve.spanIn_mono hP hM hnear)
    (Nat.cast_nonneg (α := ℚ) p.liquidity.val)
  obtain ⟨other, hother, hle⟩ := exists_counterAt_output hkeeps.2 hway (hspan.trans hin)
  exact ⟨next, other, move_eq_ok.2 ⟨hn, hkeeps.1, hother⟩, hle⟩

/-- On the curve an exact input delivers `y` just when it covers the cost of an exact output of `y`. -/
theorem move_matched {z c : Amount} {M N : Price} (hin : p.move .input dir x = .ok (M, z))
    (hout : p.move .output dir y = .ok (N, c)) : y.val ≤ z.val ↔ c.val ≤ x.val := by
  have hM : p.MovesTo dir M x.val z.val := move_ok hin
  have hN : p.MovesTo dir N c.val y.val := move_ok hout
  constructor
  · intro hy
    exact move_output_least hout (hM.mono (Nat.le_refl _) hy)
  · intro hx
    exact move_input_most hin (hN.mono hx (Nat.le_refl _))

end

section
variable {p : Pool} {dir : Direction} {fee : Placement} {now : Point} {x y : Amount} {q u : Quote}

theorem quote_matched (hin : p.quote .input dir fee now x = .ok u)
    (hout : p.quote .output dir fee now y = .ok q) :
    y.val ≤ u.output.val ↔ q.input.val ≤ x.val := by
  cases hf : fee.onInput with
  | true =>
    have hgiven : chargesGiven .input fee = true := hf
    have hwanted : chargesGiven .output fee = false := by simp only [chargesGiven, hf, Bool.not_true]
    obtain ⟨-, c, hc, hz, -⟩ := (quote_charged hgiven).1 hin
    obtain ⟨-, w, d, hw, hd, hcost, -⟩ := (quote_uncharged hwanted).1 hout
    have hcost : q.input = d.amount := hcost
    rw [hcost]
    exact (move_matched hz hw).trans (FeePlan.charge_matched hc hd)
  | false =>
    have hgiven : chargesGiven .input fee = false := hf
    have hwanted : chargesGiven .output fee = true := by simp only [chargesGiven, hf, Bool.not_false]
    obtain ⟨-, z, c, hz, hc, hgain, -⟩ := (quote_uncharged hgiven).1 hin
    obtain ⟨-, d, hd, hw, -⟩ := (quote_charged hwanted).1 hout
    have hgain : u.output = c.amount := hgain
    rw [hgain]
    exact (FeePlan.charge_matched hc hd).trans (move_matched hz hw)

theorem exists_quote_output (hp : p.Ranged) (hv : p.fees.percents.validate = .ok ())
    (hin : p.quote .input dir fee now x = .ok u) (hy : y.val ≤ u.output.val) :
    ∃ q, p.quote .output dir fee now y = .ok q := by
  cases hf : fee.onInput with
  | true =>
    have hgiven : chargesGiven .input fee = true := hf
    have hwanted : chargesGiven .output fee = false := by simp only [chargesGiven, hf, Bool.not_true]
    obtain ⟨-, c, hc, hz, -⟩ := (quote_charged hgiven).1 hin
    obtain ⟨M, w, hw, hle⟩ := exists_move_output hp ((move_ok hz).mono (Nat.le_refl _) hy)
    obtain ⟨d, hd⟩ := FeePlan.exists_charge_output hv hc hle
    refine ⟨{ input := d.amount, output := y, nextPrice := M, shares := d.shares }, ?_⟩
    exact (quote_uncharged hwanted).2 ⟨rfl, w, d, hw, hd, rfl, rfl⟩
  | false =>
    have hgiven : chargesGiven .input fee = false := hf
    have hwanted : chargesGiven .output fee = true := by simp only [chargesGiven, hf, Bool.not_false]
    obtain ⟨-, z, c, hz, hc, hgain, -⟩ := (quote_uncharged hgiven).1 hin
    have hgain : u.output = c.amount := hgain
    rw [hgain] at hy
    obtain ⟨d, hd⟩ := FeePlan.exists_charge_output hv hc hy
    have hle := (FeePlan.charge_matched hc hd).1 hy
    obtain ⟨M, w, hw, -⟩ := exists_move_output hp ((move_ok hz).mono (Nat.le_refl _) hle)
    refine ⟨{ input := w, output := y, nextPrice := M, shares := d.shares }, ?_⟩
    exact (quote_charged hwanted).2 ⟨rfl, d, hd, hw, rfl⟩

theorem quote_output_pos (hP : 0 < p.price.val) (hy : 0 < y.val)
    (h : p.quote .output dir fee now y = .ok q) : 0 < q.input.val := by
  obtain ⟨hgiven, into, out, hq⟩ := quote_ok hy h
  have hout : 0 < out := by
    have hy' : q.output = y := hgiven
    have := hq.output
    rw [hy'] at this
    omega
  have hinto := hq.moved.into_pos hP hout
  have := hq.input
  omega

/-- The quote for an exact output of `y` is the least input that delivers `y`: it is positive, and an exact input
delivers `y` or more just when it is no smaller. Whatever some exact input delivers can also be asked for exactly, at
no higher cost. -/
theorem quotes_matched (hp : p.Ranged) (hv : p.fees.percents.validate = .ok ()) (hy : 0 < y.val) :
    (∀ q, p.quote .output dir fee now y = .ok q → 0 < q.input ∧
      ∀ x u, p.quote .input dir fee now x = .ok u → (y ≤ u.output ↔ q.input ≤ x)) ∧
    ∀ x u, p.quote .input dir fee now x = .ok u → y ≤ u.output →
      ∃ q, p.quote .output dir fee now y = .ok q ∧ q.input ≤ x := by
  constructor
  · intro q hq
    refine ⟨quote_output_pos hp.price_pos hy hq, ?_⟩
    intro x u hu
    exact quote_matched hu hq
  · intro x u hu hle
    obtain ⟨q, hq⟩ := exists_quote_output hp hv hu hle
    exact ⟨q, hq, (quote_matched hu hq).1 hle⟩

end

def widePool : Pool where
  fees := {
    base := { cliff := .lit 64 3000000 }
    percents := { protocol := .lit 8 25, referral := .lit 8 40 } }
  liquidity := .lit 128 9223372036854775808000000
  minPrice := Curve.minPrice
  maxPrice := Curve.maxPrice
  price := .lit 128 36893488147419103232

def saleFee : Placement := .of (.of .received) .aToB true

theorem quotes_matched_sale : ∃ q, widePool.quote .output .aToB saleFee 0 (.lit 64 200000) = .ok q ∧
    q.input.val = 62736 ∧
    (∀ x u, widePool.quote .input .aToB saleFee 0 x = .ok u →
      (.lit 64 200000 ≤ u.output ↔ q.input ≤ x)) ∧
    ∀ x u, widePool.quote .input .aToB saleFee 0 x = .ok u → .lit 64 200000 ≤ u.output →
      ∃ q, widePool.quote .output .aToB saleFee 0 (.lit 64 200000) = .ok q ∧ q.input ≤ x := by
  have hp : widePool.Ranged := ⟨by decide, by decide, by decide⟩
  obtain ⟨hleast, hsome⟩ :=
    @quotes_matched widePool .aToB saleFee 0 (.lit 64 200000) hp (by decide) (by decide)
  have hq : widePool.quote .output .aToB saleFee 0 (.lit 64 200000) = .ok {
      input := .lit 64 62736
      output := .lit 64 200000
      nextPrice := .lit 128 29492580638070536285
      shares := { lp := .lit 64 452, protocol := .lit 64 150, referral := .lit 64 60 } } := by
    decide +kernel
  exact ⟨_, hq, rfl, (hleast _ hq).2, hsome⟩

end Pool

end RangePool
