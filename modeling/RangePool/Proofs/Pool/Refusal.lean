import RangePool.Proofs.Pool.Matching
/-!
Why a trade is refused. The rounded price of a trade decides: where it is a price, the range is what refuses the trade;
where it is too wide for a price, the width is, although the price lies far outside the range.
-/
set_option autoImplicit false

namespace RangePool

namespace Curve

def soldTo (dir : Direction) (P : Price) (L : Liquidity) (x : Nat) : Nat :=
  match dir with
  | .aToB => Rounding.up.quotient (L.val * P.val) (L.val + x * P.val)
  | .bToA => P.val + Rounding.down.quotient (x * Nat.pow 2 128) L.val

/-- Token A is there to be bought, but the rounded price after that is too wide for a price. -/
def Overruns (dir : Direction) (P : Price) (L : Liquidity) (x : Nat) : Prop :=
  dir = .bToA ∧ x * P.val < L.val ∧
    Nat.pow 2 128 ≤ Rounding.up.quotient (L.val * P.val) (L.val - x * P.val)

section
variable {dir : Direction} {P next : Price} {L : Liquidity} {x : Amount} {e : Fault}

theorem nextPrice_input_eq (hP : 0 < P.val) (hL : 0 < L.val) :
    nextPrice .input dir P L x = Word.fit 128 .tooNarrow (soldTo dir P L x.val) := by
  rw [nextPrice_of_pos hP hL]
  cases dir with
  | aToB =>
    simp only [priceFromA]
    split
    · rename_i h0
      rw [eq_comm, Word.fit_eq_ok, h0, soldTo, Word.val_zero, Nat.zero_mul, Nat.add_zero,
        Rounding.up.quotient_mul_self _ hL]
    · exact if_neg (by omega)
  | bToA =>
    exact if_neg (Word.ne_zero_of_pos hL)

theorem soldTo_leads (P : Price) (hL : 0 < L.val) (x : Nat) :
    soldTo .aToB P L x ≤ P.val ∧ P.val ≤ soldTo .bToA P L x := by
  constructor
  · refine (Rounding.quotient_up_le (by omega)).2 ?_
    rw [Nat.mul_comm]
    exact Nat.mul_le_mul_left _ (Nat.le_add_right _ _)
  · exact Nat.le_add_right _ _

theorem nextPrice_output_bToA_eq (hP : 0 < P.val) (hL : 0 < L.val) (hx : x.val * P.val < L.val) :
    nextPrice .output .bToA P L x = Word.fit 128 .tooNarrow
      (Rounding.up.quotient (L.val * P.val) (L.val - x.val * P.val)) := by
  rw [nextPrice_of_pos hP hL]
  simp only [priceFromA]
  split
  · rename_i h0
    rw [eq_comm, Word.fit_eq_ok, h0, Word.val_zero, Nat.zero_mul, Nat.sub_zero,
      Rounding.up.quotient_mul_self _ hL]
  · rw [if_pos hx.le]
    exact if_neg (by omega)

/-- An exact output is refused on the curve because the token runs out, or because the price overruns its width. -/
theorem nextPrice_output_error (hP : 0 < P.val) (hL : 0 < L.val)
    (h : nextPrice .output dir P L x = .error e) :
    Overruns dir P L x.val ∧ e = .tooNarrow ∨ ¬Overruns dir P L x.val ∧ ∃ s, e = .arithmetic s := by
  cases dir with
  -- a price that falls cannot overrun its width
  | aToB =>
    rw [nextPrice_of_pos hP hL] at h
    simp only [priceFromB, if_neg (Word.ne_zero_of_pos hL)] at h
    split at h
    · cases h
    · cases h
      refine .inr ⟨fun ho => ?_, .sub, rfl⟩
      cases ho.1
  | bToA =>
    -- while the token lasts the rounded price is there, and only its width refuses it
    by_cases hx : x.val * P.val < L.val
    · rw [nextPrice_output_bToA_eq hP hL hx, Word.fit_eq_error] at h
      exact .inl ⟨⟨rfl, hx, h.1⟩, h.2⟩
    · refine .inr ⟨fun ho => hx ho.2.1, ?_⟩
      rw [nextPrice_of_pos hP hL] at h
      simp only [priceFromA] at h
      split at h
      · cases h
      split at h
      · obtain h | ⟨d, hd, h⟩ := bind_eq_error.1 h
        · cases h
        · cases hd
          rw [if_pos (by omega)] at h
          exact ⟨.priceFromA, (Except.error.inj h).symm⟩
      · exact ⟨.sub, (Except.error.inj h).symm⟩

theorem nextPrice_output_within (h : nextPrice .output dir P L x = .ok next) :
    ¬Overruns dir P L x.val := by
  rintro ⟨rfl, hx, hwide⟩
  obtain ⟨hP, hL, -⟩ := nextPrice_ok h
  rw [nextPrice_output_bToA_eq hP hL hx, Word.fit_eq_ok] at h
  exact absurd next.isLt (Nat.not_lt.2 (h ▸ hwide))

theorem deltaA_error {r : Rounding} {lower upper : Price} (h : deltaA r lower upper L = .error e) :
    ∃ s, e = .arithmetic s := by
  obtain h | ⟨w, -, h⟩ := bind_eq_error.1 h
  · obtain h | ⟨span, -, h⟩ := bind_eq_error.1 h
    · exact ⟨.sub, (Word.sub_eq_error.1 h).2⟩
    · split at h
      · exact ⟨.priceProduct, (Except.error.inj h).symm⟩
      · cases h
  · exact ⟨.amount, (Word.fit_eq_error.1 h).2⟩

theorem deltaB_error {r : Rounding} {lower upper : Price} (h : deltaB r lower upper L = .error e) :
    ∃ s, e = .arithmetic s := by
  obtain h | ⟨w, -, h⟩ := bind_eq_error.1 h
  · obtain h | ⟨span, -, h⟩ := bind_eq_error.1 h
    · exact ⟨.sub, (Word.sub_eq_error.1 h).2⟩
    · cases h
  · exact ⟨.amount, (Word.fit_eq_error.1 h).2⟩

end

end Curve

namespace Pool

def outside : Direction → Fault
  | .aToB => .priceBelowRange
  | .bToA => .priceAboveRange

section
variable {p : Pool} {exact : Curve.Exact} {dir : Direction} {x : Amount} {e : Fault}

theorem move_eq_error : p.move exact dir x = .error e ↔
    Curve.nextPrice exact dir p.price p.liquidity x = .error e ∨
      ∃ next, Curve.nextPrice exact dir p.price p.liquidity x = .ok next ∧
        (¬p.Keeps dir next ∧ e = outside dir ∨
          p.Keeps dir next ∧ p.counterAt next exact dir = .error e) := by
  unfold move
  rw [bind_eq_error]
  refine or_congr_right (exists_congr fun next => and_congr_right fun _ => ?_)
  cases dir with
  | aToB =>
    simp only [Keeps, outside]
    split
    · rename_i h
      have h : ¬p.minPrice.val ≤ next.val := Nat.not_le.2 h
      simp [h, eq_comm]
    · rename_i h
      have h : p.minPrice.val ≤ next.val := Nat.not_lt.1 h
      cases exact <;> simp [h, bind_eq_error, counterAt, pure, Except.pure]
  | bToA =>
    simp only [Keeps, outside]
    split
    · rename_i h
      have h : ¬next.val ≤ p.maxPrice.val := Nat.not_le.2 h
      simp [h, eq_comm]
    · rename_i h
      have h : next.val ≤ p.maxPrice.val := Nat.not_lt.1 h
      cases exact <;> simp [h, bind_eq_error, counterAt, pure, Except.pure]

theorem counterAt_error {next : Price} (h : p.counterAt next exact dir = .error e) :
    ∃ s, e = .arithmetic s := by
  cases exact <;> cases dir
  case input.aToB | output.bToA => exact Curve.deltaB_error h
  case input.bToA | output.aToB => exact Curve.deltaA_error h

def Delivers (p : Pool) (dir : Direction) (y : Nat) : Prop :=
  ∃ Q : Price, p.minPrice ≤ Q ∧ Q ≤ p.maxPrice ∧ dir.Leads p.price Q ∧
    ∃ w, Curve.freed dir p.price Q p.liquidity = .ok w ∧ y ≤ w.val

theorem move_input_refused (hp : p.Ranged) (hL : 0 < p.liquidity.val)
    (hout : Curve.soldTo dir p.price p.liquidity x.val < p.minPrice.val ∨
      p.maxPrice.val < Curve.soldTo dir p.price p.liquidity x.val) :
    p.move .input dir x = .error
      (if Curve.soldTo dir p.price p.liquidity x.val < Nat.pow 2 128 then outside dir else .tooNarrow) := by
  have hP := hp.price_pos
  have hlow := hp.low
  have hhigh := hp.high
  rw [move_eq_error, Curve.nextPrice_input_eq hP hL]
  obtain ⟨hback, hforth⟩ := Curve.soldTo_leads p.price hL x.val
  split
  · rename_i hfits
    refine .inr ⟨⟨_, hfits⟩, Word.fit_eq_ok.2 rfl, .inl ⟨fun hkeeps => ?_, rfl⟩⟩
    cases dir with
    | aToB =>
      have hkeeps : p.minPrice.val ≤ Curve.soldTo .aToB p.price p.liquidity x.val := hkeeps
      omega
    | bToA =>
      have hkeeps : Curve.soldTo .bToA p.price p.liquidity x.val ≤ p.maxPrice.val := hkeeps
      omega
  · rename_i hwide
    exact .inl (Word.fit_eq_error.2 ⟨Nat.not_lt.1 hwide, rfl⟩)

/-- A price in the range that a trade could go to would free what is wanted, so that there is none. -/
theorem move_output_refused (hp : p.Ranged) (hL : 0 < p.liquidity.val) (hnone : ¬p.Delivers dir x.val) :
    ∃ e, p.move .output dir x = .error e ∧
      (Curve.Overruns dir p.price p.liquidity x.val ∧ e = .tooNarrow ∨
        ¬Curve.Overruns dir p.price p.liquidity x.val ∧
          (e.kind = .priceRangeViolation ∨ e.kind = .mathOverflow)) := by
  have hP := hp.price_pos
  cases hm : p.move .output dir x with
  | error e =>
    refine ⟨e, rfl, ?_⟩
    obtain hn | ⟨next, hn, h⟩ := move_eq_error.1 hm
    · obtain ⟨hover, rfl⟩ | ⟨hwithin, s, rfl⟩ := Curve.nextPrice_output_error hP hL hn
      · exact .inl ⟨hover, rfl⟩
      · exact .inr ⟨hwithin, .inr rfl⟩
    · refine .inr ⟨Curve.nextPrice_output_within hn, ?_⟩
      obtain ⟨-, rfl⟩ | ⟨-, hcounter⟩ := h
      · exact .inl (by cases dir <;> rfl)
      · obtain ⟨s, rfl⟩ := counterAt_error hcounter
        exact .inr rfl
  | ok u =>
    obtain ⟨next, other⟩ := u
    obtain ⟨hn, -⟩ := move_eq_ok.1 hm
    have hmoves : p.MovesTo dir next other.val x.val := move_ok hm
    have hleads := Curve.nextPrice_leads hn
    obtain ⟨w, hw, hiff⟩ := Curve.exists_freed p.liquidity hP hleads
    exact absurd ⟨next, hmoves.low hp.low, hmoves.high hp.high, hleads, w, hw,
      (hiff x.val).2 (Curve.nextPrice_output_ok hn)⟩ hnone

end

/-- The amount that the curve trades: where the given side is charged at the rate `n`, what is left of an input after
the fee, or what an output is grossed up to; and else the amount itself. -/
def facing (exact : Curve.Exact) (fee : Placement) (n x : Nat) : Nat :=
  if chargesGiven exact fee then
    match exact with
    | .input => x - Rounding.up.quotient (x * n) Fee.denominator
    | .output => Rounding.up.quotient (x * Fee.denominator) (Fee.denominator - n)
  else x

/-- The curve would have to deliver more than an amount can be, or at a price that is too wide for one. -/
def Overreaches (p : Pool) (dir : Direction) (y : Nat) : Prop :=
  Nat.pow 2 64 ≤ y ∨ Curve.Overruns dir p.price p.liquidity y

section
variable {p : Pool} {exact : Curve.Exact} {dir : Direction} {fee : Placement} {now : Point}
  {x : Amount} {e : Fault}

theorem quote_charged_error (hc : chargesGiven exact fee = true) :
    p.quote exact dir fee now x = .error e ↔
      p.fees.charge exact x fee.referred now p.activationPoint = .error e ∨ ∃ c,
        p.fees.charge exact x fee.referred now p.activationPoint = .ok c ∧
        p.move exact dir c.amount = .error e := by
  cases exact <;> simp [quote, hc, bind_eq_error, pure, Except.pure]

theorem quote_uncharged_error (hc : chargesGiven exact fee = false) :
    p.quote exact dir fee now x = .error e ↔ p.move exact dir x = .error e ∨ ∃ next other,
      p.move exact dir x = .ok (next, other) ∧
      p.fees.charge exact other fee.referred now p.activationPoint = .error e := by
  cases exact <;> simp [quote, hc, bind_eq_error, pure, Except.pure]

theorem exists_charge_facing (hv : p.fees.percents.validate = .ok ()) {n : Word 64}
    (hn : p.fees.numerator now p.activationPoint = .ok n) (hc : chargesGiven exact fee = true) {y : Amount}
    (hy : y.val = facing exact fee n.val x.val) :
    ∃ c, p.fees.charge exact x fee.referred now p.activationPoint = .ok c ∧ c.amount = y := by
  rw [facing.eq_def, if_pos hc] at hy
  cases exact with
  | input =>
    obtain ⟨c, hcharge⟩ := FeePlan.exists_charge_input hv hn x fee.referred
    obtain ⟨n', taken, hn', hfee, hnet, -⟩ := FeePlan.charge_input_eq_ok.1 hcharge
    obtain rfl : n = n' := eq_of_ok hn hn'
    simp only at hy
    exact ⟨c, hcharge, Word.ext (by omega)⟩
  | output =>
    simp only at hy
    obtain ⟨c, hcharge⟩ := FeePlan.exists_charge_of_gross hv hn (hy ▸ y.isLt) fee.referred
    obtain ⟨n', taken, hn', hgross, -⟩ := FeePlan.charge_output_eq_ok.1 hcharge
    obtain rfl : n = n' := eq_of_ok hn hn'
    exact ⟨c, hcharge, Word.ext (hgross.symm.trans hy.symm)⟩

theorem quote_move_error (hv : p.fees.percents.validate = .ok ()) {n : Word 64}
    (hn : p.fees.numerator now p.activationPoint = .ok n) {y : Amount}
    (hy : y.val = facing exact fee n.val x.val) (h : p.move exact dir y = .error e) :
    p.quote exact dir fee now x = .error e := by
  cases hc : chargesGiven exact fee with
  | true =>
    obtain ⟨c, hcharge, rfl⟩ := exists_charge_facing hv hn hc hy
    exact (quote_charged_error hc).2 (.inr ⟨c, hcharge, h⟩)
  | false =>
    rw [facing.eq_def, if_neg (by simp [hc])] at hy
    obtain rfl : y = x := Word.ext hy
    exact (quote_uncharged_error hc).2 (.inl h)

/-- A net that has no gross is refused before the curve is asked. -/
theorem quote_output_wide {n : Word 64} (hn : p.fees.numerator now p.activationPoint = .ok n)
    (h : Nat.pow 2 64 ≤ facing .output fee n.val x.val) :
    p.quote .output dir fee now x = .error .tooNarrow := by
  unfold facing at h
  split at h
  · rename_i hc
    exact (quote_charged_error hc).2 (.inl (FeePlan.charge_output_fails hn h fee.referred))
  · exact absurd x.isLt (Nat.not_lt.2 h)

theorem facing_input_le (fee : Placement) (n x : Nat) : facing .input fee n x ≤ x := by
  unfold facing
  split
  · exact Nat.sub_le _ _
  · exact Nat.le_refl _

structure Plain (p : Pool) : Prop where
  ranged : p.Ranged
  liquid : 0 < p.liquidity.val
  base : p.fees.base.validate = .ok ()
  percents : p.fees.percents.validate = .ok ()
  untracked : p.fees.tracker.enabled = false

/-- A trade that the range cannot serve is refused. An exact input is refused by the range, as long as the rounded price
is one; an exact output by the range or by the arithmetic, as long as it does not overreach. Beyond that either is
refused because a value does not fit its width, and the range is not named. -/
theorem unservable_refused (h : p.Plain) (dir : Direction) (fee : Placement) (now : Point) :
    ∃ n, p.fees.numerator now p.activationPoint = .ok n ∧ ∀ x : Amount,
      (Curve.soldTo dir p.price p.liquidity (facing .input fee n.val x.val) < p.minPrice.val ∨
          p.maxPrice.val < Curve.soldTo dir p.price p.liquidity (facing .input fee n.val x.val) →
        p.quote .input dir fee now x = .error
          (if Curve.soldTo dir p.price p.liquidity (facing .input fee n.val x.val) < Nat.pow 2 128
            then outside dir else .tooNarrow)) ∧
      (¬p.Delivers dir (facing .output fee n.val x.val) →
        ∃ e, p.quote .output dir fee now x = .error e ∧
          (p.Overreaches dir (facing .output fee n.val x.val) ∧ e = .tooNarrow ∨
            ¬p.Overreaches dir (facing .output fee n.val x.val) ∧
              (e.kind = .priceRangeViolation ∨ e.kind = .mathOverflow))) := by
  obtain ⟨hp, hL, hbase, hpercents, hoff⟩ := h
  have hfree : p.fees.tracker.fee = .ok 0 := by
    unfold Tracker.fee
    rw [hoff]
    rfl
  obtain ⟨n, hn, -⟩ := FeePlan.exists_numerator hbase hfree now p.activationPoint
  refine ⟨n, hn, fun x => ⟨fun hout => ?_, fun hnone => ?_⟩⟩
  · have hlt : facing .input fee n.val x.val < Nat.pow 2 64 :=
      Nat.lt_of_le_of_lt (facing_input_le fee n.val x.val) x.isLt
    exact quote_move_error (y := ⟨_, hlt⟩) hpercents hn rfl (move_input_refused hp hL hout)
  · by_cases hwide : Nat.pow 2 64 ≤ facing .output fee n.val x.val
    · exact ⟨.tooNarrow, quote_output_wide hn hwide, .inl ⟨.inl hwide, rfl⟩⟩
    · obtain ⟨e, hm, he⟩ := move_output_refused (x := ⟨_, Nat.not_le.1 hwide⟩) hp hL hnone
      refine ⟨e, quote_move_error hpercents hn rfl hm, ?_⟩
      exact he.imp (And.imp_left .inr) (And.imp_left fun hover => not_or.2 ⟨hwide, hover⟩)

theorem not_delivers (hp : p.Ranged) (hL : 0 < p.liquidity.val)
    (h : Curve.nextPrice .output dir p.price p.liquidity x = .error e) : ¬p.Delivers dir x.val := by
  have hP := hp.price_pos
  rintro ⟨Q, -, -, hleads, w, hw, hx⟩
  obtain ⟨w', hw', hiff⟩ := Curve.exists_freed p.liquidity hP hleads
  obtain rfl : w = w' := eq_of_ok hw hw'
  obtain ⟨next, hn, -⟩ := Curve.exists_nextPrice_output hP hL (hleads.pos hP) ((hiff _).1 hx)
  cases h.symm.trans hn

end

def receiptFee : Placement := .of (.of .received) .bToA false

theorem unservable_refused_wide : widePool.Plain ∧
    widePool.quote .input .bToA receiptFee 0 (.lit 64 10000000000000000) = .error .priceAboveRange ∧
    ¬widePool.Delivers .bToA 250753 ∧
    ∃ e, widePool.quote .output .bToA receiptFee 0 (.lit 64 250000) = .error e ∧
      (e.kind = .priceRangeViolation ∨ e.kind = .mathOverflow) := by
  have hwide : widePool.Plain :=
    ⟨⟨by decide, by decide, by decide⟩, by decide, by decide +kernel, by decide, rfl⟩
  obtain ⟨n, hn, hrefused⟩ := unservable_refused hwide .bToA receiptFee 0
  obtain rfl : n = .lit 64 3000000 := eq_of_ok hn (toOption_eq_some.1 (by decide +kernel))
  obtain ⟨hin, -⟩ := hrefused (.lit 64 10000000000000000)
  obtain ⟨-, hout⟩ := hrefused (.lit 64 250000)
  have hnone : ¬widePool.Delivers .bToA 250753 :=
    not_delivers (x := .lit 64 250753) (e := .arithmetic .sub) hwide.ranged hwide.liquid (by decide +kernel)
  refine ⟨hwide, (hin (by decide +kernel)).trans ?_, hnone, ?_⟩
  · exact congrArg Except.error (if_pos (by decide +kernel))
  · obtain ⟨e, he, ⟨hover, -⟩ | ⟨-, hkind⟩⟩ := hout hnone
    · exact absurd hover (by rintro (h | ⟨-, h, -⟩) <;> revert h <;> decide +kernel)
    · exact ⟨e, he, hkind⟩

/-- A thin pool at price four, and one whose liquidity exceeds what two units of token A use up by a single unit. -/
def thinPool : Pool := { widePool with liquidity := .lit 128 9223372036854775807 }
def edgePool : Pool := { widePool with liquidity := .lit 128 73786976294838206465 }

/-- As much of token B as its liquidity takes the price of the one pool above its range, and two units of token
A are more than the other one can deliver; but neither the range nor the arithmetic is named when they are refused. -/
theorem refused_as_too_wide : (∀ p ∈ [thinPool, edgePool], p.Plain ∧ p.minPrice = Curve.minPrice ∧
      p.maxPrice = Curve.maxPrice ∧ p.fees.numerator 0 p.activationPoint = .ok (.lit 64 3000000)) ∧
    thinPool.maxPrice.val < Curve.soldTo .bToA thinPool.price thinPool.liquidity
      (facing .input receiptFee 3000000 9223372036854775807) ∧
    thinPool.quote .input .bToA receiptFee 0 (.lit 64 9223372036854775807) = .error .tooNarrow ∧
    ¬edgePool.Delivers .bToA (facing .output receiptFee 3000000 1) ∧
    edgePool.quote .output .bToA receiptFee 0 (.lit 64 1) = .error .tooNarrow ∧
    Fault.tooNarrow.kind = .typeCastFailed := by
  have hplain : ∀ p ∈ [thinPool, edgePool], p.Plain ∧ p.minPrice = Curve.minPrice ∧
      p.maxPrice = Curve.maxPrice ∧ p.fees.numerator 0 p.activationPoint = .ok (.lit 64 3000000) := by
    intro p hp
    simp only [List.mem_cons, List.not_mem_nil, or_false] at hp
    rcases hp with rfl | rfl <;>
      exact ⟨⟨⟨by decide, by decide, by decide⟩, by decide, by decide +kernel, by decide, rfl⟩, rfl, rfl,
        toOption_eq_some.1 (by decide +kernel)⟩
  obtain ⟨hedge, -⟩ := hplain edgePool (by simp)
  have hnone : ¬edgePool.Delivers .bToA 2 :=
    not_delivers (x := .lit 64 2) (e := .tooNarrow) hedge.ranged hedge.liquid (by decide +kernel)
  exact ⟨hplain, by decide +kernel, by decide +kernel, hnone, by decide +kernel, rfl⟩

end Pool

end RangePool
