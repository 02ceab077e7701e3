import RangePool.Proofs.Fee.Charge
/-!
Before and after a fee. One mode rounds up a product to take the fee from a gross, the other rounds up a quotient to
find the gross that leaves a net. The two roundings meet: the gross that is found is the least that leaves the net,
it leaves the net without a unit more, and it is split as it was when it was found.
-/
set_option autoImplicit false

namespace RangePool

/-- What is left of `x` after a rounded up part `n / d` of it reaches `y` just when the exact rest does. -/
theorem le_net_iff {x n d fee net y : Nat} (hn : n < d)
    (hfee : Rounding.up.quotient (x * n) d = fee) (hnet : x = fee + net) :
    y ≤ net ↔ y * d ≤ x * (d - n) := by
  rw [← Rounding.add_part_le_iff (by omega) hn.le, hfee]
  omega

theorem gross_eq {y n d : Nat} (hn : n < d) : Rounding.up.quotient (y * d) (d - n) =
    y + Rounding.up.quotient (Rounding.up.quotient (y * d) (d - n) * n) d := by
  have hfee (x : Nat) : Rounding.up.quotient (x * n) d ≤ Rounding.up.quotient ((x + 1) * n) d :=
    Rounding.up.quotient_le_quotient d (Nat.mul_le_mul_right n (Nat.le_succ x))
  have hroom (x : Nat) : y + Rounding.up.quotient (x * n) d ≤ x ↔
      Rounding.up.quotient (y * d) (d - n) ≤ x := by
    rw [Rounding.add_part_le_iff (by omega) hn.le, Rounding.quotient_up_le (by omega)]
  exact least_eq_add hfee hroom

theorem gross_sub_le {y y' n d fee : Nat} (hn : n < d)
    (hfee : Rounding.up.quotient (y * d) (d - n) = y + fee) (hy : y' ≤ y) :
    Rounding.up.quotient (y' * d) (d - n) ≤ y' + fee := by
  obtain ⟨rest, rfl⟩ := Nat.exists_eq_add_of_lt hn
  have hrest : n + rest + 1 - n = rest + 1 := by omega
  have hup := Rounding.quotient_mul_up (y * (n + rest + 1)) (by omega : 0 < n + rest + 1 - n)
  have hpart : y' * n ≤ y * n := Nat.mul_le_mul_right n hy
  rw [Rounding.quotient_up_le (by omega)]
  rw [hfee] at hup
  rw [hrest, Nat.add_assoc, Nat.mul_add, Nat.add_mul] at hup ⊢
  omega

/-- A product of amounts is never too large for the step, so that only the width of the result refuses one. -/
theorem Amount.mulDiv_eq_error {r : Rounding} {x y d : Amount} (hd : d.val ≠ 0) {e : Fault} :
    Amount.mulDiv r x y d = .error e ↔
      Nat.pow 2 64 ≤ r.quotient (x.val * y.val) d.val ∧ e = .tooNarrow := by
  have hproduct : x.val * y.val < Nat.pow 2 64 * Nat.pow 2 64 := Nat.mul_lt_mul'' x.isLt y.isLt
  have hwide : r.quotient (x.val * y.val) d.val < Nat.pow 2 128 :=
    Nat.lt_of_le_of_lt (r.quotient_le _ _) hproduct
  have hq : Word.mulDiv? r (x.widen 128) (y.widen 128) (d.widen 128) = some ⟨_, hwide⟩ :=
    Word.mulDiv?_eq_some.2 ⟨hd, rfl⟩
  rw [Amount.mulDiv, Word.mulDiv, hq]
  exact Word.narrow_eq_error

theorem Percents.referral_eq_zero {p : Percents} {total : Amount} {s : Shares}
    (h : p.split total false = .ok s) : s.referral = 0 := by
  simp only [split, bind_eq_ok, pure_eq_ok, Bool.false_eq_true, if_false, Except.ok.injEq] at h
  obtain ⟨taken, -, referral, rfl, rest, -, partner, -, protocol, -, lp, -, rfl⟩ := h
  rfl

section
variable {p : FeePlan} {x y : Amount} {referred : Bool} {now activation : Point} {c d : Charge}

theorem FeePlan.exists_charge_input (hv : p.percents.validate = .ok ()) {n : Word 64}
    (hn : p.numerator now activation = .ok n) (x : Amount) (referred : Bool) :
    ∃ c, p.charge .input x referred now activation = .ok c := by
  have hle : Rounding.up.quotient (x.val * n.val) Fee.denominator ≤ x.val :=
    Rounding.up.part_le (by decide) (numerator_lt hn).le
  let fee : Amount := ⟨_, Nat.lt_of_le_of_lt hle x.isLt⟩
  obtain ⟨net, hnet, -⟩ := Word.exists_sub (b := fee) hle
  obtain ⟨s, hs⟩ := Percents.exists_split hv fee referred
  exact ⟨⟨net, s⟩, charge_input_eq_ok.2 ⟨n, fee, hn, rfl, Word.sub_eq_ok.1 hnet, hs⟩⟩

theorem FeePlan.exists_charge_of_gross (hv : p.percents.validate = .ok ()) {n : Word 64}
    (hn : p.numerator now activation = .ok n) (h : Rounding.up.quotient (y.val * Fee.denominator)
      (Fee.denominator - n.val) < Nat.pow 2 64) (referred : Bool) :
    ∃ d, p.charge .output y referred now activation = .ok d := by
  obtain ⟨extra, hextra, -⟩ := Word.exists_sub (a := ⟨_, h⟩) (le_gross (numerator_lt hn))
  obtain ⟨s, hs⟩ := Percents.exists_split hv extra referred
  exact ⟨⟨⟨_, h⟩, s⟩, charge_output_eq_ok.2 ⟨n, extra, hn, rfl, Word.sub_eq_ok.1 hextra, hs⟩⟩

theorem FeePlan.charge_output_fails {n : Word 64} (hn : p.numerator now activation = .ok n)
    (h : Nat.pow 2 64 ≤ Rounding.up.quotient (y.val * Fee.denominator) (Fee.denominator - n.val))
    (referred : Bool) : p.charge .output y referred now activation = .error .tooNarrow := by
  have hlt := numerator_lt hn
  obtain ⟨rest, hrest, -⟩ := Word.exists_sub (a := Word.lit 64 Fee.denominator) hlt.le
  have hval := Word.sub_eq_ok.1 hrest
  rw [Word.val_lit] at hval
  have hval : Fee.denominator - n.val = rest.val := by omega
  have hgross : Amount.mulDiv .up y (.lit 64 Fee.denominator) rest = .error .tooNarrow :=
    (Amount.mulDiv_eq_error (by omega)).2 ⟨hval ▸ h, rfl⟩
  simp only [charge, bind, Except.bind, hn, hrest, hgross]

/-- The net of an exact input reaches `y` just when the input covers the gross of an exact output of `y`. -/
theorem FeePlan.charge_matched (hin : p.charge .input x referred now activation = .ok c)
    (hout : p.charge .output y referred now activation = .ok d) :
    y.val ≤ c.amount.val ↔ d.amount.val ≤ x.val := by
  obtain ⟨n, fee, hn, hfee, hnet, -⟩ := charge_input_eq_ok.1 hin
  obtain ⟨n', _, hn', hgross, -, -⟩ := charge_output_eq_ok.1 hout
  obtain rfl : n = n' := eq_of_ok hn hn'
  have hlt := numerator_lt hn
  rw [le_net_iff hlt hfee hnet, ← hgross, Rounding.quotient_up_le (by omega)]

theorem FeePlan.exists_charge_output (hv : p.percents.validate = .ok ())
    (hin : p.charge .input x referred now activation = .ok c) (hy : y.val ≤ c.amount.val) :
    ∃ d, p.charge .output y referred now activation = .ok d := by
  obtain ⟨n, fee, hn, hfee, hnet, -⟩ := charge_input_eq_ok.1 hin
  have hlt := numerator_lt hn
  have hgross : Rounding.up.quotient (y.val * Fee.denominator) (Fee.denominator - n.val) ≤ x.val :=
    (Rounding.quotient_up_le (by omega)).2 ((le_net_iff hlt hfee hnet).1 hy)
  exact exists_charge_of_gross hv hn (Nat.lt_of_le_of_lt hgross x.isLt) referred

theorem FeePlan.charge_gross (h : p.charge .output y referred now activation = .ok d) :
    p.charge .input d.amount referred now activation = .ok ⟨y, d.shares⟩ := by
  obtain ⟨n, fee, hn, hgross, hsum, hs⟩ := charge_output_eq_ok.1 h
  have heq := gross_eq (y := y.val) (numerator_lt hn)
  rw [hgross] at heq
  exact charge_input_eq_ok.2 ⟨n, fee, hn, by omega, by rw [hsum, Nat.add_comm], hs⟩

/-- A charge on less is there whenever one on more is, and it leaves, costs and takes no more. -/
theorem FeePlan.exists_charge_le {exact : Curve.Exact} {x' : Amount} (hv : p.percents.validate = .ok ())
    (h : p.charge exact x referred now activation = .ok c) (hx : x'.val ≤ x.val) :
    ∃ c', p.charge exact x' referred now activation = .ok c' ∧ c'.amount.val ≤ c.amount.val ∧
      c'.shares.sum ≤ c.shares.sum := by
  cases exact with
  | input =>
    obtain ⟨n, fee, hn, hfee, hnet, hs⟩ := charge_input_eq_ok.1 h
    obtain ⟨c', hc'⟩ := exists_charge_input hv hn x' referred
    obtain ⟨n', fee', hn', hfee', hnet', hs'⟩ := charge_input_eq_ok.1 hc'
    obtain rfl : n = n' := eq_of_ok hn hn'
    have hlt := numerator_lt hn
    refine ⟨c', hc', ?_, ?_⟩
    · have hrest := (le_net_iff hlt hfee' hnet').1 (Nat.le_refl _)
      exact (le_net_iff hlt hfee hnet).2 (hrest.trans (Nat.mul_le_mul_right _ hx))
    · rw [Percents.split_ok hs, Percents.split_ok hs', ← hfee, ← hfee']
      exact Rounding.up.quotient_le_quotient _ (Nat.mul_le_mul_right _ hx)
  | output =>
    obtain ⟨n, fee, hn, hgross, hnet, hs⟩ := charge_output_eq_ok.1 h
    have hless : Rounding.up.quotient (x'.val * Fee.denominator) (Fee.denominator - n.val) ≤
        c.amount.val :=
      hgross ▸ Rounding.up.quotient_le_quotient _ (Nat.mul_le_mul_right _ hx)
    obtain ⟨c', hc'⟩ := exists_charge_of_gross hv hn (Nat.lt_of_le_of_lt hless c.amount.isLt) referred
    obtain ⟨n', fee', hn', hgross', hnet', hs'⟩ := charge_output_eq_ok.1 hc'
    obtain rfl : n = n' := eq_of_ok hn hn'
    have htop := gross_sub_le (numerator_lt hn) (hgross.trans hnet) hx
    refine ⟨c', hc', hgross' ▸ hless, ?_⟩
    rw [Percents.split_ok hs, Percents.split_ok hs']
    omega

/-- Whatever the fee, it can be taken, and no unit is lost between its parts. An amount is grossed up to the least
gross that leaves it: that gross leaves no more than the amount and is split as it was, and only a gross that is no
amount is refused. -/
theorem FeePlan.gross_is_least (hv : p.percents.validate = .ok ()) {n : Word 64}
    (hn : p.numerator now activation = .ok n) (referred : Bool) (y : Amount) :
    (∃ c, p.charge .input y referred now activation = .ok c ∧
      y.val = c.amount.val + c.shares.sum) ∧
    (∀ d, p.charge .output y referred now activation = .ok d →
      (∀ x c, p.charge .input x referred now activation = .ok c → (y ≤ c.amount ↔ d.amount ≤ x)) ∧
      p.charge .input d.amount referred now activation = .ok ⟨y, d.shares⟩) ∧
    (∀ e, p.charge .output y referred now activation = .error e ↔
      (∀ x c, p.charge .input x referred now activation = .ok c → c.amount < y) ∧ e = .tooNarrow) ∧
    ∀ exact c, p.charge exact y referred now activation = .ok c →
      c.shares.referral ≤ c.shares.protocol ∧ (referred = false → c.shares.referral = 0) := by
  refine ⟨?_, fun d hd => ⟨fun x c hc => charge_matched hc hd, charge_gross hd⟩, fun e => ?_, ?_⟩
  · obtain ⟨c, hc⟩ := exists_charge_input hv hn y referred
    exact ⟨c, hc, ((charge_ok hc).input rfl).symm⟩
  · refine eq_error_iff (fun h => ?_) fun h => ?_
    · push Not at h
      obtain ⟨x, c, hc, hy⟩ := h
      exact exists_charge_output hv hc (Nat.not_lt.1 hy)
    · refine charge_output_fails hn (Nat.not_lt.1 fun hlt => ?_) referred
      -- a gross that is an amount would leave `y`
      obtain ⟨d, hd⟩ := exists_charge_of_gross hv hn hlt referred
      exact Nat.lt_irrefl _ (h _ _ (charge_gross hd))
  · intro exact c hc
    obtain ⟨fee, hs⟩ := charge_split hc
    refine ⟨Percents.referral_le hv hs, ?_⟩
    rintro rfl
    exact Percents.referral_eq_zero hs

end

def quarterPlan : FeePlan where
  base := { cliff := .lit 64 250000001 }
  percents := { protocol := .lit 8 35, partner := .lit 8 60, referral := .lit 8 45 }

theorem FeePlan.gross_is_least_quarter : quarterPlan.percents.validate = .ok () ∧
    quarterPlan.numerator 0 0 = .ok (.lit 64 250000001) ∧
    (∀ x c, quarterPlan.charge .input x true 0 0 = .ok c →
      (.lit 64 1000003 ≤ c.amount ↔ .lit 64 1333338 ≤ x)) ∧
    (∃ s, quarterPlan.charge .input (.lit 64 1333338) true 0 0 = .ok ⟨.lit 64 1000003, s⟩ ∧
      s.sum = 333335) ∧
    ∀ x c, quarterPlan.charge .input x true 0 0 = .ok c → c.amount < .top := by
  have hv : quarterPlan.percents.validate = .ok () := rfl
  have hn : quarterPlan.numerator 0 0 = .ok (.lit 64 250000001) := toOption_eq_some.1 (by decide +kernel)
  have hgross : quarterPlan.charge .output (.lit 64 1000003) true 0 0 = .ok ⟨.lit 64 1333338, {
      lp := .lit 64 216668, protocol := .lit 64 78167, partner := .lit 64 38500,
      referral := .lit 64 52500 }⟩ := toOption_eq_some.1 (by decide +kernel)
  have hfails : quarterPlan.charge .output .top true 0 0 = .error .tooNarrow :=
    charge_output_fails hn (by decide +kernel) true
  obtain ⟨-, hleast, -⟩ := gross_is_least hv hn true (.lit 64 1000003)
  obtain ⟨-, -, hnone, -⟩ := gross_is_least hv hn true .top
  obtain ⟨hmatched, hleaves⟩ := hleast _ hgross
  exact ⟨hv, hn, hmatched, ⟨_, hleaves, rfl⟩, ((hnone _).1 hfails).1⟩

end RangePool
