import RangePool.Proofs.Pool.Monotone
/-!
Trading in parts never pays. What a pool can afford adds up over trades that follow one another, on the curve and in
the fee, and a single quote is the best that the pool can afford.
-/
set_option autoImplicit false

namespace RangePool

def Fee.Covers (n gross net : Nat) : Prop := net * Fee.denominator ≤ gross * (Fee.denominator - n)

section
variable {n a b a' b' : Nat}

theorem Fee.Covers.zero : Fee.Covers n 0 0 := by
  unfold Fee.Covers
  rw [Nat.zero_mul, Nat.zero_mul]

theorem Fee.Covers.add (h : Fee.Covers n a b) (h' : Fee.Covers n a' b') :
    Fee.Covers n (a + a') (b + b') := by
  unfold Fee.Covers at h h' ⊢
  rw [Nat.add_mul, Nat.add_mul]
  exact Nat.add_le_add h h'

theorem Fee.Covers.mono (h : Fee.Covers n a b) (ha : a ≤ a') (hb : b' ≤ b) : Fee.Covers n a' b' :=
  (Nat.mul_le_mul_right _ hb).trans (h.trans (Nat.mul_le_mul_right _ ha))

theorem Fee.covers_free_iff : Fee.Covers 0 a b ↔ b ≤ a := by
  have hd : 0 < Fee.denominator := by decide
  exact ⟨fun h => Nat.le_of_mul_le_mul_right h hd, fun h => Nat.mul_le_mul_right _ h⟩

end

section
variable {p : FeePlan} {x : Amount} {referred : Bool} {now activation : Point} {c : Charge} {n : Word 64}

theorem FeePlan.le_charge_iff (hn : p.numerator now activation = .ok n)
    (h : p.charge .input x referred now activation = .ok c) {y : Nat} :
    y ≤ c.amount.val ↔ Fee.Covers n.val x.val y := by
  obtain ⟨m, fee, hm, hfee, hnet, -⟩ := charge_input_eq_ok.1 h
  obtain rfl : n = m := eq_of_ok hn hm
  exact le_net_iff (numerator_lt hn) hfee hnet

theorem FeePlan.charge_le_iff (hn : p.numerator now activation = .ok n)
    (h : p.charge .output x referred now activation = .ok c) {y : Nat} :
    c.amount.val ≤ y ↔ Fee.Covers n.val y x.val := by
  obtain ⟨m, fee, hm, hgross, -, -⟩ := charge_output_eq_ok.1 h
  obtain rfl : n = m := eq_of_ok hn hm
  have hlt := numerator_lt hn
  rw [← hgross]
  exact Rounding.quotient_up_le (by omega)

theorem FeePlan.charge_numerator {exact : Curve.Exact}
    (h : p.charge exact x referred now activation = .ok c) :
    ∃ n, p.numerator now activation = .ok n := by
  unfold charge at h
  obtain ⟨n, hn, -⟩ := bind_eq_ok.1 h
  exact ⟨n, hn⟩

end

namespace Pool

/-- With a fee of `n` on one of the sides a trader who sends `sent` can receive `received`, while the price moves to
`next`. -/
def Affords (p : Pool) (dir : Direction) (fee : Placement) (n : Nat) (next : Price)
    (sent received : Nat) : Prop :=
  ∃ into out, p.MovesTo dir next into out ∧
    Fee.Covers (if fee.onInput then n else 0) sent into ∧
    Fee.Covers (if fee.onInput then 0 else n) out received

section
variable {p p₁ : Pool} {dir : Direction} {fee : Placement} {n : Nat} {Q : Price} {a b a' b' : Nat}

theorem MovesTo.refl (hL : 0 < p.liquidity.val) (hP : 0 < p.price.val) :
    p.MovesTo dir p.price 0 0 := by
  refine ⟨hL, hP, id, id, ?_, ?_⟩ <;> simp [density]

structure SameCurve (p p₁ : Pool) : Prop where
  liquidity : p₁.liquidity = p.liquidity
  minPrice : p₁.minPrice = p.minPrice
  maxPrice : p₁.maxPrice = p.maxPrice

theorem SameCurve.densityAt (h : p.SameCurve p₁) (Q : Price) (t : Side) :
    p₁.densityAt Q t = p.densityAt Q t := by
  cases t with
  | a => simp only [Pool.densityAt, h.maxPrice]
  | b => simp only [Pool.densityAt, h.minPrice]

theorem MovesTo.trans (h : p.MovesTo dir p₁.price a b) (hs : p.SameCurve p₁)
    (h' : p₁.MovesTo dir Q a' b') : p.MovesTo dir Q (a + a') (b + b') where
  liquid := h.liquid
  next_pos := h'.next_pos
  low := fun hp => hs.minPrice ▸ h'.low (hs.minPrice ▸ h.low hp)
  high := fun hp => hs.maxPrice ▸ h'.high (hs.maxPrice ▸ h.high hp)
  gained := by
    have hfirst := h.gained
    have hnext := h'.gained
    rw [density, hs.densityAt, hs.densityAt, hs.liquidity] at hnext
    push_cast
    linarith
  lost := by
    have hfirst := h.lost
    have hnext := h'.lost
    rw [density, hs.densityAt, hs.densityAt, hs.liquidity] at hnext
    push_cast
    linarith

theorem Affords.refl (hL : 0 < p.liquidity.val) (hP : 0 < p.price.val) :
    p.Affords dir fee n p.price 0 0 :=
  ⟨0, 0, .refl hL hP, .zero, .zero⟩

theorem Affords.next_pos (h : p.Affords dir fee n Q a b) : 0 < Q.val := by
  obtain ⟨into, out, hm, -⟩ := h
  exact hm.next_pos

theorem Affords.trans (h : p.Affords dir fee n p₁.price a b) (hs : p.SameCurve p₁)
    (h' : p₁.Affords dir fee n Q a' b') : p.Affords dir fee n Q (a + a') (b + b') := by
  obtain ⟨into, out, hm, hin, hout⟩ := h
  obtain ⟨into', out', hm', hin', hout'⟩ := h'
  exact ⟨into + into', out + out', hm.trans hs hm', hin.add hin', hout.add hout'⟩

end

section
variable {p p' : Pool} {exact : Curve.Exact} {dir : Direction} {fee : Placement} {now time : Point}
  {n : Word 64} {P : Price} {x : Amount} {q : Quote}

theorem quote_affords (hn : p.fees.numerator now p.activationPoint = .ok n)
    (h : p.quote exact dir fee now x = .ok q) :
    p.Affords dir fee n.val q.nextPrice q.input.val q.output.val := by
  unfold Affords
  cases exact with
  | input =>
    cases hf : fee.onInput with
    | true =>
      have hgiven : chargesGiven .input fee = true := hf
      obtain ⟨rfl, c, hc, hm, -⟩ := (quote_charged hgiven).1 h
      have hpaid := (FeePlan.le_charge_iff hn hc).1 (Nat.le_refl _)
      exact ⟨_, _, move_ok hm, hpaid, Fee.covers_free_iff.2 (Nat.le_refl _)⟩
    | false =>
      have hgiven : chargesGiven .input fee = false := hf
      obtain ⟨rfl, other, c, hm, hc, hgain, -⟩ := (quote_uncharged hgiven).1 h
      have hpaid := (FeePlan.le_charge_iff hn hc).1 (Nat.le_refl _)
      rw [← hgain] at hpaid
      exact ⟨_, _, move_ok hm, Fee.covers_free_iff.2 (Nat.le_refl _), hpaid⟩
  | output =>
    cases hf : fee.onInput with
    | true =>
      have hwanted : chargesGiven .output fee = false := by simp only [chargesGiven, hf, Bool.not_true]
      obtain ⟨rfl, other, c, hm, hc, hcost, -⟩ := (quote_uncharged hwanted).1 h
      have hpaid := (FeePlan.charge_le_iff hn hc).1 (Nat.le_refl _)
      rw [← hcost] at hpaid
      exact ⟨_, _, move_ok hm, hpaid, Fee.covers_free_iff.2 (Nat.le_refl _)⟩
    | false =>
      have hwanted : chargesGiven .output fee = true := by simp only [chargesGiven, hf, Bool.not_false]
      obtain ⟨rfl, c, hc, hm, -⟩ := (quote_charged hwanted).1 h
      have hpaid := (FeePlan.charge_le_iff hn hc).1 (Nat.le_refl _)
      exact ⟨_, _, move_ok hm, Fee.covers_free_iff.2 (Nat.le_refl _), hpaid⟩

/-- An exact input buys the most that the pool can afford for it, and goes the farthest. -/
theorem quote_input_best (hn : p.fees.numerator now p.activationPoint = .ok n)
    (h : p.quote .input dir fee now x = .ok q) {b : Nat} (ha : p.Affords dir fee n.val P x.val b) :
    b ≤ q.output.val ∧ dir.Leads P q.nextPrice := by
  obtain ⟨into, out, hm, hin, hout⟩ := ha
  cases hf : fee.onInput <;> simp only [hf, Bool.false_eq_true, if_true, if_false] at hin hout
  case true =>
    have hgiven : chargesGiven .input fee = true := hf
    obtain ⟨-, c, hc, hmove, -⟩ := (quote_charged hgiven).1 h
    have hm := hm.mono ((FeePlan.le_charge_iff hn hc).2 hin) (Nat.le_refl _)
    exact ⟨(Fee.covers_free_iff.1 hout).trans (move_input_most hmove hm), move_input_farthest hmove hm⟩
  case false =>
    have hgiven : chargesGiven .input fee = false := hf
    obtain ⟨-, other, c, hmove, hc, hgain, -⟩ := (quote_uncharged hgiven).1 h
    have hgain : q.output = c.amount := hgain
    have hm := hm.mono (Fee.covers_free_iff.1 hin) (Nat.le_refl _)
    have hout := hout.mono (move_input_most hmove hm) (Nat.le_refl _)
    rw [hgain]
    exact ⟨(FeePlan.le_charge_iff hn hc).2 hout, move_input_farthest hmove hm⟩

/-- An exact output costs the least for which the pool can afford it, and stays the nearest. -/
theorem quote_output_best (hn : p.fees.numerator now p.activationPoint = .ok n)
    (h : p.quote .output dir fee now x = .ok q) {a : Nat} (ha : p.Affords dir fee n.val P a x.val) :
    q.input.val ≤ a ∧ dir.Leads q.nextPrice P := by
  obtain ⟨into, out, hm, hin, hout⟩ := ha
  cases hf : fee.onInput <;> simp only [hf, Bool.false_eq_true, if_true, if_false] at hin hout
  case true =>
    have hwanted : chargesGiven .output fee = false := by simp only [chargesGiven, hf, Bool.not_true]
    obtain ⟨-, other, c, hmove, hc, hcost, -⟩ := (quote_uncharged hwanted).1 h
    have hcost : q.input = c.amount := hcost
    have hm := hm.mono (Nat.le_refl _) (Fee.covers_free_iff.1 hout)
    have hin := hin.mono (Nat.le_refl _) (move_output_least hmove hm)
    rw [hcost]
    exact ⟨(FeePlan.charge_le_iff hn hc).2 hin, move_output_nearest hmove hm⟩
  case false =>
    have hwanted : chargesGiven .output fee = true := by simp only [chargesGiven, hf, Bool.not_false]
    obtain ⟨-, c, hc, hmove, -⟩ := (quote_charged hwanted).1 h
    have hm := hm.mono (Nat.le_refl _) ((FeePlan.charge_le_iff hn hc).2 hout)
    exact ⟨(move_output_least hmove hm).trans (Fee.covers_free_iff.1 hin),
      move_output_nearest hmove hm⟩

theorem Applied.sameCurve (h : p.Applied q fee p') : p.SameCurve p' := by
  rw [h.frame]
  exact ⟨rfl, rfl, rfl⟩

/-- A trade leaves a fee as it is that does not follow the price. -/
theorem apply_fees (ht : p.fees.tracker.enabled = false) (h : p.apply q fee time = .ok p') :
    p'.fees = p.fees := by
  simp only [apply, track, ht, bind_eq_ok, Bool.false_eq_true, if_false] at h
  obtain ⟨_, _, _, _, _, _, _, _, _, _, _, _, h⟩ := h
  cases h
  rfl

def tradeEach (p : Pool) (exact : Curve.Exact) (dir : Direction) (fee : Placement) (now : Point) :
    List (Amount × Point) → Except Fault (List Quote × Pool)
  | [] => .ok ([], p)
  | (x, time) :: xs => do
    let q ← p.quote exact dir fee now x
    let p ← p.apply q fee time
    let (qs, p) ← p.tradeEach exact dir fee now xs
    return (q :: qs, p)

section
variable {xs : List (Amount × Point)} {qs : List Quote}

theorem tradeEach_cons {t : Amount × Point} (h : p.tradeEach exact dir fee now (t :: xs) = .ok (qs, p')) :
    ∃ q p₁ qs₁, p.quote exact dir fee now t.1 = .ok q ∧ p.apply q fee t.2 = .ok p₁ ∧
      p₁.tradeEach exact dir fee now xs = .ok (qs₁, p') ∧ qs = q :: qs₁ := by
  simp only [tradeEach, bind_eq_ok, pure_eq_ok, Prod.exists, Prod.mk.injEq] at h
  obtain ⟨q, hq, p₁, hp, qs₁, _, hrest, rfl, rfl⟩ := h
  exact ⟨q, p₁, qs₁, hq, hp, hrest, rfl⟩

theorem tradeEach_affords (hL : 0 < p.liquidity.val) (hP : 0 < p.price.val)
    (ht : p.fees.tracker.enabled = false) (hn : p.fees.numerator now p.activationPoint = .ok n)
    (h : p.tradeEach exact dir fee now xs = .ok (qs, p')) :
    p.Affords dir fee n.val p'.price (qs.map fun q => q.input.val).sum
      (qs.map fun q => q.output.val).sum ∧ dir.Leads p.price p'.price ∧
    (qs.map fun q => (q.given exact).val).sum = (xs.map fun t => t.1.val).sum := by
  induction xs generalizing p qs with
  | nil =>
    cases h
    exact ⟨.refl hL hP, .refl _ _, rfl⟩
  | cons t xs ih =>
    obtain ⟨q, p₁, qs₁, hq, hp, hrest, rfl⟩ := tradeEach_cons h
    have ha := apply_ok hp
    have hfees := apply_fees ht hp
    have hprice : p₁.price = q.nextPrice := by rw [ha.frame]
    have hactivation : p₁.activationPoint = p.activationPoint := by rw [ha.frame]
    have hfirst := quote_affords hn hq
    have hleads := quote_leads hq
    rw [← hprice] at hfirst hleads
    obtain ⟨hafter, hleads', hgiven⟩ := ih (ha.sameCurve.liquidity ▸ hL) hfirst.next_pos
      (hfees ▸ ht) (by rw [hfees, hactivation]; exact hn) hrest
    obtain ⟨hq', -⟩ := quote_parts hq
    refine ⟨hfirst.trans ha.sameCurve hafter, hleads.trans hleads', ?_⟩
    rw [List.map_cons, List.map_cons, List.sum_cons, List.sum_cons, hq', hgiven]

theorem quote_pos {x : Amount} (h : p.quote exact dir fee now x = .ok q) :
    0 < p.price.val ∧ 0 < p.liquidity.val ∧ ∃ n, p.fees.numerator now p.activationPoint = .ok n := by
  obtain ⟨-, y, other, z, c, hm, hc, -⟩ := quote_parts h
  obtain ⟨hP, hL, -⟩ := Curve.nextPrice_ok (move_best hm).1
  exact ⟨hP, hL, FeePlan.charge_numerator hc⟩

end

/-- Where the fee does not follow the price, trading in parts never pays. Amounts sold one after the other bring no more
than their sum does at once, and take the price no farther; amounts bought one after the other cost no less, and leave
the price no nearer. -/
theorem splitting_never_pays (ht : p.fees.tracker.enabled = false) (xs : List (Amount × Point))
    (qs : List Quote) (X : Amount) (u : Quote) (hX : X.val = (xs.map fun t => t.1.val).sum) :
    (p.tradeEach .input dir fee now xs = .ok (qs, p') → p.quote .input dir fee now X = .ok u →
      (qs.map fun q => q.output.val).sum ≤ u.output.val ∧
        dir.Leads p.price p'.price ∧ dir.Leads p'.price u.nextPrice) ∧
    (p.tradeEach .output dir fee now xs = .ok (qs, p') → p.quote .output dir fee now X = .ok u →
      u.input.val ≤ (qs.map fun q => q.input.val).sum ∧
        dir.Leads p.price u.nextPrice ∧ dir.Leads u.nextPrice p'.price) := by
  constructor
  · intro h hu
    obtain ⟨hP, hL, n, hn⟩ := quote_pos hu
    obtain ⟨ha, hleads, hgiven⟩ := tradeEach_affords hL hP ht hn h
    have hsum : (qs.map fun q => q.input.val).sum = X.val := hgiven.trans hX.symm
    rw [hsum] at ha
    obtain ⟨hout, hfar⟩ := quote_input_best hn hu ha
    exact ⟨hout, hleads, hfar⟩
  · intro h hu
    obtain ⟨hP, hL, n, hn⟩ := quote_pos hu
    obtain ⟨ha, -, hgiven⟩ := tradeEach_affords hL hP ht hn h
    have hsum : (qs.map fun q => q.output.val).sum = X.val := hgiven.trans hX.symm
    rw [hsum] at ha
    obtain ⟨hin, hnear⟩ := quote_output_best hn hu ha
    exact ⟨hin, quote_leads hu, hnear⟩

end

def saleParts : List (Amount × Point) :=
  [(.lit 64 29999, 0), (.lit 64 11, .lit 64 31), (.lit 64 32726, .lit 64 71)]

def purchaseParts : List (Amount × Point) :=
  [(.lit 64 99999, 0), (.lit 64 23, .lit 64 31), (.lit 64 99978, .lit 64 71)]

theorem splitting_never_pays_sale : ∃ qs p' u rs r' v,
    widePool.tradeEach .input .aToB saleFee 0 saleParts = .ok (qs, p') ∧
    widePool.quote .input .aToB saleFee 0 (.lit 64 62736) = .ok u ∧
    (qs.map fun q => q.output.val).sum = 199998 ∧
    widePool.tradeEach .output .aToB saleFee 0 purchaseParts = .ok (rs, r') ∧
    widePool.quote .output .aToB saleFee 0 (.lit 64 200000) = .ok v ∧
    (rs.map fun q => q.input.val).sum = 62737 ∧
    ((qs.map fun q => q.output.val).sum ≤ u.output.val ∧
      p'.price ≤ widePool.price ∧ u.nextPrice ≤ p'.price) ∧
    v.input.val ≤ (rs.map fun q => q.input.val).sum ∧
      v.nextPrice ≤ widePool.price ∧ r'.price ≤ v.nextPrice := by
  have hsold : (do
      let (qs, _) ← widePool.tradeEach .input .aToB saleFee 0 saleParts
      let u ← widePool.quote .input .aToB saleFee 0 (.lit 64 62736)
      return ((qs.map fun q => q.output.val).sum, u.output.val) : Except Fault (Nat × Nat)) = .ok (199998, 200001) := by
    decide +kernel
  have hbought : (do
      let (rs, _) ← widePool.tradeEach .output .aToB saleFee 0 purchaseParts
      let v ← widePool.quote .output .aToB saleFee 0 (.lit 64 200000)
      return ((rs.map fun q => q.input.val).sum, v.input.val) : Except Fault (Nat × Nat)) = .ok (62737, 62736) := by
    decide +kernel
  simp only [bind_eq_ok, pure_eq_ok, Prod.exists, Prod.mk.injEq] at hsold hbought
  obtain ⟨qs, p', hqs, u, hu, hsum, -⟩ := hsold
  obtain ⟨rs, r', hrs, v, hv, hsum', -⟩ := hbought
  exact ⟨qs, p', u, rs, r', v, hqs, hu, hsum, hrs, hv, hsum',
    (splitting_never_pays rfl saleParts qs (.lit 64 62736) u rfl).1 hqs hu,
    (splitting_never_pays rfl purchaseParts rs (.lit 64 200000) v rfl).2 hrs hv⟩

end Pool

end RangePool
