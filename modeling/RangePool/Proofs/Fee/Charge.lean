import RangePool.Fee.Shares
import RangePool.Proofs.Fee.Base
/-!
A fee is split without remainder, and what is charged is what the two sides of the charge differ by.
-/
set_option autoImplicit false

namespace RangePool

/-- All that is taken. The referral is a part of the protocol's share. -/
def Shares.sum (s : Shares) : Nat := s.lp.val + s.protocol.val + s.partner.val

theorem Amount.mulDiv_eq_ok {r : Rounding} {x y d q : Amount} :
    Amount.mulDiv r x y d = .ok q ↔ d.val ≠ 0 ∧ r.quotient (x.val * y.val) d.val = q.val := by
  simp only [Amount.mulDiv, Word.mulDiv, Word.kept_eq_ok, Word.mulDiv?_eq_some, Word.val_widen]
  constructor
  · rintro ⟨a, ⟨hd, ha⟩, hq⟩
    exact ⟨hd, ha.trans hq⟩
  · rintro ⟨hd, hq⟩
    exact ⟨q.widen 128, ⟨hd, hq⟩, rfl⟩

theorem Percents.split_ok {p : Percents} {total : Amount} {referred : Bool} {s : Shares}
    (h : p.split total referred = .ok s) : s.sum = total.val := by
  unfold split at h
  rw [bind_eq_ok] at h
  obtain ⟨taken, -, h⟩ := h
  cases referred <;>
  · simp only [Bool.false_eq_true, if_false, if_true, bind_eq_ok, pure_eq_ok, Word.sub_eq_ok,
      Except.ok.injEq] at h
    obtain ⟨referral, -, rest, -, partner, -, protocol, hprotocol, lp, hlp, rfl⟩ := h
    show lp.val + protocol.val + partner.val = total.val
    omega

theorem Amount.exists_percent (x : Amount) {p : Byte} (hp : p.val ≤ Fee.maxPercent) :
    ∃ y, Amount.percent x p = .ok y ∧ y.val ≤ x.val := by
  have hle : Rounding.down.quotient (x.val * p.val) 100 ≤ x.val :=
    Rounding.down.part_le (by decide) hp
  exact ⟨⟨_, Nat.lt_of_le_of_lt hle x.isLt⟩, Amount.mulDiv_eq_ok.2 ⟨by decide, rfl⟩, hle⟩

theorem Amount.percent_le {x y : Amount} {p : Byte} (hp : p.val ≤ Fee.maxPercent)
    (h : Amount.percent x p = .ok y) : y.val ≤ x.val := by
  obtain ⟨z, hz, hle⟩ := x.exists_percent hp
  obtain rfl : z = y := eq_of_ok hz h
  exact hle

theorem Percents.validate_ok {p : Percents} (h : p.validate = .ok ()) :
    p.protocol.val ≤ Fee.maxPercent ∧ p.partner.val ≤ Fee.maxPercent ∧
      p.referral.val ≤ Fee.maxPercent := by
  simp only [validate, bind_eq_ok] at h
  obtain ⟨_, hprotocol, _, hpartner, hreferral⟩ := h
  rw [require_eq_ok] at hprotocol hpartner hreferral
  exact ⟨hprotocol, hpartner, hreferral⟩

/-- Whatever the partner takes of the rest, the protocol's share covers the referral. -/
theorem Percents.referral_le {p : Percents} (hp : p.validate = .ok ()) {total : Amount}
    {referred : Bool} {s : Shares} (h : p.split total referred = .ok s) :
    s.referral.val ≤ s.protocol.val := by
  obtain ⟨-, hpartner, -⟩ := validate_ok hp
  unfold split at h
  rw [bind_eq_ok] at h
  obtain ⟨taken, -, h⟩ := h
  cases referred <;>
  · simp only [Bool.false_eq_true, if_false, if_true, bind_eq_ok, pure_eq_ok, Word.sub_eq_ok,
      Except.ok.injEq] at h
    obtain ⟨referral, -, rest, hrest, partner, hpart, protocol, hprotocol, lp, -, rfl⟩ := h
    have hle := Amount.percent_le hpartner hpart
    show referral.val ≤ protocol.val
    omega

theorem Percents.exists_split {p : Percents} (h : p.validate = .ok ()) (total : Amount)
    (referred : Bool) : ∃ s, p.split total referred = .ok s := by
  obtain ⟨hprotocol, hpartner, hreferral⟩ := validate_ok h
  obtain ⟨taken, htaken, htotal⟩ := total.exists_percent hprotocol
  obtain ⟨referral, hr, hle⟩ : ∃ y : Amount,
      (if referred then Amount.percent taken p.referral else .ok 0) = .ok y ∧ y.val ≤ taken.val := by
    cases referred with
    | true => exact taken.exists_percent hreferral
    | false => exact ⟨0, rfl, Nat.zero_le _⟩
  obtain ⟨rest, hrest, hrestle⟩ := Word.exists_sub hle
  obtain ⟨partner, hp, hple⟩ := Amount.exists_percent rest hpartner
  obtain ⟨protocol, hpr, -⟩ := Word.exists_sub (Nat.le_trans hple hrestle)
  obtain ⟨lp, hlp, -⟩ := Word.exists_sub htotal
  refine ⟨⟨lp, protocol, partner, referral⟩, ?_⟩
  cases referred <;>
  · simp only [Bool.false_eq_true, if_false, if_true] at hr
    simp only [split, htaken, hr, hrest, hp, hpr, hlp, Bool.false_eq_true, if_false, if_true,
      bind_eq_ok, pure_eq_ok, Except.ok.injEq, exists_eq_left']

/-- However much prices moved, the variable fee leaves room for a base fee beside it. -/
theorem Tracker.fee_lt {t : Tracker} {v : Word 128} (h : t.fee = .ok v) : v.val < Nat.pow 2 92 := by
  unfold fee at h
  split at h
  · simp only [bind_eq_ok, pure_eq_ok] at h
    obtain ⟨_, _, _, _, _, _, raised, _, rfl⟩ := h
    have hraised : raised.val < Nat.pow 2 128 := raised.isLt
    exact (Nat.div_lt_iff_lt_mul (by decide)).2 (Nat.lt_of_lt_of_le hraised (by decide))
  · cases h
    decide

theorem FeePlan.exists_numerator {p : FeePlan} (hbase : p.base.validate = .ok ()) {v : Word 128}
    (hv : p.tracker.fee = .ok v) (now activation : Point) :
    ∃ n, p.numerator now activation = .ok n ∧ Fee.minNumerator ≤ n.val ∧ n.val ≤ Fee.maxNumerator := by
  obtain ⟨-, hmax, low, hlow, hmin⟩ := BaseFee.validate_ok hbase
  obtain ⟨b, hb, hge, hle⟩ := BaseFee.exists_current hlow now activation
  have hroom := Tracker.fee_lt hv
  have hmax' : Fee.maxNumerator < Nat.pow 2 92 := by decide
  have hfits : b.val + v.val < Nat.pow 2 128 := by
    have h92 : Nat.pow 2 92 + Nat.pow 2 92 ≤ Nat.pow 2 128 := by decide
    omega
  refine ⟨⟨min (b.val + v.val) Fee.maxNumerator, Nat.lt_of_le_of_lt (Nat.min_le_right _ _) (by decide)⟩,
    ?_, ?_, Nat.min_le_right _ _⟩
  · simp only [numerator, bind_eq_ok, pure_eq_ok]
    exact ⟨b, hb, v, hv, ⟨_, hfits⟩, Word.add_eq_ok.2 rfl, rfl⟩
  · have hlimits : Fee.minNumerator ≤ Fee.maxNumerator := by decide
    exact Nat.le_min.2 ⟨by omega, hlimits⟩

theorem FeePlan.numerator_pos {p : FeePlan} {now activation : Point} {n : Word 64}
    (hf : p.base.NeverFree) (h : p.numerator now activation = .ok n) : 0 < n.val := by
  simp only [numerator, bind_eq_ok, pure_eq_ok, Word.add_eq_ok, Word.val_widen] at h
  obtain ⟨b, hb, t, _, total, ht, rfl⟩ := h
  have hpos := hf now activation b hb
  have hmax : 0 < Fee.maxNumerator := by decide
  show 0 < min total.val Fee.maxNumerator
  omega

/-- What a charge leaves and takes. It takes something whenever the fee is not zero and neither is the amount. -/
structure FeePlan.Charged (p : FeePlan) (exact : Curve.Exact) (x : Amount) (c : Charge) : Prop where
  input : exact = .input → c.amount.val + c.shares.sum = x.val
  output : exact = .output → c.amount.val = x.val + c.shares.sum
  takes : p.base.NeverFree → 0 < x.val → 0 < c.shares.sum

theorem FeePlan.charge_ok {p : FeePlan} {exact : Curve.Exact} {x : Amount} {referred : Bool}
    {now activation : Point} {c : Charge} (h : p.charge exact x referred now activation = .ok c) :
    p.Charged exact x c := by
  unfold charge at h
  rw [bind_eq_ok] at h
  obtain ⟨n, hn, h⟩ := h
  cases exact with
  | input =>
    simp only [bind_eq_ok, pure_eq_ok, Amount.mulDiv_eq_ok, Word.sub_eq_ok, Word.val_lit] at h
    obtain ⟨fee, ⟨-, hfee⟩, net, hnet, s, hs, rfl⟩ := h
    have hs := Percents.split_ok hs
    refine ⟨fun _ => by simp only; omega, by simp, ?_⟩
    intro hf hx
    have hup := Rounding.quotient_mul_up (x.val * n.val) (d := Fee.denominator) (by decide)
    have hxn := Nat.mul_pos hx (numerator_pos hf hn)
    rw [hfee] at hup
    show 0 < s.sum
    rcases Nat.eq_zero_or_pos fee.val with h0 | h0
    · rw [h0] at hup; omega
    · omega
  | output =>
    simp only [bind_eq_ok, pure_eq_ok, Amount.mulDiv_eq_ok, Word.sub_eq_ok, Word.val_lit] at h
    obtain ⟨rest, hrest, gross, ⟨hr, hgross⟩, fee, hfee, s, hs, rfl⟩ := h
    have hs := Percents.split_ok hs
    refine ⟨by simp, fun _ => by simp only; omega, ?_⟩
    intro hf hx
    have hup := Rounding.quotient_mul_up (x.val * Fee.denominator) (Nat.pos_of_ne_zero hr)
    rw [hgross] at hup
    show 0 < s.sum
    rcases Nat.eq_zero_or_pos fee.val with h0 | h0
    · have hg : gross.val = x.val := by omega
      have hxn := Nat.mul_pos hx (numerator_pos hf hn)
      rw [hg, hrest, Nat.mul_add] at hup
      omega
    · omega

theorem FeePlan.numerator_lt {p : FeePlan} {now activation : Point} {n : Word 64}
    (h : p.numerator now activation = .ok n) : n.val < Fee.denominator := by
  simp only [numerator, bind_eq_ok, pure_eq_ok] at h
  obtain ⟨b, _, t, _, total, _, rfl⟩ := h
  have hmax : Fee.maxNumerator < Fee.denominator := by decide
  show min total.val Fee.maxNumerator < Fee.denominator
  omega

theorem FeePlan.charge_input_eq_ok {p : FeePlan} {x : Amount} {referred : Bool}
    {now activation : Point} {c : Charge} :
    p.charge .input x referred now activation = .ok c ↔
      ∃ n fee : Amount, p.numerator now activation = .ok n ∧
        Rounding.up.quotient (x.val * n.val) Fee.denominator = fee.val ∧
        x.val = fee.val + c.amount.val ∧ p.percents.split fee referred = .ok c.shares := by
  simp only [charge, bind_eq_ok, pure_eq_ok, Amount.mulDiv_eq_ok, Word.sub_eq_ok, Word.val_lit]
  constructor
  · rintro ⟨n, hn, fee, ⟨-, hfee⟩, net, hnet, s, hs, rfl⟩
    exact ⟨n, fee, hn, hfee, hnet, hs⟩
  · rintro ⟨n, fee, hn, hfee, hnet, hs⟩
    exact ⟨n, hn, fee, ⟨by decide, hfee⟩, c.amount, hnet, c.shares, hs, rfl⟩

theorem FeePlan.charge_output_eq_ok {p : FeePlan} {y : Amount} {referred : Bool}
    {now activation : Point} {c : Charge} :
    p.charge .output y referred now activation = .ok c ↔
      ∃ n fee : Amount, p.numerator now activation = .ok n ∧
        Rounding.up.quotient (y.val * Fee.denominator) (Fee.denominator - n.val) = c.amount.val ∧
        c.amount.val = y.val + fee.val ∧ p.percents.split fee referred = .ok c.shares := by
  simp only [charge, bind_eq_ok, pure_eq_ok, Amount.mulDiv_eq_ok, Word.sub_eq_ok, Word.val_lit]
  constructor
  · rintro ⟨n, hn, rest, hrest, gross, ⟨-, hgross⟩, fee, hfee, s, hs, rfl⟩
    have hr : rest.val = Fee.denominator - n.val := by omega
    exact ⟨n, fee, hn, hr ▸ hgross, hfee, hs⟩
  · rintro ⟨n, fee, hn, hgross, hfee, hs⟩
    have hlt := numerator_lt hn
    obtain ⟨rest, hrest, -⟩ := Word.exists_sub (a := Word.lit 64 Fee.denominator) hlt.le
    have hr := Word.sub_eq_ok.1 hrest
    rw [Word.val_lit] at hr
    have hr' : rest.val = Fee.denominator - n.val := by omega
    exact ⟨n, hn, rest, hr, c.amount, ⟨by omega, hr' ▸ hgross⟩, fee, hfee, c.shares, hs, rfl⟩

theorem FeePlan.charge_split {p : FeePlan} {exact : Curve.Exact} {x : Amount} {referred : Bool}
    {now activation : Point} {c : Charge} (h : p.charge exact x referred now activation = .ok c) :
    ∃ fee, p.percents.split fee referred = .ok c.shares := by
  cases exact with
  | input =>
    obtain ⟨n, fee, -, -, -, hs⟩ := charge_input_eq_ok.1 h
    exact ⟨fee, hs⟩
  | output =>
    obtain ⟨n, fee, -, -, -, hs⟩ := charge_output_eq_ok.1 h
    exact ⟨fee, hs⟩

/-! Whatever the fees of a pool are, a charge fails only in its arithmetic or because the decay has no name. -/

section
variable {f : Fault}

theorem Amount.mulDiv_ne_error (hstep : ∀ s, f ≠ .arithmetic s) (hwide : f ≠ .tooNarrow) (r : Rounding)
    (x y d : Amount) : Amount.mulDiv r x y d ≠ .error f :=
  Word.kept_ne_error (hstep _) hwide _

theorem Word.sub_ne_fault {w : Nat} (hstep : ∀ s, f ≠ .arithmetic s) (a b : Word w) : a.sub b ≠ .error f :=
  fun h => hstep _ (sub_eq_error.1 h).2

theorem Percents.split_ne_error (hstep : ∀ s, f ≠ .arithmetic s) (hwide : f ≠ .tooNarrow) (p : Percents)
    (total : Amount) (referred : Bool) : p.split total referred ≠ .error f := by
  have hpart : ∀ x b, Amount.percent x b ≠ .error f := fun x b =>
    Amount.mulDiv_ne_error hstep hwide .down x _ _
  have hrest : ∀ taken referral : Amount, (do
      let partner ← Amount.percent (← taken.sub referral) p.partner
      let protocol ← taken.sub partner
      let lp ← total.sub taken
      return ({ lp, protocol, partner, referral } : Shares)) ≠ .error f := fun taken referral =>
    bind_ne_error (Word.sub_ne_fault hstep _ _) fun rest => bind_ne_error (hpart _ _) fun partner =>
      bind_ne_error (Word.sub_ne_fault hstep _ _) fun protocol =>
        bind_ne_error (Word.sub_ne_fault hstep _ _) fun lp => ok_ne_error
  refine bind_ne_error (hpart _ _) fun taken => ?_
  cases referred with
  | true => exact bind_ne_error (hpart _ _) fun referral => hrest taken referral
  | false => exact bind_ne_error ok_ne_error fun referral => hrest taken referral

theorem BaseFee.current_ne_error (hstep : ∀ s, f ≠ .arithmetic s) (hdecay : f ≠ .unknownByte .decay)
    (b : BaseFee) (now activation : Point) : b.current now activation ≠ .error f := by
  unfold current
  split
  · exact ok_ne_error
  · unfold after
    refine bind_ne_error ?_ fun d => ?_
    · unfold Coded.member
      split
      · exact ok_ne_error
      · exact fun h => hdecay (Except.error.inj h).symm
    · cases d with
      | linear => exact bind_ne_error (Word.mul_ne_error (hstep _) _ _) fun cut => Word.sub_ne_fault hstep _ _
      | exponential =>
        refine bind_ne_error ?_ fun φ => ok_ne_error
        unfold retained
        dsimp only
        split
        · exact ok_ne_error
        · exact fun h => hstep _ (Except.error.inj h).symm

theorem Tracker.fee_ne_error (hstep : ∀ s, f ≠ .arithmetic s) (t : Tracker) : t.fee ≠ .error f := by
  unfold fee
  split
  · exact bind_ne_error (Word.mul_ne_error (hstep _) _ _) fun moved =>
      bind_ne_error (Word.mul_ne_error (hstep _) _ _) fun squared =>
        bind_ne_error (Word.mul_ne_error (hstep _) _ _) fun scaled =>
          bind_ne_error (Word.add_ne_error (hstep _) _ _) fun raised => ok_ne_error
  · exact ok_ne_error

theorem FeePlan.charge_ne_error (hstep : ∀ s, f ≠ .arithmetic s) (hwide : f ≠ .tooNarrow)
    (hdecay : f ≠ .unknownByte .decay) (p : FeePlan) (exact : Curve.Exact) (x : Amount) (referred : Bool)
    (now activation : Point) : p.charge exact x referred now activation ≠ .error f := by
  have hsub := fun a b : Amount => Word.sub_ne_fault hstep a b
  have hpart := fun x y d => Amount.mulDiv_ne_error hstep hwide .up x y d
  have hsplit := fun total => Percents.split_ne_error hstep hwide p.percents total referred
  refine bind_ne_error ?_ fun n => ?_
  · exact bind_ne_error (BaseFee.current_ne_error hstep hdecay _ _ _) fun base =>
      bind_ne_error (Tracker.fee_ne_error hstep _) fun v =>
        bind_ne_error (Word.add_ne_error (hstep _) _ _) fun total => ok_ne_error
  · cases exact with
    | input =>
      exact bind_ne_error (hpart _ _ _) fun fee => bind_ne_error (hsub _ _) fun net =>
        bind_ne_error (hsplit _) fun s => ok_ne_error
    | output =>
      exact bind_ne_error (hsub _ _) fun rest => bind_ne_error (hpart _ _ _) fun gross =>
        bind_ne_error (hsub _ _) fun fee => bind_ne_error (hsplit _) fun s => ok_ne_error

end

theorem Placement.of_referred (c : Coded Collection) (dir : Direction) (referred : Bool) :
    (Placement.of c dir referred).referred = referred := by
  unfold Placement.of
  split <;> rfl

theorem Placement.side_of {c : Coded Collection} {k : Collection} (h : c = .of k)
    (dir : Direction) (referred : Bool) :
    (Placement.of c dir referred).side =
      if (Placement.of c dir referred).onInput then dir.input else dir.output := by
  subst h
  simp only [Placement.of, Coded.member?_of]
  cases k <;> cases dir <;> rfl

end RangePool
