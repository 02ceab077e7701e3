import RangePool.Pool.Trade
import RangePool.Proofs.Curve.Reserve
import RangePool.Proofs.Fee.Charge
/-!
Trades against the exact reserves. A trade moves the reserves of both tokens along the curve; the pool keeps every
rounding error and all of the fee but the referral.
-/
set_option autoImplicit false

namespace RangePool

def Quote.given (q : Quote) : Curve.Exact → Amount
  | .input => q.input
  | .output => q.output

def Quote.counter (q : Quote) : Curve.Exact → Amount
  | .input => q.output
  | .output => q.input

def Side.part (s : Side) (x : Nat) (t : Side) : Nat := if t = s then x else 0

@[simp] theorem Side.part_self (s : Side) (x : Nat) : s.part x s = x := if_pos rfl

@[simp] theorem Side.part_zero (s t : Side) : s.part 0 t = 0 := by
  unfold part
  split <;> rfl

theorem Side.part_ne {s t : Side} (h : t ≠ s) (x : Nat) : s.part x t = 0 := if_neg h

theorem Side.part_add (s t : Side) (x y : Nat) : s.part (x + y) t = s.part x t + s.part y t := by
  unfold part
  split <;> rfl

theorem Side.part_mul (s t : Side) (x n : Nat) : s.part (x * n) t = s.part x t * n := by
  unfold part
  split
  · rfl
  · rw [Nat.zero_mul]

theorem Side.part_le {x y : Nat} (h : x ≤ y) (s t : Side) : s.part x t ≤ s.part y t := by
  unfold part
  split
  · exact h
  · exact Nat.le_refl 0

theorem Pair.update_add_ok {w : Nat} {p q : Pair (Word w)} {s : Side} {x : Word w}
    (h : p.update s (fun y => y.add x) = .ok q) (t : Side) :
    (q.get t).val = (p.get t).val + s.part x.val t := by
  rw [update_eq_ok] at h
  obtain ⟨y, hy, rfl⟩ := h
  rw [Word.add_eq_ok] at hy
  cases s <;> cases t <;> simp [set, get, Side.part] at hy ⊢ <;> omega

theorem Pair.exists_update_add {w : Nat} {p : Pair (Word w)} {s : Side} {x : Word w} :
    (∃ q, p.update s (fun y => y.add x) = .ok q) ↔ (p.get s).val + x.val < Nat.pow 2 w := by
  rw [← Word.exists_add]
  constructor
  · rintro ⟨q, hq⟩
    obtain ⟨y, hy, -⟩ := update_eq_ok.1 hq
    exact ⟨y, hy⟩
  · rintro ⟨y, hy⟩
    exact ⟨p.set s y, update_eq_ok.2 ⟨y, hy, rfl⟩⟩

namespace Pool

def densityAt (p : Pool) (P : Price) : Side → ℚ
  | .a => Curve.spanA P p.maxPrice
  | .b => Curve.spanB p.minPrice P

def density (p : Pool) : Side → ℚ := p.densityAt p.price

structure Ranged (p : Pool) : Prop where
  pos : 0 < p.minPrice.val
  low : p.minPrice.val ≤ p.price.val
  high : p.price.val ≤ p.maxPrice.val

theorem Ranged.price_pos {p : Pool} (h : p.Ranged) : 0 < p.price.val := Nat.lt_of_lt_of_le h.pos h.low

theorem amountsFor_ok {p : Pool} {r : Rounding} {L : Liquidity} {v : Pair Amount}
    (h : p.amountsFor r L = .ok v) (t : Side) : r.Sides (v.get t).val (L.val * p.density t) := by
  simp only [amountsFor, Curve.reserves, bind_eq_ok, pure_eq_ok] at h
  obtain ⟨a, ha, b, hb, rfl⟩ := h
  cases t
  · exact (Curve.deltaA_ok ha).2.2
  · exact (Curve.deltaB_ok hb).2

theorem densityAt_sub_a (p : Pool) (P Q : Price) :
    p.densityAt P .a - p.densityAt Q .a = Curve.spanA P Q := by
  simp only [densityAt, Curve.spanA]
  ring

theorem densityAt_sub_b (p : Pool) (P Q : Price) :
    p.densityAt P .b - p.densityAt Q .b = Curve.spanB Q P := by
  simp only [densityAt, Curve.spanB]
  ring

section
variable {p : Pool} {P Q : Price}

theorem densityAt_a_lt (hP : 0 < P.val) (hQ : 0 < Q.val) :
    p.densityAt P .a < p.densityAt Q .a ↔ Q.val < P.val := by
  have h := Curve.spanA_pos_iff hQ hP
  rwa [← p.densityAt_sub_a, sub_pos] at h

theorem densityAt_b_lt : p.densityAt P .b < p.densityAt Q .b ↔ P.val < Q.val := by
  have h := Curve.spanB_pos_iff (P := P) (Q := Q)
  rwa [← p.densityAt_sub_b, sub_pos] at h

theorem densityAt_opposed (hP : 0 < P.val) (hQ : 0 < Q.val) (dir : Direction) :
    p.densityAt P dir.input < p.densityAt Q dir.input ↔
      p.densityAt Q dir.output < p.densityAt P dir.output := by
  cases dir with
  | aToB => exact (densityAt_a_lt hP hQ).trans densityAt_b_lt.symm
  | bToA => exact densityAt_b_lt.trans (densityAt_a_lt hQ hP).symm

end

structure MovesTo (p : Pool) (dir : Direction) (next : Price) (into out : Nat) : Prop where
  liquid : 0 < p.liquidity.val
  next_pos : 0 < next.val
  low : p.minPrice.val ≤ p.price.val → p.minPrice.val ≤ next.val
  high : p.price.val ≤ p.maxPrice.val → next.val ≤ p.maxPrice.val
  gained : p.liquidity.val * (p.densityAt next dir.input - p.density dir.input) ≤ into
  lost : out ≤ p.liquidity.val * (p.density dir.output - p.densityAt next dir.output)

theorem MovesTo.reserve {p : Pool} {dir : Direction} {next : Price} {into out : Nat}
    (h : p.MovesTo dir next into out) (t : Side) :
    p.liquidity.val * p.densityAt next t ≤
      p.liquidity.val * p.density t + dir.input.part into t - dir.output.part out t := by
  have hin := h.gained
  have hout := h.lost
  cases dir <;> cases t <;>
  · simp only [Direction.input, Direction.output, Side.part, reduceCtorEq, if_true, if_false]
      at hin hout ⊢
    push_cast
    linarith

theorem MovesTo.into_pos {p : Pool} {dir : Direction} {next : Price} {into out : Nat}
    (h : p.MovesTo dir next into out) (hP : 0 < p.price.val) (hout : 0 < out) : 0 < into := by
  have hL : (0 : ℚ) < p.liquidity.val := by exact_mod_cast h.liquid
  have hout : (0 : ℚ) < out := by exact_mod_cast hout
  have hpaid : p.densityAt next dir.output < p.density dir.output := by
    rw [← sub_pos]
    exact (mul_pos_iff_of_pos_left hL).1 (hout.trans_le h.lost)
  have htaken := (densityAt_opposed hP h.next_pos dir).2 hpaid
  have hinto : (0 : ℚ) < into := (mul_pos hL (sub_pos.2 htaken)).trans_le h.gained
  exact_mod_cast hinto

section
variable {p : Pool} {next : Price} {into out : Nat}

theorem movesTo_aToB (hL : 0 < p.liquidity.val) (hn : 0 < next.val)
    (hlow : p.minPrice.val ≤ next.val) (hle : next.val ≤ p.price.val)
    (hin : p.liquidity.val * Curve.spanA next p.price ≤ into)
    (hout : out ≤ p.liquidity.val * Curve.spanB next p.price) :
    p.MovesTo .aToB next into out := by
  refine ⟨hL, hn, fun _ => hlow, fun h => Nat.le_trans hle h, ?_, ?_⟩
  · rw [density, Direction.input, densityAt_sub_a]
    exact hin
  · rw [density, Direction.output, densityAt_sub_b]
    exact hout

theorem movesTo_bToA (hL : 0 < p.liquidity.val) (hn : 0 < next.val)
    (hhigh : next.val ≤ p.maxPrice.val) (hle : p.price.val ≤ next.val)
    (hin : p.liquidity.val * Curve.spanB p.price next ≤ into)
    (hout : out ≤ p.liquidity.val * Curve.spanA p.price next) :
    p.MovesTo .bToA next into out := by
  refine ⟨hL, hn, fun h => Nat.le_trans h hle, fun _ => hhigh, ?_, ?_⟩
  · rw [density, Direction.input, densityAt_sub_b]
    exact hin
  · rw [density, Direction.output, densityAt_sub_a]
    exact hout

end

def Keeps (p : Pool) : Direction → Price → Prop
  | .aToB, next => p.minPrice.val ≤ next.val
  | .bToA, next => next.val ≤ p.maxPrice.val

def counterAt (p : Pool) (next : Price) : Curve.Exact → Direction → Except Fault Amount
  | .input, .aToB => Curve.deltaB .down next p.price p.liquidity
  | .input, .bToA => Curve.deltaA .down p.price next p.liquidity
  | .output, .aToB => Curve.deltaA .up next p.price p.liquidity
  | .output, .bToA => Curve.deltaB .up p.price next p.liquidity

section
variable {p : Pool} {exact : Curve.Exact} {dir : Direction} {x other : Amount} {next : Price}

theorem move_eq_ok : p.move exact dir x = .ok (next, other) ↔
    Curve.nextPrice exact dir p.price p.liquidity x = .ok next ∧ p.Keeps dir next ∧
      p.counterAt next exact dir = .ok other := by
  unfold move
  rw [bind_eq_ok]
  constructor
  · rintro ⟨n, hn, h⟩
    cases dir <;> simp only at h <;> split at h
    case aToB.isTrue | bToA.isTrue => cases h
    case aToB.isFalse hrange | bToA.isFalse hrange =>
      cases exact <;> simp only [bind_eq_ok, pure_eq_ok, Prod.mk.injEq] at h <;>
      · obtain ⟨y, hy, rfl, rfl⟩ := h
        exact ⟨hn, Nat.not_lt.1 hrange, hy⟩
  · rintro ⟨hn, hrange, hother⟩
    refine ⟨next, hn, ?_⟩
    cases dir with
    | aToB =>
      have hstays : ¬next < p.minPrice := Nat.not_lt.2 hrange
      cases exact <;> simp only [if_neg hstays, bind_eq_ok, pure_eq_ok] <;>
        exact ⟨other, hother, rfl⟩
    | bToA =>
      have hstays : ¬p.maxPrice < next := Nat.not_lt.2 hrange
      cases exact <;> simp only [if_neg hstays, bind_eq_ok, pure_eq_ok] <;>
        exact ⟨other, hother, rfl⟩

theorem move_ok (h : p.move exact dir x = .ok (next, other)) :
    match exact with
    | .input => p.MovesTo dir next x.val other.val
    | .output => p.MovesTo dir next other.val x.val := by
  obtain ⟨hn, hrange, hother⟩ := move_eq_ok.1 h
  obtain ⟨hP, hL, hn⟩ := Curve.nextPrice_ok hn
  cases exact <;> cases dir
  case input.aToB =>
    obtain ⟨hpos, hin⟩ := Curve.priceFromA_enters_ok hP hL hn
    obtain ⟨hle, hout⟩ := Curve.deltaB_ok hother
    exact movesTo_aToB hL hpos hrange hle hin hout
  case input.bToA =>
    obtain ⟨hle, hin⟩ := Curve.priceFromB_enters_ok hL hn
    obtain ⟨-, -, hout⟩ := Curve.deltaA_ok hother
    exact movesTo_bToA hL (by omega) hrange hle hin hout
  case output.aToB =>
    obtain ⟨hle, hpos, hin⟩ := Curve.deltaA_ok hother
    obtain ⟨-, hout⟩ := Curve.priceFromB_leaves_ok hL hn
    exact movesTo_aToB hL hpos hrange hle hin hout
  case output.bToA =>
    obtain ⟨hle, hin⟩ := Curve.deltaB_ok hother
    obtain ⟨-, hout⟩ := Curve.priceFromA_leaves_ok hP hL hn
    exact movesTo_bToA hL (by omega) hrange hle hin hout

end

def Crosses (p : Pool) (exact : Curve.Exact) (dir : Direction) (next : Price) (into out : Amount) :
    Prop :=
  match exact with
  | .input => p.move .input dir into = .ok (next, out)
  | .output => p.move .output dir out = .ok (next, into)

theorem Crosses.movesTo {p : Pool} {exact : Curve.Exact} {dir : Direction} {next : Price}
    {into out : Amount} (h : p.Crosses exact dir next into out) :
    p.MovesTo dir next into.val out.val := by
  cases exact with
  | input => exact move_ok h
  | output => exact move_ok h

/-- What a quote says of the curve: `into` enters it and `out` leaves it, and the fee lies between the curve and
the trader, on the side it is taken on. A trade that pays no fee has nothing on the one side, and so everything
of the other is lost to rounding. -/
structure Quoted (p : Pool) (dir : Direction) (fee : Placement) (q : Quote) (into out : Nat) :
    Prop where
  moved : p.MovesTo dir q.nextPrice into out
  input : q.input.val = into + if fee.onInput then q.shares.sum else 0
  output : out = q.output.val + if fee.onInput then 0 else q.shares.sum
  costs : p.fees.base.NeverFree →
    0 < q.shares.sum ∨ into = 0 ∧ 0 < out ∨ out = 0 ∧ 0 < into

theorem Quoted.balance {p : Pool} {dir : Direction} {fee : Placement} {q : Quote} {into out : Nat}
    (h : p.Quoted dir fee q into out)
    (hside : fee.side = if fee.onInput then dir.input else dir.output) (t : Side) :
    dir.input.part into t + fee.side.part q.shares.sum t + dir.output.part q.output.val t =
      dir.input.part q.input.val t + dir.output.part out t := by
  have hi := h.input
  have ho := h.output
  rw [hside, hi, ho]
  cases fee.onInput with
  | true =>
    simp only [if_true, Side.part_add, Side.part_zero]
    omega
  | false =>
    simp only [Bool.false_eq_true, if_false, Side.part_add, Side.part_zero]
    omega

section
variable {p : Pool} {exact : Curve.Exact} {dir : Direction} {fee : Placement} {now : Point}
  {x : Amount} {q : Quote}

theorem quote_charged (hc : chargesGiven exact fee = true) :
    p.quote exact dir fee now x = .ok q ↔ q.given exact = x ∧ ∃ c,
      p.fees.charge exact x fee.referred now p.activationPoint = .ok c ∧
      p.move exact dir c.amount = .ok (q.nextPrice, q.counter exact) ∧ q.shares = c.shares := by
  simp only [quote, hc, if_true, bind_eq_ok, pure_eq_ok, Prod.exists, Prod.mk.injEq]
  constructor
  · rintro ⟨c, hcharge, next, other, hm, _, _, _, ⟨rfl, rfl, rfl⟩, h⟩
    cases exact <;> cases h <;> exact ⟨rfl, c, hcharge, hm, rfl⟩
  · rintro ⟨hgiven, c, hcharge, hm, hs⟩
    refine ⟨c, hcharge, _, _, hm, _, _, _, ⟨rfl, rfl, rfl⟩, ?_⟩
    cases exact <;> rw [← hgiven, ← hs] <;> rfl

theorem quote_uncharged (hc : chargesGiven exact fee = false) :
    p.quote exact dir fee now x = .ok q ↔ q.given exact = x ∧ ∃ other c,
      p.move exact dir x = .ok (q.nextPrice, other) ∧
      p.fees.charge exact other fee.referred now p.activationPoint = .ok c ∧
      q.counter exact = c.amount ∧ q.shares = c.shares := by
  simp only [quote, hc, Bool.false_eq_true, if_false, bind_eq_ok, pure_eq_ok, Prod.exists,
    Prod.mk.injEq]
  constructor
  · rintro ⟨next, other, hm, c, hcharge, _, _, _, ⟨rfl, rfl, rfl⟩, h⟩
    cases exact <;> cases h <;> exact ⟨rfl, other, c, hm, hcharge, rfl, rfl⟩
  · rintro ⟨hgiven, other, c, hm, hcharge, hcounter, hs⟩
    refine ⟨_, _, hm, c, hcharge, _, _, _, ⟨rfl, rfl, rfl⟩, ?_⟩
    cases exact <;> rw [← hgiven, ← hcounter, ← hs] <;> rfl

/-- A quote is a trade on the curve and a charge. The charge is on the amount that is given, and the curve moves by
what it leaves; or the curve moves by the amount that is given, and the charge is on what comes of that. -/
theorem quote_parts (h : p.quote exact dir fee now x = .ok q) :
    q.given exact = x ∧ ∃ y other z c, p.move exact dir y = .ok (q.nextPrice, other) ∧
      p.fees.charge exact z fee.referred now p.activationPoint = .ok c ∧ q.shares = c.shares ∧
      if chargesGiven exact fee then z = x ∧ y = c.amount ∧ q.counter exact = other
      else y = x ∧ z = other ∧ q.counter exact = c.amount := by
  cases hc : chargesGiven exact fee with
  | true =>
    obtain ⟨hgiven, c, hcharge, hm, hs⟩ := (quote_charged hc).1 h
    exact ⟨hgiven, c.amount, q.counter exact, x, c, hm, hcharge, hs, rfl, rfl, rfl⟩
  | false =>
    obtain ⟨hgiven, other, c, hm, hcharge, hcounter, hs⟩ := (quote_uncharged hc).1 h
    exact ⟨hgiven, x, other, other, c, hm, hcharge, hs, rfl, rfl, hcounter⟩

/-- All that lies between the curve and the trader is the fee, on the side that it is taken on. -/
theorem quote_crosses (h : p.quote exact dir fee now x = .ok q) :
    q.given exact = x ∧ ∃ into out, p.Crosses exact dir q.nextPrice into out ∧
      q.input.val = into.val + (if fee.onInput then q.shares.sum else 0) ∧
      out.val = q.output.val + (if fee.onInput then 0 else q.shares.sum) ∧
      (0 < x.val → p.fees.base.NeverFree →
        0 < q.shares.sum ∨ into.val = 0 ∧ 0 < out.val ∨ out.val = 0 ∧ 0 < into.val) := by
  obtain ⟨hgiven, y, other, z, c, hm, hcharge, hs, h⟩ := quote_parts h
  have hc := FeePlan.charge_ok hcharge
  refine ⟨hgiven, ?_⟩
  -- which side is given, and which side the fee is on: the charge falls on one of them
  cases exact with
  | input =>
    have hgiven : q.input = x := hgiven
    cases hf : fee.onInput <;>
      simp only [chargesGiven, hf, Bool.false_eq_true, if_false, if_true, Quote.counter] at h
    case true =>
      obtain ⟨rfl, rfl, hout⟩ := h
      refine ⟨c.amount, other, hm, ?_, ?_, fun hx hn => .inl ?_⟩
      · rw [hgiven, hs]
        exact (hc.input rfl).symm
      · rw [hout]
        rfl
      · rw [hs]
        exact hc.takes hn hx
    case false =>
      obtain ⟨rfl, rfl, hout⟩ := h
      refine ⟨y, z, hm, ?_, ?_, fun hx hn => ?_⟩
      · rw [hgiven]
        rfl
      · rw [hs, hout]
        exact (hc.input rfl).symm
      · rw [hs]
        rcases Nat.eq_zero_or_pos z.val with h0 | h0
        · exact .inr (.inr ⟨h0, hx⟩)
        · exact .inl (hc.takes hn h0)
  | output =>
    have hgiven : q.output = x := hgiven
    cases hf : fee.onInput <;>
      simp only [chargesGiven, hf, Bool.not_true, Bool.not_false, Bool.false_eq_true, if_false,
        if_true, Quote.counter] at h
    case true =>
      obtain ⟨rfl, rfl, hin⟩ := h
      refine ⟨z, y, hm, ?_, ?_, fun hx hn => ?_⟩
      · rw [hs, hin]
        exact hc.output rfl
      · rw [hgiven]
        rfl
      · rw [hs]
        rcases Nat.eq_zero_or_pos z.val with h0 | h0
        · exact .inr (.inl ⟨h0, hx⟩)
        · exact .inl (hc.takes hn h0)
    case false =>
      obtain ⟨rfl, rfl, hin⟩ := h
      refine ⟨other, c.amount, hm, ?_, ?_, fun hx hn => .inl ?_⟩
      · rw [hin]
        rfl
      · rw [hgiven, hs]
        exact hc.output rfl
      · rw [hs]
        exact hc.takes hn hx

theorem quote_balance (h : p.quote exact dir fee now x = .ok q) :
    q.given exact = x ∧ ∃ into out, p.MovesTo dir q.nextPrice into out ∧
      q.input.val = into + (if fee.onInput then q.shares.sum else 0) ∧
      out = q.output.val + (if fee.onInput then 0 else q.shares.sum) ∧
      (0 < x.val → p.fees.base.NeverFree →
        0 < q.shares.sum ∨ into = 0 ∧ 0 < out ∨ out = 0 ∧ 0 < into) := by
  obtain ⟨hgiven, into, out, hc, h⟩ := quote_crosses h
  exact ⟨hgiven, into.val, out.val, hc.movesTo, h⟩

theorem quote_ok (hx : 0 < x.val) (h : p.quote exact dir fee now x = .ok q) :
    q.given exact = x ∧ ∃ into out, p.Quoted dir fee q into out := by
  obtain ⟨hgiven, into, out, hm, hin, hout, hcosts⟩ := quote_balance h
  exact ⟨hgiven, into, out, hm, hin, hout, hcosts hx⟩

end

def SameButTracker (p q : Pool) : Prop :=
  q = { p with fees := { p.fees with tracker := q.fees.tracker } }

theorem SameButTracker.quoted {p q : Pool} {dir : Direction} {fee : Placement} {u : Quote}
    {into out : Nat} (h : p.SameButTracker q) (hu : q.Quoted dir fee u into out) :
    p.Quoted dir fee u into out := by
  rw [h] at hu
  obtain ⟨⟨hL, hn, hlow, hhigh, hin, hout⟩, hi, ho, hc⟩ := hu
  exact ⟨⟨hL, hn, hlow, hhigh, hin, hout⟩, hi, ho, hc⟩

theorem rebase_ok {p q : Pool} {now : Point} (h : p.rebase now = .ok q) : p.SameButTracker q := by
  unfold rebase at h
  split at h
  · simp only [bind_eq_ok, pure_eq_ok] at h
    obtain ⟨t, _, rfl⟩ := h
    rfl
  · cases h
    rfl

theorem track_ok {p q : Pool} {oldPrice : Price} {now : Point} (h : p.track oldPrice now = .ok q) :
    p.SameButTracker q := by
  unfold track at h
  split at h
  · simp only [bind_eq_ok, pure_eq_ok] at h
    obtain ⟨t, _, _, _, rfl⟩ := h
    rfl
  · cases h
    rfl

structure Applied (p : Pool) (q : Quote) (fee : Placement) (p' : Pool) : Prop where
  frame : p' = { p with
    fees := { p.fees with tracker := p'.fees.tracker }
    price := q.nextPrice
    partnerFees := p'.partnerFees
    protocolFees := p'.protocolFees
    feePerLiquidity := p'.feePerLiquidity
    metrics := p'.metrics }
  partner : ∀ t, (p'.partnerFees.get t).val =
    (p.partnerFees.get t).val + fee.side.part q.shares.partner.val t
  protocol : ∀ t, (p'.protocolFees.get t).val + fee.side.part q.shares.referral.val t =
    (p.protocolFees.get t).val + fee.side.part q.shares.protocol.val t
  referral : q.shares.referral.val ≤ q.shares.protocol.val
  accrual : ∀ t, ∃ gain,
    (p'.feePerLiquidity.get t).val = (p.feePerLiquidity.get t).val + gain ∧
      gain * p.liquidity.val ≤ fee.side.part q.shares.lp.val t * 2 ^ 128

theorem SameButTracker.applied {p q p' : Pool} {u : Quote} {fee : Placement}
    (h : p.SameButTracker q) (hu : q.Applied u fee p') : p.Applied u fee p' := by
  rw [h] at hu
  exact ⟨hu.frame, hu.partner, hu.protocol, hu.referral, hu.accrual⟩

theorem apply_ok {p p' : Pool} {q : Quote} {fee : Placement} {now : Point}
    (h : p.apply q fee now = .ok p') : p.Applied q fee p' := by
  simp only [apply, bind_eq_ok, Word.sub_eq_ok, Word.wideShlDiv, Word.kept_eq_ok,
    Word.shlDiv?_eq_some, Word.val_widen] at h
  obtain ⟨gain, ⟨g, ⟨hL, -, hg⟩, hgain⟩, protocol, hprotocol, partners, hpartner, protocols,
    hprotocols, accruals, haccruals, metrics, -, h⟩ := h
  have hf := track_ok h
  refine ⟨?_, ?_, ?_, ?_, ?_⟩
  · rw [hf]
  · intro t
    rw [hf]
    exact Pair.update_add_ok hpartner t
  · intro t
    rw [hf]
    have := Pair.update_add_ok hprotocols t
    simp only [Side.part] at this ⊢
    by_cases ht : t = fee.side
    · simp only [ht, if_true] at this ⊢
      omega
    · simp only [ht, if_false] at this ⊢
      omega
  · omega
  · intro t
    rw [hf]
    refine ⟨fee.side.part gain.val t, Pair.update_add_ok haccruals t, ?_⟩
    have hle := Rounding.quotient_mul_down (q.shares.lp.val * Nat.pow 2 128) (Nat.pos_of_ne_zero hL)
    rw [hg, hgain] at hle
    unfold Side.part
    split
    · exact hle
    · simp

theorem apply_accrues {p p' : Pool} {q : Quote} {fee : Placement} {now : Point}
    (h : p.apply q fee now = .ok p') :
    p.liquidity.val ≠ 0 ∧ ∀ t,
      (p'.feePerLiquidity.get t).val = (p.feePerLiquidity.get t).val +
        fee.side.part (q.shares.lp.val * 2 ^ 128 / p.liquidity.val) t ∧
      (p'.metrics.lp.get t).val = (p.metrics.lp.get t).val + fee.side.part q.shares.lp.val t := by
  simp only [apply, Metrics.addFee, bind_eq_ok, pure_eq_ok, Word.wideShlDiv, Word.kept_eq_ok,
    Word.shlDiv?_eq_some, Word.val_widen] at h
  obtain ⟨gain, ⟨g, ⟨hL, -, hg⟩, hgain⟩, _, _, _, _, _, _, accruals, haccruals, _,
    ⟨lps, hlps, _, _, _, _, rfl⟩, h⟩ := h
  have hf := track_ok h
  refine ⟨hL, fun t => ?_⟩
  rw [hf]
  have hgain : q.shares.lp.val * 2 ^ 128 / p.liquidity.val = gain.val := hg.trans hgain
  rw [hgain]
  exact ⟨Pair.update_add_ok haccruals t, Pair.update_add_ok hlps t⟩

end Pool

end RangePool
