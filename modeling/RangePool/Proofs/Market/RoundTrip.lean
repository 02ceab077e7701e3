import RangePool.Proofs.Market.Reachable
/-!
No sequence of trades creates value. What a trader gains of a token comes out of its exact reserve, and the two
reserves move against each other along the curve; a fee, or else a rounding, makes every trade lose.
-/
set_option autoImplicit false

namespace RangePool

namespace Pool

def reserveAt (p : Pool) (P : Price) (t : Side) : ℚ := p.liquidity.val * p.densityAt P t

def reserve (p : Pool) : Side → ℚ := p.reserveAt p.price

/-- At another price one reserve is larger and the other one smaller. -/
theorem exists_reserveAt_lt {p : Pool} {P Q : Price} (hL : 0 < p.liquidity.val) (hP : 0 < P.val)
    (hQ : 0 < Q.val) (hne : P ≠ Q) : ∃ t, p.reserveAt P t < p.reserveAt Q t := by
  have hL : (0 : ℚ) < p.liquidity.val := by exact_mod_cast hL
  rcases Nat.lt_or_gt_of_ne (mt Word.ext hne) with h | h
  · exact ⟨.b, mul_lt_mul_of_pos_left (densityAt_b_lt.2 h) hL⟩
  · exact ⟨.a, mul_lt_mul_of_pos_left ((densityAt_a_lt hP hQ).2 h) hL⟩

theorem Quoted.le_reserve {p : Pool} {dir : Direction} {fee : Placement} {q : Quote}
    {into out : Nat} (h : p.Quoted dir fee q into out)
    (hside : fee.side = if fee.onInput then dir.input else dir.output) (t : Side) :
    (dir.output.part q.output.val t - dir.input.part q.input.val t +
      fee.side.part q.shares.sum t : ℚ) ≤ p.reserve t - p.reserveAt q.nextPrice t := by
  have hbalance : (dir.input.part into t + fee.side.part q.shares.sum t +
      dir.output.part q.output.val t : ℚ) =
      dir.input.part q.input.val t + dir.output.part out t := by
    exact_mod_cast h.balance hside t
  have hreserve := h.moved.reserve t
  rw [reserve, reserveAt, reserveAt]
  unfold density at hreserve
  linarith

theorem exists_reserve_gain {p : Pool} (dir : Direction) {next : Price} (hL : 0 < p.liquidity.val)
    (hP : 0 < p.price.val) (hN : 0 < next.val) {x : Nat} (hx : 0 < x) :
    ∃ t, -(dir.input.part x t : ℚ) < p.reserve t - p.reserveAt next t := by
  have hL : (0 : ℚ) < p.liquidity.val := by exact_mod_cast hL
  -- if the price moves the output is lost, and if it stays the input is
  by_cases hmove : p.densityAt next dir.output < p.densityAt p.price dir.output
  · refine ⟨dir.output, ?_⟩
    have hne : dir.output ≠ dir.input := by cases dir <;> simp [Direction.input, Direction.output]
    have hlt := mul_lt_mul_of_pos_left hmove hL
    rw [Side.part_ne hne, reserve, reserveAt, reserveAt]
    push_cast
    linarith
  · refine ⟨dir.input, ?_⟩
    rw [← densityAt_opposed hP hN, not_lt] at hmove
    have hle := mul_le_mul_of_nonneg_left hmove hL.le
    have hx : (0 : ℚ) < x := by exact_mod_cast hx
    rw [Side.part_self, reserve, reserveAt, reserveAt]
    linarith

theorem Quoted.lt_reserve {p : Pool} {dir : Direction} {fee : Placement} {q : Quote}
    {into out : Nat} (h : p.Quoted dir fee q into out)
    (hside : fee.side = if fee.onInput then dir.input else dir.output) (hp : p.Ranged)
    (hfree : p.fees.base.NeverFree) :
    ∃ t, (dir.output.part q.output.val t - dir.input.part q.input.val t : ℚ) <
      p.reserve t - p.reserveAt q.nextPrice t := by
  have hP := hp.price_pos
  -- either there is a fee, or one of the curve's two amounts is nothing while the other is not
  rcases h.costs hfree with hsum | ⟨hinto, hout⟩ | ⟨hout, hinto⟩
  · have hle := h.le_reserve hside fee.side
    have hsum : (0 : ℚ) < q.shares.sum := by exact_mod_cast hsum
    rw [Side.part_self] at hle
    exact ⟨fee.side, by linarith⟩
  · exact absurd (h.moved.into_pos hP hout) (by omega)
  · have hoi := h.output
    have hi := h.input
    have hnone : q.output.val = 0 := by omega
    have hpos : 0 < q.input.val := by omega
    obtain ⟨t, ht⟩ := exists_reserve_gain dir h.moved.liquid hP h.moved.next_pos hpos
    refine ⟨t, ?_⟩
    rw [hnone, Side.part_zero]
    push_cast
    linarith

end Pool

namespace Market

/-- A trade in which neither token takes a transfer fee. -/
def Call.IsTrade : Call → Prop
  | .swap _ _ _ _ _ _ fees => fees = .both none
  | .swapExactOut _ _ _ _ _ _ fees => fees = .both none
  | _ => False

def gained : Call → Receipt → Side → Int
  | .swap dir .., .traded u, t => dir.output.part u.paid.val t - dir.input.part u.sent.val t
  | .swapExactOut dir .., .traded u, t => dir.output.part u.paid.val t - dir.input.part u.sent.val t
  | _, _, _ => 0

def referral : Call → Receipt → Side → Int
  | .swap .., .traded u, t => u.feeSide.part u.quote.shares.referral.val t
  | .swapExactOut .., .traded u, t => u.feeSide.part u.quote.shares.referral.val t
  | _, _, _ => 0

/-- What the tokens of a pool went through while a trader gained `x` of them, or `y` with the referrals. -/
structure Drawn (p q : Pool) (x y : Side → Int) : Prop where
  liquid : 0 < p.liquidity.val
  curve : q.reserveAt = p.reserveAt
  le : ∀ t, (x t : ℚ) ≤ p.reserve t - q.reserve t
  referred : ∀ t, (y t : ℚ) ≤ p.reserve t - q.reserve t
  lt : ∃ t, (x t : ℚ) < p.reserve t - q.reserve t

theorem Drawn.trans {p q r : Pool} {x y x' y' : Side → Int} (h : Drawn p q x y)
    (h' : Drawn q r x' y') : Drawn p r (x + x') (y + y') := by
  refine ⟨h.liquid, h'.curve.trans h.curve, fun t => ?_, fun t => ?_, ?_⟩
  · have := h.le t
    have := h'.le t
    rw [Pi.add_apply]
    push_cast
    linarith
  · have := h.referred t
    have := h'.referred t
    rw [Pi.add_apply]
    push_cast
    linarith
  · obtain ⟨t, ht⟩ := h.lt
    have := h'.le t
    refine ⟨t, ?_⟩
    rw [Pi.add_apply]
    push_cast
    linarith

theorem Trades.drawn {p p' : Pool} {dir : Direction} {referred : Bool} {u : Traded}
    {into out : Nat} (h : Trades p dir referred u p' into out) (hp : Sound p) :
    Drawn p p'
      (fun t => dir.output.part u.quote.output.val t - dir.input.part u.quote.input.val t)
      (fun t => dir.output.part u.quote.output.val t - dir.input.part u.quote.input.val t +
        u.feeSide.part u.quote.shares.referral.val t) := by
  rw [h.feeSide_eq]
  obtain ⟨hq, ha, -⟩ := h
  obtain ⟨k, hk⟩ := hp.collection
  have hside := Placement.side_of hk dir referred
  generalize Placement.of p.collection dir referred = fee at hq ha hside
  have hcurve : p'.reserveAt = p.reserveAt := by
    rw [ha.frame]
    funext P t
    cases t <;> rfl
  have hnext : p'.reserve = p.reserveAt u.quote.nextPrice := by
    rw [Pool.reserve, hcurve, ha.frame]
  have hle := hq.le_reserve hside
  rw [← hnext] at hle
  refine ⟨hq.moved.liquid, hcurve, fun t => ?_, fun t => ?_, ?_⟩
  · have h0 : (0 : ℚ) ≤ fee.side.part u.quote.shares.sum t := Nat.cast_nonneg _
    push_cast
    linarith [hle t]
  · have hreferral : u.quote.shares.referral.val ≤ u.quote.shares.sum := by
      have := ha.referral
      unfold Shares.sum
      omega
    have hpart : (fee.side.part u.quote.shares.referral.val t : ℚ) ≤
        fee.side.part u.quote.shares.sum t := by
      exact_mod_cast Side.part_le hreferral _ t
    push_cast
    linarith [hle t]
  · rw [hnext]
    push_cast
    exact hq.lt_reserve hside hp.ranged (BaseFee.neverFree_of_validate hp.base)

theorem Book.drawn_of_perform {b b' : Book} {c : Call} {r : Receipt} (hp : Sound b.pool)
    (hc : c.IsTrade) (h : b.perform c = .ok (b', r)) :
    Drawn b.pool b'.pool (gained c r) (gained c r + referral c r) := by
  cases c <;> simp only [Call.IsTrade] at hc <;> subst hc <;>
    simp only [perform, bind_eq_ok, pure_eq_ok, Prod.mk.injEq, Prod.exists] at h
  case swap dir amount least sender referred clock =>
    obtain ⟨p, t, ht, rfl, rfl⟩ := h
    obtain ⟨into, out, u, ht, hu, hin, hsent, hpaid, -⟩ := swap_ok ht
    rw [Pair.get_both] at hu
    cases hu
    have hd := ht.drawn hp
    rw [hin, ← hsent, ← hpaid] at hd
    exact hd
  case swapExactOut dir wanted most sender referred clock =>
    obtain ⟨p, t, ht, rfl, rfl⟩ := h
    obtain ⟨into, out, u, v, ht, hu, hout, hpaid, hv, hsent, -⟩ := swapExactOut_ok ht
    rw [Pair.get_both] at hu hv
    cases hu
    cases hv
    have hsent : t.sent = t.quote.input := hsent
    have hd := ht.drawn hp
    rw [← hsent, hout, ← hpaid] at hd
    exact hd

theorem Call.IsTrade.subject {c : Call} (h : c.IsTrade) : c.subject = .pool := by
  cases c <;> first | rfl | cases h

theorem Drawn.gains_nothing {p q : Pool} {x y : Side → Int} (h : Drawn p q x y)
    (hP : 0 < p.price.val) (hQ : 0 < q.price.val) :
    ¬((∀ t, 0 ≤ y t) ∧ ∃ t, 0 < y t) ∧ ∃ t, x t < 0 := by
  have hq : q.reserve = p.reserveAt q.price := by rw [Pool.reserve, h.curve]
  -- at the old price nothing is left to gain, and at any other one of the reserves has grown
  by_cases hprice : p.price = q.price
  · have hsame : q.reserve = p.reserve := by rw [hq, ← hprice, Pool.reserve]
    constructor
    · rintro ⟨-, t, ht⟩
      have hy := h.referred t
      rw [hsame, sub_self] at hy
      have hy : y t ≤ 0 := by exact_mod_cast hy
      omega
    · obtain ⟨t, ht⟩ := h.lt
      rw [hsame, sub_self] at ht
      exact ⟨t, by exact_mod_cast ht⟩
  · obtain ⟨t, ht⟩ := Pool.exists_reserveAt_lt h.liquid hP hQ hprice
    have hneg : p.reserve t - q.reserve t < 0 := by
      rw [hq, sub_neg]
      exact ht
    constructor
    · rintro ⟨hall, -⟩
      have hy : (y t : ℚ) < 0 := (h.referred t).trans_lt hneg
      have hy : y t < 0 := by exact_mod_cast hy
      have := hall t
      omega
    · have hx : (x t : ℚ) < 0 := (h.le t).trans_lt hneg
      exact ⟨t, by exact_mod_cast hx⟩

section
variable {o : Opened} {es fs : List Event} {l m : Ledger}

/-- What a trader gains of each token over a run, without the referrals and with them. -/
def net (es : List Event) : Side → Int := flow es fun _ c r => gained c r
def netReferred (es : List Event) : Side → Int := flow es fun _ c r => gained c r + referral c r

theorem Run.eq_of_nil (h : Run l [] m) : m = l := by
  generalize hes : [] = es at h
  cases h with
  | nil => rfl
  | snoc => simp at hes

theorem Ledger.Step.drawn {c : Order} {r : Receipt} (hl : Sound l.pool) (hc : c.call.IsTrade)
    (h : l.Step c r m) : Drawn l.pool m.pool (gained c.call r) (gained c.call r + referral c.call r) := by
  cases h with
  | pool _ hb => exact Book.drawn_of_perform hl hc hb
  | opening hs _ => cases hs.symm.trans hc.subject
  | position hs _ _ _ => cases hs.symm.trans hc.subject

theorem Run.drawn (hl : l.Obeys Sound Behind) (hr : Run l fs m) (hne : fs ≠ [])
    (hall : ∀ e ∈ fs, e.order.call.IsTrade) :
    Drawn l.pool m.pool (net fs) (netReferred fs) := by
  induction hr with
  | nil => exact absurd rfl hne
  | @snoc es m n o r hr hp ih =>
    have htrade : o.call.IsTrade := hall ⟨m, o, r⟩ (by simp)
    have hd := (Ledger.step_of_perform hp).drawn (Sound.law.run hl hr).pool htrade
    rw [net, netReferred, flow_snoc, flow_snoc]
    by_cases hes : es = []
    · subst hes
      rw [hr.eq_of_nil] at hd
      simpa only [flow_nil, zero_add] using hd
    · exact (ih hes fun e he => hall e (List.mem_append_left _ he)).trans hd

/-- However a trader trades, no token grows without the other one shrinking, even with all referrals in the
trader's hands; and without them the trader has less of some token in the end. -/
theorem trades_gain_nothing (ho : Opening o) (hl : Run (Ledger.opened o) es l) (hr : Run l fs m)
    (hne : fs ≠ []) (hall : ∀ e ∈ fs, e.order.call.IsTrade) :
    ¬((∀ t, 0 ≤ netReferred fs t) ∧ ∃ t, 0 < netReferred fs t) ∧ ∃ t, net fs t < 0 := by
  have hbefore := ho.reaches hl
  have hafter := Sound.law.run hbefore hr
  have hd := hr.drawn hbefore hne hall
  exact hd.gains_nothing hbefore.pool.ranged.price_pos hafter.pool.ranged.price_pos

def thereAndBack : List Order := [
  { call := .swap .aToB (.lit 64 300000) 0 .none true {} (.both none) },
  { call := .swapExactOut .bToA (.lit 64 60000) .top .none true {} (.both none) }]

theorem trades_gain_nothing_thereAndBack : ∃ o fs m, Opening o ∧ Run (Ledger.opened o) fs m ∧
    fs.map Event.order = thereAndBack ∧
    ¬((∀ t, 0 ≤ netReferred fs t) ∧ ∃ t, 0 < netReferred fs t) ∧ ∃ t, net fs t < 0 := by
  have h : ((sampleSession thereAndBack).map fun s => s.2.1.map Event.order) =
      some thereAndBack := by decide +kernel
  obtain ⟨⟨o, fs, m⟩, hs, hfs⟩ := Option.map_eq_some_iff.1 h
  obtain ⟨ho, hr⟩ := sampleSession_eq_some hs
  refine ⟨o, fs, m, ho, hr, hfs, trades_gain_nothing ho .nil hr ?_ ?_⟩
  · rintro rfl
    cases hfs
  · intro e he
    have hmem : e.order ∈ thereAndBack := hfs ▸ List.mem_map_of_mem he
    simp only [thereAndBack, List.mem_cons, List.not_mem_nil, or_false] at hmem
    rcases hmem with h | h <;> rw [h] <;> rfl

end

end Market

end RangePool
