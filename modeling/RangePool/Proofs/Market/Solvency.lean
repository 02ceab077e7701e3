import RangePool.Proofs.Market.Reachable
/-!
The vaults cover everything at once. Every request is weighed against an exact measure of what a pool owes: the
fees that were set aside, the fees that accrued and were not yet settled, and the reserves behind the price. No
request raises it by more than the vault receives, or lowers it by less than the vault pays.
-/
set_option autoImplicit false

namespace RangePool

namespace Pool

def backing (p : Pool) (r : Rounding) (w : Nat) : Side → Nat
  | .a => r.quotient (w * (p.maxPrice.val - p.price.val)) (p.price.val * p.maxPrice.val)
  | .b => r.quotient (w * (p.price.val - p.minPrice.val)) (Nat.pow 2 128)

theorem backing_eq {p : Pool} (h : p.Ranged) (w : Nat) (t : Side) :
    ∃ n d : Nat, 0 < d ∧ (w * p.density t : ℚ) = n / d ∧ ∀ r, p.backing r w t = r.quotient n d := by
  obtain ⟨hpos, hlow, hhigh⟩ := h
  cases t with
  | a =>
    exact ⟨_, _, Nat.mul_pos (by omega) (by omega), Curve.mul_spanA w (by omega) hhigh, fun _ => rfl⟩
  | b =>
    exact ⟨_, _, Nat.two_pow_pos 128, Curve.mul_spanB w hlow, fun _ => rfl⟩

theorem sides_backing {p : Pool} (h : p.Ranged) (r : Rounding) (w : Nat) (t : Side) :
    r.Sides (p.backing r w t) (w * p.density t) := by
  obtain ⟨n, d, hd, he, hb⟩ := backing_eq h w t
  rw [he, hb]
  exact r.sides_quotient n hd

theorem backing_up_le {p : Pool} (h : p.Ranged) {w : Nat} {t : Side} {k : Int}
    (hk : w * p.density t ≤ k) : (p.backing .up w t : Int) ≤ k := by
  obtain ⟨n, d, hd, he, hb⟩ := backing_eq h w t
  rw [he, div_le_iff₀ (by exact_mod_cast hd)] at hk
  have hk : (n : Int) ≤ k * d := by exact_mod_cast hk
  have h0 : 0 ≤ k := by
    by_contra hneg
    have := mul_neg_of_neg_of_pos (not_le.1 hneg) (by exact_mod_cast hd : (0 : Int) < d)
    omega
  obtain ⟨k, rfl⟩ := Int.eq_ofNat_of_zero_le h0
  rw [hb]
  exact_mod_cast (Rounding.quotient_up_le hd).2 (by exact_mod_cast hk)

end Pool

namespace Market

/-- What a pool owes of a token by exact measure, as if its liquidity had earned since the beginning. -/
def poolWorth (t : Side) (p : Pool) : ℚ :=
  (p.protocolFees.get t).val + (p.partnerFees.get t).val +
    p.liquidity.val * (p.density t + (p.feePerLiquidity.get t).val / 2 ^ 128)

/-- The correction for when the liquidity of a position came in, and what was settled and not yet claimed. -/
def positionWorth (t : Side) (x : Position) : ℚ :=
  (x.pending.get t).val - x.weight * ((x.checkpoints.get t).val / 2 ^ 128)

theorem positionWorth_settled {x y : Position} {stored : Pair Accrual}
    (h : x.FeesSettled stored y) (t : Side) : positionWorth t y ≤ positionWorth t x := by
  have hp := h.pending t
  have he := Accrual.earned_le (n := 128) fun hw => h.reached hw t
  have hp' : ((y.pending.get t).val : ℚ) = (x.pending.get t).val + x.unsettled stored t := by
    exact_mod_cast hp
  unfold Position.unsettled at hp'
  rw [positionWorth, positionWorth, h.weight, h.checkpoints]
  linarith

theorem positionWorth_relabelled {x y : Position} (h : x.Relabelled y) (t : Side) :
    positionWorth t y = positionWorth t x := by
  rw [positionWorth, h.weight, h.frame]
  rfl

theorem SameMoney.worth {p q : Pool} (h : SameMoney p q) (t : Side) :
    poolWorth t q = poolWorth t p := by
  rw [h.frame]
  rfl

/-- Liquidity that comes or goes has earned nothing yet: it counts on both sides with the present accrual. -/
theorem poolWorth_liquidity {p q r : Pool} (h : SameMoney p q)
    (hr : r = { q with liquidity := r.liquidity }) (t : Side) :
    poolWorth t r = poolWorth t p + ((r.liquidity.val : ℚ) - p.liquidity.val) *
      (p.density t + (p.feePerLiquidity.get t).val / 2 ^ 128) := by
  have hd : r.density t = p.density t := by
    rw [hr, h.frame]
    cases t <;> rfl
  have hF : r.feePerLiquidity = p.feePerLiquidity := by rw [hr, h.frame]
  have hprotocol : r.protocolFees = p.protocolFees := by rw [hr, h.frame]
  have hpartner : r.partnerFees = p.partnerFees := by rw [hr, h.frame]
  rw [poolWorth, poolWorth, hd, hF, hprotocol, hpartner]
  ring

theorem positionWorth_unlocked {x y : Position} (h : y = { x with unlocked := y.unlocked })
    (t : Side) :
    positionWorth t y = positionWorth t x -
      ((y.unlocked.val : ℚ) - x.unlocked.val) * ((x.checkpoints.get t).val / 2 ^ 128) := by
  have hw : (y.weight : ℚ) = x.weight + (y.unlocked.val - x.unlocked.val) := by
    rw [h]
    simp only [Position.weight]
    push_cast
    ring
  rw [positionWorth, positionWorth, hw, h]
  ring

theorem Trades.worth {p p' : Pool} {dir : Direction} {referred : Bool} {u : Traded}
    {into out : Nat} (h : Trades p dir referred u p' into out)
    (hk : ∃ k, p.collection = .of k) (t : Side) :
    poolWorth t p' ≤ poolWorth t p + dir.input.part u.quote.input.val t -
      (dir.output.part u.quote.output.val t + u.feeSide.part u.quote.shares.referral.val t) := by
  rw [h.feeSide_eq]
  obtain ⟨hq, ha, -⟩ := h
  obtain ⟨k, hk⟩ := hk
  have hside := Placement.side_of hk dir referred
  generalize Placement.of p.collection dir referred = fee at hq ha hside
  -- the fee lies between the curve and the trader, and is split without remainder
  have hbalance : (dir.input.part into t + fee.side.part u.quote.shares.sum t +
      dir.output.part u.quote.output.val t : ℚ) =
      dir.input.part u.quote.input.val t + dir.output.part out t := by
    exact_mod_cast hq.balance hside t
  have hsum : (fee.side.part u.quote.shares.sum t : ℚ) =
      fee.side.part u.quote.shares.lp.val t + fee.side.part u.quote.shares.protocol.val t +
        fee.side.part u.quote.shares.partner.val t := by
    rw [Shares.sum, Side.part_add, Side.part_add]
    push_cast
    ring
  have hprotocol : ((p'.protocolFees.get t).val : ℚ) +
      fee.side.part u.quote.shares.referral.val t =
      (p.protocolFees.get t).val + fee.side.part u.quote.shares.protocol.val t := by
    exact_mod_cast ha.protocol t
  have hpartner : ((p'.partnerFees.get t).val : ℚ) =
      (p.partnerFees.get t).val + fee.side.part u.quote.shares.partner.val t := by
    exact_mod_cast ha.partner t
  -- liquidity is credited its part rounded down, so that no more is owed than was taken
  obtain ⟨gain, hgain, hlp⟩ := ha.accrual t
  have hgain : ((p'.feePerLiquidity.get t).val : ℚ) = (p.feePerLiquidity.get t).val + gain := by
    exact_mod_cast hgain
  have hlp : (p.liquidity.val : ℚ) * (gain / 2 ^ 128) ≤
      fee.side.part u.quote.shares.lp.val t := by
    rw [mul_div_assoc', div_le_iff₀ (by positivity), mul_comm]
    exact_mod_cast hlp
  have hreserve := hq.moved.reserve t
  have hL : p'.liquidity = p.liquidity := by rw [ha.frame]
  have hd : p'.density t = p.densityAt u.quote.nextPrice t := by
    rw [ha.frame]
    cases t <;> rfl
  rw [poolWorth, poolWorth, hL, hd, hgain, add_div]
  linarith

/-- No request raises what is owed by more than the vault gains. -/
theorem Book.Moves.worth {b b' : Book} {i o : Side → Nat} (h : b.Moves b' i o)
    (hk : ∃ k, b.pool.collection = .of k) (t : Side) :
    poolWorth t b'.pool + positionWorth t b'.position ≤
      poolWorth t b.pool + positionWorth t b.position + (i t - o t) := by
  cases h with
  | rest hp hx =>
    rw [hp.worth, hx]
    simp [positionWorth, Position.weight]
  | opened hp hb hx =>
    rw [hp.worth, hx, hb]
    simp [positionWorth, Position.weight]
  | @relabelled y z hp hy hf hr =>
    have hs := positionWorth_settled hf t
    have hx : positionWorth t y = positionWorth t b.position := by rw [hy]; rfl
    rw [hp.worth, positionWorth_relabelled hr]
    push_cast
    linarith
  | @deposited q y z L v hp hy hf hv hq hL hx hu =>
    have hs := positionWorth_settled hf t
    have hy : positionWorth t y = positionWorth t b.position := by rw [hy]; rfl
    have hv : (L.val : ℚ) * b.pool.density t ≤ (v.get t).val := Pool.amountsFor_ok hv t
    have hL : (b'.pool.liquidity.val : ℚ) - b.pool.liquidity.val = L.val := by
      rw [hL]; push_cast; ring
    have hu : (b'.position.unlocked.val : ℚ) - z.unlocked.val = L.val := by
      rw [hu]; push_cast; ring
    rw [poolWorth_liquidity hp hq, positionWorth_unlocked hx, hL, hu, hf.checkpoints]
    push_cast
    linarith
  | @withdrawn q y z L v hp hy hf hv hq hL hx hu =>
    have hs := positionWorth_settled hf t
    have hy : positionWorth t y = positionWorth t b.position := by rw [hy]; rfl
    have hv : ((v.get t).val : ℚ) ≤ L.val * b.pool.density t := Pool.amountsFor_ok hv t
    have hL : (b'.pool.liquidity.val : ℚ) - b.pool.liquidity.val = -L.val := by
      rw [hL]; push_cast; ring
    have hu : (b'.position.unlocked.val : ℚ) - z.unlocked.val = -L.val := by
      rw [hu]; push_cast; ring
    rw [poolWorth_liquidity hp hq, positionWorth_unlocked hx, hL, hu, hf.checkpoints]
    push_cast
    linarith
  | traded ht hx =>
    have := ht.worth hk t
    rw [hx]
    push_cast
    linarith
  | @claimed y hp hf hx =>
    have hs := positionWorth_settled hf t
    have hy : positionWorth t b'.position = positionWorth t y - (y.pending.get t).val := by
      rw [hx]
      simp only [positionWorth, Position.weight, Pair.get_both, Word.val_zero]
      push_cast
      ring
    rw [hp, hy]
    push_cast
    linarith
  | protocolClaimed hp hx =>
    have hw : poolWorth t b'.pool = poolWorth t b.pool - (b.pool.protocolFees.get t).val := by
      rw [hp]
      simp only [poolWorth, Pool.density, Pool.densityAt, Pair.get_both, Word.val_zero]
      push_cast
      ring
    rw [hw, hx]
    push_cast
    linarith
  | @partnerClaimed paid hp hx hpaid =>
    have hpaid : ((b.pool.partnerFees.get t).val : ℚ) =
        (b'.pool.partnerFees.get t).val + (paid.get t).val := by
      exact_mod_cast hpaid t
    have hw : poolWorth t b'.pool = poolWorth t b.pool - (paid.get t).val := by
      rw [poolWorth, poolWorth, hpaid, hp]
      cases t <;> simp only [Pool.density, Pool.densityAt] <;> ring
    rw [hw, hx]
    push_cast
    linarith

section
variable {o : Opened} {es : List Event} {l m : Ledger}

/-- What the vault of a token holds after some events, if it held `due` before them. -/
def vaultBalance (due : Pair Amount) (es : List Event) (t : Side) : Int :=
  (due.get t).val + flow es fun _ c r => (paidIn c r t : Int) - paidOut c r t

/-- Fees of a token that belong to the protocol, the partner and the positions, settled or not. -/
def Ledger.feesOwed (l : Ledger) (t : Side) : Nat :=
  (l.pool.protocolFees.get t).val + (l.pool.partnerFees.get t).val +
    l.total fun x => (x.pending.get t).val + x.unsettled l.pool.feePerLiquidity t

/-- What all positions together are paid for their liquidity, each of them rounded down. -/
def Ledger.withdrawable (l : Ledger) (t : Side) : Nat :=
  l.total fun x => l.pool.backing .down x.weight t

theorem Ledger.withdrawable_le (h : l.pool.Ranged)
    (hL : l.pool.liquidity.val = l.total Position.weight) (t : Side) :
    l.withdrawable t ≤ l.pool.backing .up l.pool.liquidity.val t := by
  have hup : (l.pool.liquidity.val : ℚ) * l.pool.density t ≤
      l.pool.backing .up l.pool.liquidity.val t := Pool.sides_backing h .up _ t
  have hdown : l.total (fun x => (l.pool.backing .down x.weight t : ℚ)) ≤
      l.total fun x => (x.weight : ℚ) * l.pool.density t :=
    Ledger.total_le fun x _ => Pool.sides_backing h .down x.position.weight t
  rw [Ledger.total_mul, ← Ledger.total_cast, ← Ledger.total_cast, ← hL] at hdown
  exact_mod_cast hdown.trans hup

theorem Ledger.feesOwed_le {J : Pool → Prop} (h : l.Obeys J Behind)
    (hL : l.pool.liquidity.val = l.total Position.weight) (t : Side) :
    (l.feesOwed t : ℚ) + l.pool.liquidity.val * l.pool.density t ≤
      poolWorth t l.pool + l.total (positionWorth t) := by
  have hx : l.total (fun x => (((x.pending.get t).val + x.unsettled l.pool.feePerLiquidity t : Nat) : ℚ)) ≤
      l.total fun x => positionWorth t x +
        x.weight * ((l.pool.feePerLiquidity.get t).val / 2 ^ 128 : ℚ) := by
    refine Ledger.total_le fun x hx => ?_
    have he := Accrual.earned_le (n := 128) (w := x.position.weight) fun _ => h.holdings x hx t
    rw [positionWorth, Position.unsettled]
    push_cast
    linarith
  rw [Ledger.total_add, Ledger.total_mul, ← Ledger.total_cast, ← Ledger.total_cast, ← hL] at hx
  rw [Ledger.feesOwed, poolWorth]
  push_cast at hx ⊢
  linarith

theorem Opened.Untouched.worth_le (h : o.Untouched) {due : Pair Amount}
    (hdue : o.pool.amountsFor .up o.pool.liquidity = .ok due) (t : Side) :
    poolWorth t (Ledger.opened o).pool + (Ledger.opened o).total (positionWorth t) ≤
      (due.get t).val := by
  obtain ⟨k, owner, hx⟩ := h.position
  have hle : (o.pool.liquidity.val : ℚ) * o.pool.density t ≤ (due.get t).val :=
    Pool.amountsFor_ok hdue t
  simpa [poolWorth, Ledger.total, Ledger.opened, hx, positionWorth, h.protocolFees, h.partnerFees,
    h.feePerLiquidity] using hle

/-- The measure never rises above what the vault holds, so neither do the fees owed and the reserves together. -/
theorem Founded.owed_le_vault (ho : Founded o) (hk : ∃ k, o.pool.collection = .of k)
    (hr : Run (Ledger.opened o) es m) {due : Pair Amount}
    (hdue : o.pool.amountsFor .up o.pool.liquidity = .ok due) (t : Side) :
    (m.feesOwed t + m.pool.backing .up m.pool.liquidity.val t : Int) ≤ vaultBalance due es t ∧
      (m.feesOwed t + m.withdrawable t : Int) ≤ vaultBalance due es t := by
  have hopened : (Ledger.opened o).Obeys Backed Behind := ho.obeys ⟨ho.untouched.ranged, hk⟩
  have hm := Backed.law.run hopened hr
  have hL := ho.liquidity_eq hr
  have hrun := Backed.law.measure_run (P := poolWorth t) (X := positionWorth t)
    (d := fun _ c r => ((paidIn c r t - paidOut c r t : Int) : ℚ))
    (by simp [positionWorth, Position.weight])
    (fun hf hs _ hp => by
      have := (Book.moves_of_perform hf hp).worth hs.collection t
      push_cast
      exact this) hopened hr
  rw [← flow_intCast] at hrun
  have hnew := ho.untouched.worth_le hdue t
  have howed := m.feesOwed_le hm hL t
  have hle : m.pool.liquidity.val * m.pool.density t ≤
      ((vaultBalance due es t - m.feesOwed t : Int) : ℚ) := by
    rw [vaultBalance]
    push_cast at hrun ⊢
    linarith
  have hup := Pool.backing_up_le hm.pool.ranged hle
  have hdown := m.withdrawable_le hm.pool.ranged hL t
  omega

/-- After every run the vaults hold all fees that belong to anyone and, on top, the reserves behind the whole
liquidity rounded up; the withdrawals of all positions never come to more than that. -/
theorem vaults_cover (ho : Opening o) (hr : Run (Ledger.opened o) es m) :
    ∃ due, o.pool.amountsFor .up o.pool.liquidity = .ok due ∧ ∀ t,
      (m.feesOwed t + m.pool.backing .up m.pool.liquidity.val t : Int) ≤ vaultBalance due es t ∧
        (m.feesOwed t + m.withdrawable t : Int) ≤ vaultBalance due es t := by
  obtain ⟨due, hdue⟩ := ho.new.due
  exact ⟨due, hdue, ho.founded.owed_le_vault ho.new.sound.collection hr hdue⟩

def liquidityTour : List Order := [
  { call := .openPosition .none .none {} },
  { call := .addLiquidity sampleTerms.liquidity (.both .top) {} (.both none)
    holder := 1 },
  { call := .swap .aToB (.lit 64 400000) 0 .none true {} (.both none) },
  { call := .swapExactOut .bToA (.lit 64 70000) .top .none false {} (.both none) },
  { call := .claimFees, holder := 1 },
  { call := .removeAll (.both 0) {} (.both none), holder := 1 }]

theorem vaults_cover_liquidityTour : ∃ o es m, Opening o ∧ Run (Ledger.opened o) es m ∧
    es.map Event.order = liquidityTour ∧ ∃ due, o.pool.amountsFor .up o.pool.liquidity = .ok due ∧
      ∀ t, (m.feesOwed t + m.pool.backing .up m.pool.liquidity.val t : Int) ≤ vaultBalance due es t ∧
        (m.feesOwed t + m.withdrawable t : Int) ≤ vaultBalance due es t := by
  have h : ((sampleSession liquidityTour).map fun s => s.2.1.map Event.order) =
      some liquidityTour := by decide +kernel
  obtain ⟨⟨o, es, m⟩, hs, hes⟩ := Option.map_eq_some_iff.1 h
  obtain ⟨ho, hr⟩ := sampleSession_eq_some hs
  exact ⟨o, es, m, ho, hr, hes, vaults_cover ho hr⟩

end

end Market

end RangePool
