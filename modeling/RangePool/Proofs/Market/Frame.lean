import RangePool.Proofs.Market.Money
/-!
What requests leave alone. Only a trade touches the price of a pool, its volatility tracker and its accruals, and it
does so by one quote that is applied; the terms a pool was opened with stay for good.
-/
set_option autoImplicit false

namespace RangePool.Market

def Call.trade? : Call → Option (Curve.Exact × Direction)
  | .swap dir .. => some (.input, dir)
  | .swapExactOut dir .. => some (.output, dir)
  | _ => none

/-- What only a trade moves is as before, and only a trade adds to what is held for the protocol and the partner. -/
structure Untraded (p q : Pool) : Prop where
  frame : q = { p with
    liquidity := q.liquidity
    protocolFees := q.protocolFees
    partnerFees := q.partnerFees
    status := q.status
    permanent := q.permanent
    metrics := { p.metrics with positions := q.metrics.positions }
    rewards := q.rewards }
  protocolFees : ∀ t, (q.protocolFees.get t).val ≤ (p.protocolFees.get t).val
  partnerFees : ∀ t, (q.partnerFees.get t).val ≤ (p.partnerFees.get t).val

def protocolPaid : Receipt → Side → Nat
  | .protocolFeesClaimed x, t => (x.get t).val
  | _, _ => 0

def partnerPaid : Receipt → Side → Nat
  | .partnerFeesClaimed x, t => (x.get t).val
  | _, _ => 0

structure Disbursed (p : Pool) (r : Receipt) (q : Pool) : Prop where
  frame : q = { p with
    liquidity := q.liquidity
    protocolFees := q.protocolFees
    partnerFees := q.partnerFees
    status := q.status
    permanent := q.permanent
    metrics := { p.metrics with positions := q.metrics.positions }
    rewards := q.rewards }
  protocol : ∀ t, (q.protocolFees.get t).val + protocolPaid r t = (p.protocolFees.get t).val
  partner : ∀ t, (q.partnerFees.get t).val + partnerPaid r t = (p.partnerFees.get t).val

theorem Disbursed.of_frame {p q : Pool} {r : Receipt} (h : q = { p with
    liquidity := q.liquidity
    status := q.status
    permanent := q.permanent
    metrics := { p.metrics with positions := q.metrics.positions }
    rewards := q.rewards })
    (hr : ∀ t, protocolPaid r t = 0 ∧ partnerPaid r t = 0 := by exact fun _ => ⟨rfl, rfl⟩) :
    Disbursed p r q := by
  refine ⟨?_, fun t => ?_, fun t => ?_⟩
  · rw [h]
  · rw [h, (hr t).1]
    rfl
  · rw [h, (hr t).2]
    rfl

theorem Disbursed.of_updated {p q : Pool} {r : Receipt} {now : Point} (h : p.RewardsUpdated now q)
    (hr : ∀ t, protocolPaid r t = 0 ∧ partnerPaid r t = 0 := by exact fun _ => ⟨rfl, rfl⟩) :
    Disbursed p r q := by
  refine .of_frame ?_ hr
  rw [h.frame]

theorem Disbursed.untraded {p q : Pool} {r : Receipt} (h : Disbursed p r q) : Untraded p q := by
  refine ⟨h.frame, fun t => ?_, fun t => ?_⟩
  · have := h.protocol t
    omega
  · have := h.partner t
    omega

structure Executed (p : Pool) (exact : Curve.Exact) (dir : Direction) (u : Traded) (p' : Pool) :
    Prop where
  given_pos : 0 < (u.quote.given exact).val
  steps : ∃ q fee now time, p.rebase time = .ok q ∧
    q.quote exact dir fee now (u.quote.given exact) = .ok u.quote ∧
    q.apply u.quote fee time = .ok p' ∧ u.feeSide = fee.side

structure ExecutedAt (p : Pool) (exact : Curve.Exact) (dir : Direction) (fee : Placement)
    (u : Traded) (p' : Pool) : Prop where
  given_pos : 0 < (u.quote.given exact).val
  placed : fee = Placement.of p.collection dir fee.referred
  side : u.feeSide = fee.side
  steps : ∃ q now time, p.rebase time = .ok q ∧
    q.quote exact dir fee now (u.quote.given exact) = .ok u.quote ∧
    q.apply u.quote fee time = .ok p'

theorem ExecutedAt.executed {p p' : Pool} {exact : Curve.Exact} {dir : Direction} {fee : Placement}
    {u : Traded} (h : ExecutedAt p exact dir fee u p') : Executed p exact dir u p' := by
  obtain ⟨q, now, time, hq, hquote, hp⟩ := h.steps
  exact ⟨h.given_pos, q, fee, now, time, hq, hquote, hp, h.side⟩

section
variable {p p' : Pool} {dir : Direction} {sender : Key} {referred : Bool} {clock : Clock}
  {fees : TransferFees} {t : Traded}

theorem swap_executed {amount least : Amount}
    (h : swap p dir amount least sender referred clock fees = .ok (p', t)) :
    ExecutedAt p .input dir (.of p.collection dir referred) t p' := by
  simp only [swap, bind_eq_ok, pure_eq_ok, Prod.mk.injEq] at h
  obtain ⟨_, _, _, _, u, _, _, hpos, q, hq, now, _, quote, hquote, _, _, p'', hp, rfl, rfl⟩ := h
  rw [Operation.demand_eq_ok, Word.lt_iff] at hpos
  obtain ⟨hgiven, -⟩ := Pool.quote_ok hpos hquote
  refine ⟨hgiven ▸ hpos, by rw [Placement.of_referred], rfl, q, now, clock.time, hq, ?_, hp⟩
  rw [hgiven]
  exact hquote

theorem swapExactOut_executed {wanted most : Amount}
    (h : swapExactOut p dir wanted most sender referred clock fees = .ok (p', t)) :
    ExecutedAt p .output dir (.of p.collection dir referred) t p' := by
  simp only [swapExactOut, bind_eq_ok, pure_eq_ok, Prod.mk.injEq] at h
  obtain ⟨_, _, _, _, _, hpos, u, hu, q, hq, now, _, quote, hquote, _, _, _, _, p'', hp, rfl,
    rfl⟩ := h
  rw [Operation.demand_eq_ok, Word.lt_iff] at hpos
  have hsent := Transfer.sending_ok hu
  have hpaid : 0 < u.amount.val := by
    have : 0 < wanted.val := hpos
    omega
  obtain ⟨hgiven, -⟩ := Pool.quote_ok hpaid hquote
  refine ⟨hgiven ▸ hpaid, by rw [Placement.of_referred], rfl, q, now, clock.time, hq, ?_, hp⟩
  rw [hgiven]
  exact hquote

end

section
variable {b b' : Book} {c : Call} {r : Receipt}

theorem Book.executedAt_of_perform {exact : Curve.Exact} {dir : Direction}
    (hc : c.trade? = some (exact, dir)) (h : b.perform c = .ok (b', r)) :
    ∃ fee u, r = .traded u ∧ ExecutedAt b.pool exact dir fee u b'.pool := by
  cases c <;> simp only [Call.trade?, Option.some.injEq, Prod.mk.injEq, reduceCtorEq] at hc
  case swap =>
    obtain ⟨rfl, rfl⟩ := hc
    simp only [perform, bind_eq_ok, pure_eq_ok, Prod.mk.injEq, Prod.exists] at h
    obtain ⟨p, u, hu, rfl, rfl⟩ := h
    exact ⟨_, u, rfl, swap_executed hu⟩
  case swapExactOut =>
    obtain ⟨rfl, rfl⟩ := hc
    simp only [perform, bind_eq_ok, pure_eq_ok, Prod.mk.injEq, Prod.exists] at h
    obtain ⟨p, u, hu, rfl, rfl⟩ := h
    exact ⟨_, u, rfl, swapExactOut_executed hu⟩

theorem Book.executed_of_perform {exact : Curve.Exact} {dir : Direction}
    (hc : c.trade? = some (exact, dir)) (h : b.perform c = .ok (b', r)) :
    ∃ u, r = .traded u ∧ Executed b.pool exact dir u b'.pool := by
  obtain ⟨fee, u, hr, hu⟩ := executedAt_of_perform hc h
  exact ⟨u, hr, hu.executed⟩

theorem Book.disbursed_of_perform (hc : c.trade? = none) (h : b.perform c = .ok (b', r)) :
    Disbursed b.pool r b'.pool := by
  cases c <;> simp only [Call.trade?, reduceCtorEq] at hc <;>
    simp only [perform, bind_eq_ok, pure_eq_ok, Prod.mk.injEq, Prod.exists] at h
  case openPosition =>
    obtain ⟨p, x, hx, rfl, rfl⟩ := h
    exact .of_frame (by rw [(openPosition_ok hx).1])
  case closePosition =>
    obtain ⟨p, hp, rfl, rfl⟩ := h
    exact .of_frame (by rw [(closePosition_ok hp).1])
  case addLiquidity =>
    obtain ⟨p, x, m, hm, rfl, rfl⟩ := h
    obtain ⟨q, y, z, hs, -, -, hp, -⟩ := addLiquidity_ok hm
    exact .of_frame (by rw [hp, hs.updated.frame])
  case removeLiquidity =>
    obtain ⟨p, x, m, hm, rfl, rfl⟩ := h
    obtain ⟨q, y, z, hs, -, -, hp, -⟩ := removeLiquidity_ok hm
    exact .of_frame (by rw [hp, hs.updated.frame])
  case removeAll =>
    obtain ⟨p, x, m, hm, rfl, rfl⟩ := h
    obtain ⟨q, y, z, hs, -, -, hp, -⟩ := removeLiquidity_ok hm
    exact .of_frame (by rw [hp, hs.updated.frame])
  case claimFees =>
    obtain ⟨x, paid, hx, rfl, rfl⟩ := h
    exact .of_frame rfl
  case lock =>
    obtain ⟨l, hl, rfl, rfl⟩ := h
    obtain ⟨y, z, hs, -⟩ := lock_ok hl
    exact .of_updated hs.updated
  case refresh =>
    obtain ⟨p, x, v, L, hx, rfl, rfl⟩ := h
    obtain ⟨y, z, hs, -⟩ := refresh_ok hx
    exact .of_updated hs.updated
  case lockForever =>
    obtain ⟨p, x, hx, rfl, rfl⟩ := h
    obtain ⟨q, y, z, hs, -, -, hp⟩ := lockForever_ok hx
    exact .of_frame (by rw [hp, hs.updated.frame])
  case openReward =>
    obtain ⟨p, hp, rfl, rfl⟩ := h
    obtain ⟨i, -, -, hp⟩ := openReward_ok hp
    exact .of_frame (by rw [hp])
  case fundReward =>
    obtain ⟨p, f, hp, rfl, rfl⟩ := h
    obtain ⟨i, q, u, r₀, r, -, -, hq, -, -, -, -, hp⟩ := fundReward_ok hp
    exact .of_frame (by rw [hp, hq.frame])
  case claimReward =>
    obtain ⟨p, x, reward, hx, rfl, rfl⟩ := h
    obtain ⟨i, y, c, -, hs, -⟩ := claimReward_ok hx
    exact .of_updated hs.updated
  case withdrawIdleReward =>
    obtain ⟨p, x, hp, rfl, rfl⟩ := h
    obtain ⟨i, q, -, hq, -, hp⟩ := withdrawIdleReward_ok hp
    exact .of_frame (by rw [hp, hq.frame])
  case changeRewardDuration =>
    obtain ⟨p, hp, rfl, rfl⟩ := h
    obtain ⟨i, hp⟩ := changeRewardDuration_ok hp
    exact .of_frame (by rw [hp])
  case changeRewardFunder =>
    obtain ⟨p, hp, rfl, rfl⟩ := h
    obtain ⟨i, q, hq, hp⟩ := changeRewardFunder_ok hp
    exact .of_frame (by rw [hp, hq.frame])
  case claimProtocolFees =>
    obtain ⟨p, x, hp, rfl, rfl⟩ := h
    obtain ⟨hq, rfl⟩ := claimProtocolFees_ok hp
    refine ⟨by rw [hq], fun t => ?_, fun t => ?_⟩
    · rw [hq, Pair.get_both]
      exact Nat.zero_add _
    · rw [hq]
      rfl
  case claimPartnerFees =>
    obtain ⟨p, x, hp, rfl, rfl⟩ := h
    obtain ⟨hp, hpaid⟩ := claimPartnerFees_ok hp
    refine ⟨by rw [hp], fun t => ?_, fun t => (hpaid t).symm⟩
    rw [hp]
    rfl
  case changeStatus =>
    obtain ⟨p, hp, rfl, rfl⟩ := h
    exact .of_frame (by rw [changeStatus_ok hp])

theorem Book.untraded_of_perform (hc : c.trade? = none) (h : b.perform c = .ok (b', r)) :
    Untraded b.pool b'.pool :=
  (disbursed_of_perform hc h).untraded

end

structure SameTerms (p q : Pool) : Prop where
  frame : q = { p with
    fees := { p.fees with tracker := q.fees.tracker }
    liquidity := q.liquidity
    protocolFees := q.protocolFees
    partnerFees := q.partnerFees
    price := q.price
    status := q.status
    feePerLiquidity := q.feePerLiquidity
    permanent := q.permanent
    metrics := q.metrics
    rewards := q.rewards }

theorem SameTerms.refl (p : Pool) : SameTerms p p := ⟨rfl⟩

theorem SameTerms.trans {p q r : Pool} (h : SameTerms p q) (h' : SameTerms q r) :
    SameTerms p r := by
  constructor
  rw [h'.frame, h.frame]

theorem Untraded.sameTerms {p q : Pool} (h : Untraded p q) : SameTerms p q := by
  constructor
  rw [h.frame]

theorem Executed.sameTerms {p p' : Pool} {exact : Curve.Exact} {dir : Direction} {u : Traded}
    (h : Executed p exact dir u p') : SameTerms p p' := by
  obtain ⟨q, fee, now, time, hq, -, hp, -⟩ := h.steps
  have hq := Pool.rebase_ok hq
  rw [Pool.SameButTracker] at hq
  constructor
  rw [(Pool.apply_ok hp).frame, hq]

theorem Book.sameTerms_of_perform {b b' : Book} {c : Call} {r : Receipt}
    (h : b.perform c = .ok (b', r)) : SameTerms b.pool b'.pool := by
  cases hc : c.trade? with
  | none => exact (untraded_of_perform hc h).sameTerms
  | some t =>
    obtain ⟨u, -, hu⟩ := executed_of_perform hc h
    exact hu.sameTerms

theorem SameTerms.law (p : Pool) : Law (SameTerms p) (fun _ _ => True) where
  pool _ hp h := hp.trans (Book.sameTerms_of_perform h)
  here _ _ _ _ := trivial
  others _ _ _ _ := trivial
  blank _ _ := trivial

theorem Run.sameTerms {l m : Ledger} {es : List Event} (hr : Run l es m) :
    SameTerms l.pool m.pool :=
  ((SameTerms.law l.pool).run ⟨.refl _, fun _ _ => trivial⟩ hr).pool

end RangePool.Market
