import RangePool.Proofs.Curve.Limit
import RangePool.Proofs.Market.Frame
import RangePool.Proofs.Market.Rewards
import RangePool.Proofs.Market.Slippage
import RangePool.Proofs.Market.Solvency
/-!
Liquidity can always leave. A withdrawal is a chain of checked operations. In every state that a pool can reach each
of them succeeds, because what it computes is bounded by what the vaults hold. Reward slots are left out: once one
is open, the clock can hold a withdrawal up.
-/
set_option autoImplicit false

namespace RangePool

theorem RewardSlot.update_unopened {r : RewardSlot} (h : r.opened = false) (L : Liquidity)
    (now : Point) : r.update L now = .ok r := by
  rw [update, h]
  rfl

theorem Stake.settle_unopened {r : RewardSlot} (h : r.opened = false) (s : Stake) (L : Liquidity) :
    s.settle L r = .ok s := by
  rw [settle, h]
  rfl

namespace Pool

theorem RewardsUpdated.sameToken {p q : Pool} {now : Point}
    (h : p.RewardsUpdated now q) (i : SlotIndex) :
    (p.rewards.get i).SameToken (q.rewards.get i) :=
  (h.slot i).sameToken

section
variable {p : Pool} {x : Position} {L : Liquidity}

theorem updateSlots_unopened (hshut : ∀ i, (p.rewards.get i).opened = false) (now : Point) :
    p.rewards.mapM (fun r => r.update p.liquidity now) = .ok p.rewards :=
  Slots.mapM_eq_ok.2 fun i => RewardSlot.update_unopened (hshut i) _ _

theorem settleRewards_unopened (hshut : ∀ i, (p.rewards.get i).opened = false)
    (hw : x.weight = L.val) (now : Point) : p.settleRewards x now = .ok (p, x) := by
  have hstakes : x.stakes.zipM (fun s r => s.settle L r) p.rewards = .ok x.stakes :=
    Slots.zipM_eq_ok.2 fun i => Stake.settle_unopened (hshut i) _ _
  simp only [settleRewards, updateRewards, Position.settleRewards, bind_eq_ok, pure_eq_ok,
    Position.total_eq_ok]
  exact ⟨p, ⟨_, updateSlots_unopened hshut now, rfl⟩, x, ⟨L, hw, _, hstakes, rfl⟩, rfl⟩

theorem RewardsSettled.eq_of_unopened {q : Pool} {y : Position} {now : Point}
    (hshut : ∀ i, (p.rewards.get i).opened = false) (h : p.RewardsSettled x now q y) :
    q = p ∧ y = x := by
  obtain ⟨L, hL, -⟩ := h.stakes
  have hrewards : q.rewards = p.rewards :=
    eq_of_ok (Slots.mapM_eq_ok.2 h.updated.slots) (updateSlots_unopened hshut now)
  refine ⟨by rw [h.updated.frame, hrewards], ?_⟩
  exact h.unique (settleRewards_ok (settleRewards_unopened hshut hL now)) hrewards

theorem exists_access {u : TimeUnit} {g : Origin} (hu : p.timeUnit = .of u) (hg : p.origin = .of g)
    (clock : Clock) : ∃ a, p.access clock = .ok a ∧ a.enabled = p.isEnabled := by
  simp only [access, bind_eq_ok, pure_eq_ok]
  exact ⟨_, ⟨u, Coded.member_eq_ok.2 hu, g, Coded.member_eq_ok.2 hg, rfl⟩, rfl⟩

theorem backing_mono (p : Pool) {v w : Nat} (h : v ≤ w) (t : Side) :
    p.backing .down v t ≤ p.backing .down w t := by
  cases t <;> exact Nat.div_le_div_right (Nat.mul_le_mul_right _ h)

theorem exists_amountsFor {r : Rounding} (hp : p.Ranged)
    (hfits : ∀ t, p.backing r L.val t < Nat.pow 2 64) : ∃ v, p.amountsFor r L = .ok v := by
  obtain ⟨hpos, hlow, hhigh⟩ := hp
  have ha : Curve.deltaA r p.price p.maxPrice L = .ok ⟨_, hfits .a⟩ :=
    Curve.deltaA_eq_ok.2 ⟨hhigh, by omega, rfl⟩
  have hb : Curve.deltaB r p.minPrice p.price L = .ok ⟨_, hfits .b⟩ :=
    Curve.deltaB_eq_ok.2 ⟨hlow, rfl⟩
  simp only [amountsFor, Curve.reserves, bind_eq_ok, pure_eq_ok]
  exact ⟨_, _, ha, _, hb, rfl⟩

end

end Pool

namespace Market

section
variable {p : Pool} {x : Position} {L : Liquidity} {clock : Clock} {fees : TransferFees}

theorem exists_bookWithdrawal {a : Access} {v : Pair Amount} {y : Position}
    (hpos : 0 < L.val) (ha : p.access clock = .ok a) (hon : a.enabled = true)
    (hr : p.settleRewards x clock.time = .ok (p, x)) (hv : p.amountsFor .down L = .ok v)
    (hle : L.val ≤ x.unlocked.val) (hpool : L.val ≤ p.liquidity.val)
    (hy : x.settleFees p.feePerLiquidity = .ok y) :
    ∃ booked, bookWithdrawal p x L clock = .ok booked := by
  obtain ⟨l, hl, -⟩ := Word.exists_sub hpool
  have hunlocked : y.unlocked = x.unlocked := by rw [(Position.settleFees_ok hy).frame]
  obtain ⟨z, hz⟩ : ∃ z, y.withdraw L = .ok z := ⟨_, if_pos (hunlocked ▸ hle)⟩
  have hw : p.withdraw x L = .ok ({ p with liquidity := l }, z) := by
    simp only [Pool.withdraw, bind_eq_ok, pure_eq_ok]
    exact ⟨(), require_eq_ok.2 hle, l, hl, y, hy, z, hz, rfl⟩
  simp only [bookWithdrawal, bind_eq_ok, pure_eq_ok]
  exact ⟨_, (), Operation.demand_eq_ok.2 hpos, a, ha, (), Operation.demand_eq_ok.2 hon, (p, x), hr,
    v, hv, ({ p with liquidity := l }, z), hw, rfl⟩

theorem exists_payWithdrawal (hfees : ∀ t, ∀ f ∈ fees.get t, f.Bounded) (v : Pair Amount) :
    ∃ moved, payWithdrawal v (.both 0) fees = .ok moved := by
  obtain ⟨a, ha⟩ := Transfer.exists_arriving (hfees .a) v.a
  obtain ⟨b, hb⟩ := Transfer.exists_arriving (hfees .b) v.b
  simp only [payWithdrawal, Transfer.arrivingPair, bind_eq_ok, pure_eq_ok]
  exact ⟨_, _, ⟨a, ha, b, hb, rfl⟩, (), Operation.demand_eq_ok.2 (Nat.zero_le _), (),
    Operation.demand_eq_ok.2 (Nat.zero_le _), rfl⟩

/-- Of the pool nothing but liquidity is taken, of the position nothing but unlocked liquidity, and its fees become
due. The floor of the reserves leaves the vaults, and the user receives what the transfer fees leave of it. -/
structure TakenOut (p : Pool) (x : Position) (L : Liquidity) (fees : TransferFees) (p' : Pool)
    (x' : Position) (moved : Moved) : Prop where
  pool : p' = { p with liquidity := p'.liquidity }
  liquidity : p.liquidity.val = p'.liquidity.val + L.val
  position : ∃ y, x.FeesSettled p.feePerLiquidity y ∧ x' = { y with unlocked := x'.unlocked }
  unlocked : x.unlocked.val = x'.unlocked.val + L.val
  vault : p.amountsFor .down L = .ok moved.vault
  user : ∀ t, Transfer.ArrivesAs (fees.get t) (moved.vault.get t) (moved.user.get t)

theorem removeLiquidity_unopened {p' : Pool} {x' : Position} {limits : Pair Amount} {moved : Moved}
    (hshut : ∀ i, (p.rewards.get i).opened = false)
    (h : removeLiquidity p x L limits clock fees = .ok (p', x', moved)) :
    TakenOut p x L fees p' x' moved := by
  obtain ⟨q, y, z, -, hs, hz, hvault, hmoved, hx, hp, hL⟩ := removeLiquidity_parts h
  obtain ⟨rfl, rfl⟩ := hs.eq_of_unopened hshut
  obtain ⟨hframe, hunlocked⟩ := Position.takeUnlocked_ok hx
  have hkept : z.unlocked = y.unlocked := by rw [hz.frame]
  exact ⟨hp, hL, ⟨z, hz, hframe⟩, hkept ▸ hunlocked, hvault,
    arrivingPair_arrives (payWithdrawal_ok hmoved).1⟩

end

section
variable {o : Opened} {es : List Event} {m : Ledger}

theorem Founded.unopened (h : Founded o) (hr : Run (Ledger.opened o) es m)
    (hes : ∀ e ∈ es, e.order.call.opensReward = false) (i : SlotIndex) :
    (m.pool.rewards.get i).opened = false := by
  induction hr with
  | nil =>
    rw [Ledger.opened, h.untouched.rewards, Slots.get_both]
  | @snoc es m n c r hr hp ih =>
    have hc : c.call.opensReward = false := hes ⟨m, c, r⟩ (by simp)
    have ih := ih fun e he => hes e (List.mem_append_left _ he)
    obtain ⟨b, b', hf, hb, hb', hperform⟩ := (Ledger.step_of_perform hp).exists_book
    have hsame := (Book.streams_of_perform hf hperform i).sameToken (.inl hc)
    rw [hb, hb'] at hsame
    exact hsame.opened.trans ih

/-- What a position is due in fees and what its liquidity is worth are part of what the vaults cover. -/
theorem Founded.position_fits (h : Founded o) (hk : ∃ k, o.pool.collection = .of k)
    (hr : Run (Ledger.opened o) es m) {due : Pair Amount}
    (hdue : o.pool.amountsFor .up o.pool.liquidity = .ok due) {t : Side}
    (hfits : vaultBalance due es t < 2 ^ 64) {x : Holding} (hx : x ∈ m.holdings) :
    (x.position.pending.get t).val + x.position.unsettled m.pool.feePerLiquidity t < Nat.pow 2 64 ∧
      m.pool.backing .down x.position.weight t < Nat.pow 2 64 := by
  have howed := (h.owed_le_vault hk hr hdue t).2
  have hfees : (x.position.pending.get t).val +
      x.position.unsettled m.pool.feePerLiquidity t ≤ m.feesOwed t :=
    (Ledger.le_total hx fun x =>
      (x.pending.get t).val + x.unsettled m.pool.feePerLiquidity t).trans (Nat.le_add_left _ _)
  have hbacking : m.pool.backing .down x.position.weight t ≤ m.withdrawable t :=
    Ledger.le_total hx fun x => m.pool.backing .down x.weight t
  have hpow : Nat.pow 2 64 = 18446744073709551616 := rfl
  omega

/-- As long as no reward slot was opened, whoever holds liquidity in an enabled pool can take out any unlocked part
of it at any time, and just that. All that is asked of the vaults is that what they hold is an amount. -/
theorem liquidity_can_leave (h : Founded o) (hk : ∃ k, o.pool.collection = .of k)
    (hr : Run (Ledger.opened o) es m) (hes : ∀ e ∈ es, e.order.call.opensReward = false)
    (hon : m.pool.isEnabled = true) {due : Pair Amount}
    (hdue : o.pool.amountsFor .up o.pool.liquidity = .ok due)
    (hfits : ∀ t, vaultBalance due es t < 2 ^ 64) {x : Holding} (hx : x ∈ m.holdings)
    {L : Liquidity} (hpos : 0 < L) (hle : L ≤ x.position.unlocked) (clock : Clock)
    {fees : TransferFees} (hfees : ∀ t, ∀ f ∈ fees.get t, f.Bounded) :
    ∃ p' x' moved,
      removeLiquidity m.pool x.position L (.both 0) clock fees = .ok (p', x', moved) ∧
        TakenOut m.pool x.position L fees p' x' moved := by
  rw [Word.le_iff] at hle
  have hm := Backed.law.run (h.obeys ⟨h.untouched.ranged, hk⟩) hr
  have hterms : SameTerms o.pool m.pool := hr.sameTerms
  -- the liquidity taken out is part of the position's, and that is part of the pool's
  obtain ⟨W, hW, hweight⟩ := h.exists_weight hr hx
  have htaken : L.val ≤ x.position.weight := by
    rw [Position.weight]
    omega
  obtain ⟨u, hu⟩ : ∃ u, m.pool.timeUnit = .of u := by
    rw [hterms.frame]
    exact h.untouched.timeUnit
  obtain ⟨g, hg⟩ : ∃ g, m.pool.origin = .of g := by
    rw [hterms.frame]
    exact h.untouched.origin
  obtain ⟨a, ha, hen⟩ := Pool.exists_access hu hg clock
  have hrewards := Pool.settleRewards_unopened (h.unopened hr hes) hW clock.time
  obtain ⟨v, hv⟩ := @Pool.exists_amountsFor _ L .down hm.pool.ranged fun t =>
    Nat.lt_of_le_of_lt (m.pool.backing_mono htaken t) (h.position_fits hk hr hdue (hfits t) hx).2
  obtain ⟨y, hy⟩ := Position.exists_settleFees hW (hm.holdings x hx) fun t =>
    (h.position_fits hk hr hdue (hfits t) hx).1
  obtain ⟨booked, hbooked⟩ := exists_bookWithdrawal hpos ha (hen.trans hon) hrewards hv hle
    (htaken.trans (hW.trans_le hweight)) hy
  obtain ⟨moved, hmoved⟩ := exists_payWithdrawal hfees booked.vault
  have hleft : removeLiquidity m.pool x.position L (.both 0) clock fees =
      .ok (booked.pool, booked.position, moved) := by
    simp only [removeLiquidity, bind_eq_ok, pure_eq_ok]
    exact ⟨booked, hbooked, moved, hmoved, rfl⟩
  exact ⟨_, _, _, hleft, removeLiquidity_unopened (h.unopened hr hes) hleft⟩

def exitTour : List Order := [
  { call := .openPosition .none .none {} },
  { call := .addLiquidity sampleTerms.liquidity (.both .top) {} (.both none), holder := 1 },
  { call := .swap .aToB (.lit 64 450000) 0 .none true {} (.both none) },
  { call := .lockForever (.lit 128 9223372036854775808) {}, holder := 1 },
  { call := .swap .bToA (.lit 64 850000) 0 .none false {} (.both none) }]

theorem liquidity_can_leave_exitTour : ∃ o es m x p' x' moved, Founded o ∧
    Run (Ledger.opened o) es m ∧ es.map Event.order = exitTour ∧ m.holdings[1]? = some x ∧
    x.position.unlocked = .lit 128 18446734850337514761224192 ∧
    removeLiquidity m.pool x.position x.position.unlocked (.both 0) { time := .lit 64 500 }
      ⟨none, some { basisPoints := .lit 16 100, maximum := .top }⟩ = .ok (p', x', moved) ∧
    TakenOut m.pool x.position x.position.unlocked
      ⟨none, some { basisPoints := .lit 16 100, maximum := .top }⟩ p' x' moved ∧
    x'.unlocked = 0 := by
  have h : ((sampleSession exitTour).bind fun s => (s.2.2.holdings[1]?).bind fun x =>
      (s.1.pool.amountsFor .up s.1.pool.liquidity).toOption.map fun due =>
        (s.2.1.map Event.order, s.1.pool.collection, s.2.2.pool.isEnabled, x.position.unlocked,
          vaultBalance due s.2.1 .a, vaultBalance due s.2.1 .b)) =
      some (exitTour, .of .received, true, .lit 128 18446734850337514761224192, 1613278,
        2483537) := by decide +kernel
  obtain ⟨⟨o, es, m⟩, hs, h⟩ := Option.bind_eq_some_iff.1 h
  obtain ⟨x, hx, h⟩ := Option.bind_eq_some_iff.1 h
  obtain ⟨due, hdue, h⟩ := Option.map_eq_some_iff.1 h
  rw [toOption_eq_some] at hdue
  simp only [Prod.mk.injEq] at h
  obtain ⟨hes, hk, hon, hunlocked, hvaultA, hvaultB⟩ := h
  obtain ⟨ho, hr⟩ := sampleSession_eq_some hs
  have hshut : ∀ e ∈ es, e.order.call.opensReward = false := by
    intro e he
    have hmem : e.order ∈ exitTour := hes ▸ List.mem_map_of_mem he
    simp only [exitTour, List.mem_cons, List.not_mem_nil, or_false] at hmem
    rcases hmem with h | h | h | h | h <;> rw [h] <;> rfl
  have hfits : ∀ t, vaultBalance due es t < 2 ^ 64 := by
    intro t
    cases t
    · rw [hvaultA]
      decide
    · rw [hvaultB]
      decide
  have hpos : 0 < x.position.unlocked := by
    rw [hunlocked]
    decide
  have hfees : ∀ t, ∀ f ∈ (⟨none, some { basisPoints := .lit 16 100, maximum := .top }⟩ :
      TransferFees).get t, f.Bounded := by
    intro t f hf
    cases t <;> cases hf
    decide
  obtain ⟨p', x', moved, hleft, htaken⟩ := liquidity_can_leave ho.founded ⟨_, hk⟩ hr hshut hon hdue
    hfits (List.mem_of_getElem? hx) hpos (Nat.le_refl _) { time := .lit 64 500 } hfees
  have hnone : x'.unlocked = 0 := Word.ext (by have hsum := htaken.unlocked; rw [Word.val_zero]; omega)
  exact ⟨o, es, m, x, p', x', moved, ho.founded, hr, hes, hx, hunlocked, hleft, htaken, hnone⟩

end

end Market

end RangePool
