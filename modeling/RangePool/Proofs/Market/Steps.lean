import RangePool.Market.Call
import RangePool.Proofs.Pool.Trade
import RangePool.Proofs.Reward.Stream
import RangePool.Proofs.TransferFee
import RangePool.Proofs.Vesting
/-!
What each request does when it succeeds. A lemma for each says which parts of pool and position change and by
how much; all that is proved about runs rests on these and opens no request again.
-/
set_option autoImplicit false

namespace RangePool

theorem Pool.access_enabled {p : Pool} {clock : Clock} {a : Access} (h : p.access clock = .ok a) :
    a.enabled = p.isEnabled := by
  simp only [access, bind_eq_ok, pure_eq_ok] at h
  obtain ⟨_, _, _, _, rfl⟩ := h
  rfl

structure Pool.RewardsUpdated (p : Pool) (now : Point) (q : Pool) : Prop where
  frame : q = { p with rewards := q.rewards }
  slots : ∀ i, (p.rewards.get i).update p.liquidity now = .ok (q.rewards.get i)

theorem Pool.updateRewards_ok {p q : Pool} {now : Point} (h : p.updateRewards now = .ok q) :
    p.RewardsUpdated now q := by
  simp only [updateRewards, bind_eq_ok, pure_eq_ok, Slots.mapM_eq_ok] at h
  obtain ⟨rewards, hr, rfl⟩ := h
  exact ⟨rfl, hr⟩

structure Pool.RewardsSettled (p : Pool) (x : Position) (now : Point) (q : Pool) (y : Position) :
    Prop where
  updated : p.RewardsUpdated now q
  frame : y = { x with stakes := y.stakes }
  stakes : ∃ L : Liquidity, x.weight = L.val ∧
    ∀ i, (x.stakes.get i).settle L (q.rewards.get i) = .ok (y.stakes.get i)

theorem Pool.RewardsSettled.weight {p q : Pool} {x y : Position} {now : Point}
    (h : p.RewardsSettled x now q y) : y.weight = x.weight := by
  rw [h.frame]; rfl

/-- What a position is credited depends on the slots that it meets, and not on how they came about. -/
theorem Pool.RewardsSettled.unique {p p' q q' : Pool} {x y y' : Position} {now : Point}
    (h : p.RewardsSettled x now q y) (h' : p'.RewardsSettled x now q' y')
    (hr : q.rewards = q'.rewards) : y = y' := by
  obtain ⟨L, hL, hs⟩ := h.stakes
  obtain ⟨L', hL', hs'⟩ := h'.stakes
  obtain rfl : L = L' := Word.ext (hL.symm.trans hL')
  rw [← hr] at hs'
  have hone : x.stakes.zipM (fun s r => s.settle L r) q.rewards = .ok y.stakes :=
    Slots.zipM_eq_ok.2 hs
  have hstakes : y.stakes = y'.stakes := eq_of_ok hone (Slots.zipM_eq_ok.2 hs')
  rw [h.frame, h'.frame, hstakes]

theorem Pool.settleRewards_ok {p q : Pool} {x y : Position} {now : Point}
    (h : p.settleRewards x now = .ok (q, y)) : p.RewardsSettled x now q y := by
  simp only [settleRewards, Position.settleRewards, bind_eq_ok, pure_eq_ok, Prod.mk.injEq,
    Slots.zipM_eq_ok, Position.total_eq_ok] at h
  obtain ⟨q', hq, y', ⟨L, hL, stakes, hs, rfl⟩, rfl, rfl⟩ := h
  exact ⟨updateRewards_ok hq, rfl, L, hL, hs⟩

theorem Pool.settle_ok {p q : Pool} {x z : Position} {now : Point}
    (h : p.settle x now = .ok (q, z)) :
    ∃ y, p.RewardsSettled x now q y ∧ y.FeesSettled p.feePerLiquidity z := by
  simp only [settle, bind_eq_ok, pure_eq_ok, Prod.mk.injEq, Prod.exists] at h
  obtain ⟨q', y, hy, z', hz, rfl, rfl⟩ := h
  have hs := settleRewards_ok hy
  refine ⟨y, hs, ?_⟩
  have hF : q'.feePerLiquidity = p.feePerLiquidity := by rw [hs.updated.frame]
  exact hF ▸ Position.settleFees_ok hz

namespace Market

variable {p p' : Pool} {x x' : Position} {clock : Clock}

theorem openPosition_counts {pool owner : Key}
    (h : openPosition p pool owner clock = .ok (p', x')) :
    p' = { p with metrics := { p.metrics with positions := p'.metrics.positions } } ∧
      p'.metrics.positions.val = p.metrics.positions.val + 1 ∧
      x' = { pool, owner, checkpoints := p.feePerLiquidity } := by
  simp only [openPosition, Metrics.addPosition, bind_eq_ok, pure_eq_ok, Prod.mk.injEq,
    Word.add_eq_ok] at h
  obtain ⟨_, _, _, _, _, ⟨_, hn, rfl⟩, rfl, rfl⟩ := h
  exact ⟨rfl, hn.symm, rfl⟩

theorem openPosition_ok {pool owner : Key}
    (h : openPosition p pool owner clock = .ok (p', x')) :
    p' = { p with metrics := { p.metrics with positions := p'.metrics.positions } } ∧
      x' = { pool, owner, checkpoints := p.feePerLiquidity } := by
  obtain ⟨hp, -, hx⟩ := openPosition_counts h
  exact ⟨hp, hx⟩

theorem closePosition_counts (h : closePosition p x = .ok p') :
    p' = { p with metrics := { p.metrics with positions := p'.metrics.positions } } ∧
      p.metrics.positions.val = p'.metrics.positions.val + 1 := by
  simp only [closePosition, Metrics.dropPosition, bind_eq_ok, pure_eq_ok, Word.sub_eq_ok] at h
  obtain ⟨_, _, _, _, _, ⟨n, hn, rfl⟩, rfl⟩ := h
  exact ⟨rfl, hn.trans (Nat.add_comm _ _)⟩

theorem closePosition_ok (h : closePosition p x = .ok p') :
    p' = { p with metrics := { p.metrics with positions := p'.metrics.positions } } ∧
      x.weight = 0 ∧ x.pending = .both 0 ∧ ∀ i, (x.stakes.get i).pending = 0 := by
  simp only [closePosition, Metrics.dropPosition, Position.isEmpty, bind_eq_ok, pure_eq_ok,
    Position.total_eq_ok] at h
  obtain ⟨empty, ⟨L, hL, rfl⟩, _, hd, _, ⟨_, _, rfl⟩, rfl⟩ := h
  rw [Operation.demand_eq_ok] at hd
  obtain ⟨h0, hp, hs, hs'⟩ := of_decide_eq_true hd
  refine ⟨rfl, by rw [hL, h0]; rfl, hp, ?_⟩
  intro i
  cases i
  · exact hs
  · exact hs'

theorem openPosition_enabled {pool owner : Key}
    (h : openPosition p pool owner clock = .ok (p', x')) : p.isEnabled = true := by
  simp only [openPosition, bind_eq_ok] at h
  obtain ⟨a, ha, _, hon, -⟩ := h
  exact Pool.access_enabled ha ▸ Operation.demand_eq_ok.1 hon

section
variable {L : Liquidity} {limits : Pair Amount} {fees : TransferFees} {m : Moved}

theorem payDeposit_vault {vault : Pair Amount} (h : payDeposit vault limits fees = .ok m) :
    m.vault = vault := by
  simp only [payDeposit, bind_eq_ok, pure_eq_ok] at h
  obtain ⟨_, _, _, _, _, _, rfl⟩ := h
  rfl

theorem payWithdrawal_vault {vault : Pair Amount} (h : payWithdrawal vault limits fees = .ok m) :
    m.vault = vault := by
  simp only [payWithdrawal, bind_eq_ok, pure_eq_ok] at h
  obtain ⟨_, _, _, _, _, _, rfl⟩ := h
  rfl

theorem addLiquidity_parts (h : addLiquidity p x L limits clock fees = .ok (p', x', m)) :
    ∃ q y z, p.isEnabled = true ∧ p.RewardsSettled x clock.time q y ∧
      y.FeesSettled p.feePerLiquidity z ∧ p.amountsFor .up L = .ok m.vault ∧
      payDeposit m.vault limits fees = .ok m ∧ z.deposit L = .ok x' ∧
      p' = { q with liquidity := p'.liquidity } ∧ p'.liquidity.val = p.liquidity.val + L.val := by
  simp only [addLiquidity, bookDeposit, Pool.deposit, bind_eq_ok, pure_eq_ok, Prod.mk.injEq,
    Prod.exists] at h
  obtain ⟨_, ⟨_, _, a, ha, _, hon, q, y, hs, vault, hv, _, _, _, _, ⟨l, hl, z, hz, w, hw, rfl, rfl⟩,
    rfl⟩, m, hm, rfl, rfl, rfl⟩ := h
  have hs := Pool.settleRewards_ok hs
  have henabled := Pool.access_enabled ha ▸ Operation.demand_eq_ok.1 hon
  rw [Word.add_eq_ok] at hl
  rw [hs.updated.frame] at hl hv hz
  obtain rfl := payDeposit_vault hm
  exact ⟨q, y, z, henabled, hs, Position.settleFees_ok hz, hv, hm, hw, rfl, hl.symm⟩

theorem removeLiquidity_parts (h : removeLiquidity p x L limits clock fees = .ok (p', x', m)) :
    ∃ q y z, p.isEnabled = true ∧ p.RewardsSettled x clock.time q y ∧
      y.FeesSettled p.feePerLiquidity z ∧ p.amountsFor .down L = .ok m.vault ∧
      payWithdrawal m.vault limits fees = .ok m ∧ z.withdraw L = .ok x' ∧
      p' = { q with liquidity := p'.liquidity } ∧ p.liquidity.val = p'.liquidity.val + L.val := by
  simp only [removeLiquidity, bookWithdrawal, Pool.withdraw, bind_eq_ok, pure_eq_ok, Prod.mk.injEq,
    Prod.exists] at h
  obtain ⟨_, ⟨_, _, a, ha, _, hon, q, y, hs, vault, hv, _, _, ⟨_, _, l, hl, z, hz, w, hw, rfl, rfl⟩,
    rfl⟩, m, hm, rfl, rfl, rfl⟩ := h
  have hs := Pool.settleRewards_ok hs
  have henabled := Pool.access_enabled ha ▸ Operation.demand_eq_ok.1 hon
  rw [Word.sub_eq_ok] at hl
  rw [hs.updated.frame] at hl hv hz
  obtain rfl := payWithdrawal_vault hm
  exact ⟨q, y, z, henabled, hs, Position.settleFees_ok hz, hv, hm, hw, rfl,
    hl.trans (Nat.add_comm _ _)⟩

/-- A deposit: the position is settled, both liquidities grow, and the rounded up reserves of the difference
go to the vaults. -/
theorem addLiquidity_ok (h : addLiquidity p x L limits clock fees = .ok (p', x', m)) :
    ∃ q y z, p.RewardsSettled x clock.time q y ∧ y.FeesSettled p.feePerLiquidity z ∧
      p.amountsFor .up L = .ok m.vault ∧
      p' = { q with liquidity := p'.liquidity } ∧ p'.liquidity.val = p.liquidity.val + L.val ∧
      x' = { z with unlocked := x'.unlocked } ∧ x'.unlocked.val = z.unlocked.val + L.val := by
  obtain ⟨q, y, z, -, hs, hf, hv, -, hx, hp, hL⟩ := addLiquidity_parts h
  exact ⟨q, y, z, hs, hf, hv, hp, hL, Position.deposit_ok hx⟩

/-- A withdrawal: the position is settled, both liquidities shrink, and the rounded down reserves of the
difference leave the vaults. -/
theorem removeLiquidity_ok (h : removeLiquidity p x L limits clock fees = .ok (p', x', m)) :
    ∃ q y z, p.RewardsSettled x clock.time q y ∧ y.FeesSettled p.feePerLiquidity z ∧
      p.amountsFor .down L = .ok m.vault ∧
      p' = { q with liquidity := p'.liquidity } ∧ p.liquidity.val = p'.liquidity.val + L.val ∧
      x' = { z with unlocked := x'.unlocked } ∧ z.unlocked.val = x'.unlocked.val + L.val := by
  obtain ⟨q, y, z, -, hs, hf, hv, -, hx, hp, hL⟩ := removeLiquidity_parts h
  exact ⟨q, y, z, hs, hf, hv, hp, hL, Position.takeUnlocked_ok hx⟩

end

theorem claimFees_ok {paid : Pair Amount} (h : claimFees p x = .ok (x', paid)) :
    ∃ y, x.FeesSettled p.feePerLiquidity y ∧ paid = y.pending ∧
      x' = { y with claimed := x'.claimed, pending := .both 0 } := by
  simp only [claimFees, Position.claimFees, bind_eq_ok, pure_eq_ok, Prod.mk.injEq] at h
  obtain ⟨y, hy, a, _, b, _, rfl, rfl⟩ := h
  exact ⟨y, Position.settleFees_ok hy, rfl, rfl⟩

structure Released (x : Position) (v : Vesting) (now : Point) (y : Position) (w : Vesting)
    (L : Liquidity) : Prop where
  allowed : v.allowed now = v.released.val + L.val
  frame : y = { x with unlocked := y.unlocked, vested := y.vested }
  vested : x.vested.val = y.vested.val + L.val
  unlocked : y.unlocked.val = x.unlocked.val + L.val
  schedule : v.SameSchedule w
  released : w.released.val = v.released.val + L.val

theorem release_eq_ok {v w : Vesting} {now : Point} {L : Liquidity} :
    release x v now = .ok (x', w, L) ↔ Released x v now x' w L := by
  simp only [release, Vesting.releasable, bind_eq_ok, Vesting.unlockedAt_eq_ok, Word.sub_eq_ok]
  constructor
  · rintro ⟨M, ⟨A, hA, hM⟩, h⟩
    split at h
    · rename_i h0
      simp only [pure_eq_ok, Prod.mk.injEq] at h
      obtain ⟨rfl, rfl, rfl⟩ := h
      subst h0
      exact ⟨hA.trans hM, rfl, rfl, rfl, ⟨rfl⟩, rfl⟩
    · simp only [Vesting.recordRelease, bind_eq_ok, pure_eq_ok, Prod.mk.injEq, Word.add_eq_ok] at h
      obtain ⟨y, hy, w', ⟨R, hR, rfl⟩, rfl, rfl, rfl⟩ := h
      obtain ⟨hf, hv, hu⟩ := Position.release_eq_ok.1 hy
      exact ⟨hA.trans hM, hf, hv, hu, ⟨rfl⟩, hR.symm⟩
  · rintro ⟨hA, hf, hv, hu, ⟨hs⟩, hr⟩
    have hfits : v.allowed now < Nat.pow 2 128 := by
      rw [hA, ← hr]
      exact w.released.isLt
    refine ⟨L, ⟨⟨_, hfits⟩, rfl, hA⟩, ?_⟩
    split
    · rename_i h0
      subst h0
      have hx : x' = x := by
        rw [hf, Word.ext hv.symm, Word.ext hu]
      have hw : w = v := by
        rw [hs, Word.ext hr]
      rw [hx, hw]
      rfl
    · simp only [Vesting.recordRelease, bind_eq_ok, pure_eq_ok, Prod.mk.injEq, Word.add_eq_ok]
      exact ⟨x', Position.release_eq_ok.2 ⟨hf, hv, hu⟩, w, ⟨w.released, hr.symm, hs.symm⟩, rfl,
        rfl, trivial⟩

theorem Released.relabelled {v w : Vesting} {now : Point} {L : Liquidity}
    (h : Released x v now x' w L) : x.Relabelled x' :=
  Position.release_ok (Position.release_eq_ok.2 ⟨h.frame, h.vested, h.unlocked⟩)

theorem Released.released_le_whole {v w : Vesting} {now : Point} {L : Liquidity}
    (h : Released x v now x' w L) : w.released.val ≤ v.whole := by
  have hle : v.allowed now ≤ v.whole := Vesting.allowed_le_whole
  rw [h.released, ← h.allowed]
  exact hle

theorem Released.outstanding {v w : Vesting} {now : Point} {L : Liquidity}
    (h : Released x v now x' w L) : v.outstanding = w.outstanding + L.val := by
  have hle := h.released_le_whole
  have hr := h.released
  rw [Vesting.outstanding, Vesting.outstanding, h.schedule.whole]
  omega

theorem Released.unique {v w w' : Vesting} {now : Point} {y y' : Position} {L L' : Liquidity}
    (h : Released x v now y w L) (h' : Released x v now y' w' L') : y = y' ∧ w = w' ∧ L = L' := by
  cases eq_of_ok (release_eq_ok.2 h) (release_eq_ok.2 h')
  exact ⟨rfl, rfl, rfl⟩

theorem lock_parts {key : Key} {t : LockTerms} {l : Locked}
    (h : lock p x key t clock = .ok l) :
    ∃ u y z w, p.timeUnit = .of u ∧ t.validate (u.now clock) u.maxVesting = .ok () ∧
      p.RewardsSettled x clock.time l.pool y ∧ y.FeesSettled p.feePerLiquidity z ∧
      t.total = .ok l.total ∧ z.vest l.total = .ok w ∧
      Released w (t.start key (u.now clock)) (u.now clock) l.position l.vesting l.released := by
  simp only [lock, bind_eq_ok, pure_eq_ok, Prod.exists, Coded.member_eq_ok] at h
  obtain ⟨u, hu, _, hv, q, z, hz, T, hT, w, hw, y', v', L, hr, rfl⟩ := h
  obtain ⟨y, hs, hf⟩ := Pool.settle_ok hz
  exact ⟨u, y, z, w, hu, hv, hs, hf, hT, hw, release_eq_ok.1 hr⟩

theorem lock_ok {key : Key} {t : LockTerms} {l : Locked}
    (h : lock p x key t clock = .ok l) :
    ∃ y z, p.RewardsSettled x clock.time l.pool y ∧ y.FeesSettled p.feePerLiquidity z ∧
      z.Relabelled l.position := by
  obtain ⟨u, y, z, w, -, -, hs, hf, -, hw, hr⟩ := lock_parts h
  exact ⟨y, z, hs, hf, (Position.vest_ok hw).trans hr.relabelled⟩

theorem refresh_eq_ok {v v' : Vesting} {L : Liquidity} :
    refresh p x v clock = .ok (p', x', v', L) ↔ ∃ u z, p.timeUnit = .of u ∧
      p.settle x clock.time = .ok (p', z) ∧ Released z v (u.now clock) x' v' L := by
  simp only [refresh, Coded.now, bind_eq_ok, pure_eq_ok, Prod.mk.injEq, Prod.exists,
    Coded.member_eq_ok]
  constructor
  · rintro ⟨_, ⟨u, hu, rfl⟩, q, z, hz, y, w, L', hr, rfl, rfl, rfl, rfl⟩
    exact ⟨u, z, hu, hz, release_eq_ok.1 hr⟩
  · rintro ⟨u, z, hu, hz, hr⟩
    exact ⟨_, ⟨u, hu, rfl⟩, p', z, hz, x', v', L, release_eq_ok.2 hr, rfl, rfl, rfl, rfl⟩

theorem refresh_ok {v v' : Vesting} {L : Liquidity}
    (h : refresh p x v clock = .ok (p', x', v', L)) :
    ∃ y z, p.RewardsSettled x clock.time p' y ∧ y.FeesSettled p.feePerLiquidity z ∧
      z.Relabelled x' := by
  obtain ⟨u, z, -, hz, hr⟩ := refresh_eq_ok.1 h
  obtain ⟨y, hs, hf⟩ := Pool.settle_ok hz
  exact ⟨y, z, hs, hf, hr.relabelled⟩

theorem lockForever_parts {L : Liquidity} (h : lockForever p x L clock = .ok (p', x')) :
    ∃ q y z, p.RewardsSettled x clock.time q y ∧ y.FeesSettled p.feePerLiquidity z ∧
      z.lockForever L = .ok x' ∧ p' = { q with permanent := p'.permanent } ∧
      p'.permanent.val = q.permanent.val + L.val := by
  simp only [lockForever, Pool.addPermanent, bind_eq_ok, pure_eq_ok, Prod.mk.injEq,
    Prod.exists, Word.add_eq_ok] at h
  obtain ⟨_, _, q, z, hz, w, hw, _, ⟨_, hL, rfl⟩, rfl, rfl⟩ := h
  obtain ⟨y, hs, hf⟩ := Pool.settle_ok hz
  exact ⟨q, y, z, hs, hf, hw, rfl, hL.symm⟩

theorem lockForever_ok {L : Liquidity} (h : lockForever p x L clock = .ok (p', x')) :
    ∃ q y z, p.RewardsSettled x clock.time q y ∧ y.FeesSettled p.feePerLiquidity z ∧
      z.Relabelled x' ∧ p' = { q with permanent := p'.permanent } := by
  obtain ⟨q, y, z, hs, hf, hx, hp, -⟩ := lockForever_parts h
  exact ⟨q, y, z, hs, hf, Position.lockForever_ok hx, hp⟩

/-! Trades. -/

theorem swap_allowed {dir : Direction} {amount least : Amount} {sender : Key} {referred : Bool}
    {fees : TransferFees} {t : Traded}
    (h : swap p dir amount least sender referred clock fees = .ok (p', t)) :
    ∃ a, p.access clock = .ok a ∧ a.maySwap sender = true := by
  simp only [swap, bind_eq_ok] at h
  obtain ⟨a, ha, _, hmay, -⟩ := h
  exact ⟨a, ha, Operation.demand_eq_ok.1 hmay⟩

theorem swapExactOut_allowed {dir : Direction} {wanted most : Amount} {sender : Key}
    {referred : Bool} {fees : TransferFees} {t : Traded}
    (h : swapExactOut p dir wanted most sender referred clock fees = .ok (p', t)) :
    ∃ a, p.access clock = .ok a ∧ a.maySwap sender = true := by
  simp only [swapExactOut, bind_eq_ok] at h
  obtain ⟨a, ha, _, hmay, -⟩ := h
  exact ⟨a, ha, Operation.demand_eq_ok.1 hmay⟩

structure Trades (p : Pool) (dir : Direction) (referred : Bool) (t : Traded) (p' : Pool)
    (into out : Nat) : Prop where
  quoted : p.Quoted dir (Placement.of p.collection dir referred) t.quote into out
  applied : p.Applied t.quote (Placement.of p.collection dir referred) p'
  feeInTokenA : t.feeInTokenA = (Placement.of p.collection dir referred).inTokenA

theorem swap_ok {dir : Direction} {amount least : Amount} {sender : Key} {referred : Bool}
    {fees : TransferFees} {t : Traded}
    (h : swap p dir amount least sender referred clock fees = .ok (p', t)) :
    ∃ into out u, Trades p dir referred t p' into out ∧
      Transfer.arriving (fees.get dir.input) amount = .ok u ∧ t.quote.input = u.amount ∧
      t.sent = amount ∧ t.paid = t.quote.output ∧ least ≤ t.quote.output := by
  simp only [swap, bind_eq_ok, pure_eq_ok, Prod.mk.injEq] at h
  obtain ⟨_, _, _, _, u, hu, _, hpos, q, hq, now, _, quote, hquote, _, hleast, p'', hp, rfl, rfl⟩ := h
  rw [Operation.demand_eq_ok] at hpos hleast
  have hq := Pool.rebase_ok hq
  obtain ⟨hgiven, into, out, hqd⟩ := Pool.quote_ok hpos hquote
  exact ⟨into, out, u, ⟨hq.quoted hqd, hq.applied (Pool.apply_ok hp), rfl⟩, hu, hgiven, rfl, rfl,
    hleast⟩

theorem swapExactOut_ok {dir : Direction} {wanted most : Amount} {sender : Key} {referred : Bool}
    {fees : TransferFees} {t : Traded}
    (h : swapExactOut p dir wanted most sender referred clock fees = .ok (p', t)) :
    ∃ into out u v, Trades p dir referred t p' into out ∧
      Transfer.sending (fees.get dir.output) wanted = .ok u ∧ t.quote.output = u.amount ∧
      t.paid = u.amount ∧ Transfer.sending (fees.get dir.input) t.quote.input = .ok v ∧
      t.sent = v.amount ∧ v.amount ≤ most := by
  simp only [swapExactOut, bind_eq_ok, pure_eq_ok, Prod.mk.injEq] at h
  obtain ⟨_, _, _, _, _, hpos, u, hu, q, hq, now, _, quote, hquote, v, hv, _, hmost, p'', hp, rfl,
    rfl⟩ := h
  rw [Operation.demand_eq_ok, Word.lt_iff] at hpos
  rw [Operation.demand_eq_ok] at hmost
  have hq := Pool.rebase_ok hq
  have hsent := Transfer.sending_ok hu
  have hpaid : 0 < u.amount.val := by
    have : 0 < wanted.val := hpos
    omega
  obtain ⟨hgiven, into, out, hqd⟩ := Pool.quote_ok hpaid hquote
  exact ⟨into, out, u, v, ⟨hq.quoted hqd, hq.applied (Pool.apply_ok hp), rfl⟩, hu, hgiven, rfl, hv,
    rfl, hmost⟩

/-! Reward slots. -/

theorem openReward_ok {auth : Authority} {signer : Key} {n : Nat} {duration : Word 64}
    {funder mint vault : Key}
    (h : openReward p auth signer n duration funder mint vault = .ok p') :
    ∃ i, SlotIndex.find? n = some i ∧ (p.rewards.get i).opened = false ∧
      p' = { p with rewards :=
        p.rewards.set i ((p.rewards.get i).setUp mint vault funder duration 0) } := by
  simp only [openReward, bind_eq_ok, pure_eq_ok, Operation.slot_eq_ok] at h
  obtain ⟨_, _, i, hi, _, _, _, ho, rfl⟩ := h
  rw [Operation.demand_eq_ok] at ho
  exact ⟨i, hi, by simpa using ho, rfl⟩

/-- Funding brings the slots to the present first. With `carry` the idle reward is funded once more and its
seconds are forgotten. -/
theorem fundReward_ok {auth : Authority} {signer : Key} {n : Nat} {amount : Amount} {carry : Bool}
    {fee : Option TransferFee} {f : Funded}
    (h : fundReward p auth signer n amount carry clock fee = .ok (p', f)) :
    ∃ i q u r₀ r, SlotIndex.find? n = some i ∧ (p.rewards.get i).opened = true ∧
      p.RewardsUpdated clock.time q ∧ Transfer.arriving fee amount = .ok u ∧
      (carry = true ∧ r₀ = { q.rewards.get i with idleSeconds := 0 } ∧
          (∃ idle, (q.rewards.get i).idleReward = .ok idle ∧
            f.total.val = u.amount.val + idle.val) ∨
        carry = false ∧ r₀ = q.rewards.get i ∧ f.total = u.amount) ∧
      r₀.fund clock.time f.total = .ok r ∧ f.rate = r.rate ∧
      p' = { q with rewards := q.rewards.set i r } := by
  simp only [fundReward, bind_eq_ok, Operation.slot_eq_ok] at h
  obtain ⟨i, hi, _, ho, _, _, q, hq, u, hu, h⟩ := h
  rw [Operation.demand_eq_ok] at ho
  have hq := Pool.updateRewards_ok hq
  cases carry with
  | true =>
    simp only [if_true, Pool.claimIdleReward, bind_eq_ok, pure_eq_ok, Prod.mk.injEq,
      Prod.exists, Word.add_eq_ok] at h
    obtain ⟨_, idle, ⟨idle', hidle, rfl, rfl⟩, total, ht, _, _, ⟨rfl, rfl⟩, _, _, r, hr, rfl,
      rfl⟩ := h
    rw [Slots.get_set] at hr
    exact ⟨i, q, u, _, r, hi, ho, hq, hu, .inl ⟨rfl, rfl, idle', hidle, ht.symm⟩, hr, rfl,
      by simp⟩
  | false =>
    simp only [Bool.false_eq_true, if_false, bind_eq_ok, pure_eq_ok, Prod.mk.injEq,
      Prod.exists] at h
    obtain ⟨_, _, ⟨rfl, rfl⟩, _, _, r, hr, rfl, rfl⟩ := h
    exact ⟨i, q, u, _, r, hi, ho, hq, hu, .inr ⟨rfl, rfl, rfl⟩, hr, rfl, rfl⟩

theorem claimReward_parts {n : Nat} {reward : Amount}
    (h : claimReward p x n clock = .ok (p', x', reward)) :
    ∃ i y, SlotIndex.find? n = some i ∧ p.RewardsSettled x clock.time p' y ∧
      y.claimReward i = .ok (x', reward) := by
  simp only [claimReward, bind_eq_ok, pure_eq_ok, Operation.slot_eq_ok, Prod.mk.injEq,
    Prod.exists] at h
  obtain ⟨i, hi, _, _, q, y, hs, _, _, hx, rfl, rfl, rfl⟩ := h
  exact ⟨i, y, hi, Pool.settleRewards_ok hs, hx⟩

theorem claimReward_ok {n : Nat} {reward : Amount}
    (h : claimReward p x n clock = .ok (p', x', reward)) :
    ∃ i y c, SlotIndex.find? n = some i ∧ p.RewardsSettled x clock.time p' y ∧
      reward = (y.stakes.get i).pending ∧
      x' = { y with stakes :=
        y.stakes.set i { y.stakes.get i with claimed := c, pending := 0 } } := by
  obtain ⟨i, y, hi, hs, hx⟩ := claimReward_parts h
  simp only [Position.claimReward, Stake.claim, bind_eq_ok, pure_eq_ok, Prod.mk.injEq,
    Prod.exists] at hx
  obtain ⟨_, _, ⟨c, _, rfl, rfl⟩, rfl, rfl⟩ := hx
  exact ⟨i, y, c, hi, hs, rfl, rfl⟩

theorem withdrawIdleReward_ok {auth : Authority} {signer : Key} {n : Nat} {amount : Amount}
    (h : withdrawIdleReward p auth signer n clock = .ok (p', amount)) :
    ∃ i q, SlotIndex.find? n = some i ∧ p.RewardsUpdated clock.time q ∧
      (q.rewards.get i).idleReward = .ok amount ∧
      p' = { q with rewards := q.rewards.set i { q.rewards.get i with idleSeconds := 0 } } := by
  simp only [withdrawIdleReward, Pool.claimIdleReward, bind_eq_ok, pure_eq_ok,
    Operation.slot_eq_ok, Prod.mk.injEq] at h
  obtain ⟨i, hi, _, _, _, _, _, _, q, hq, a, ha, rfl, rfl⟩ := h
  exact ⟨i, q, hi, Pool.updateRewards_ok hq, ha, rfl⟩

theorem changeRewardDuration_ok {auth : Authority} {signer : Key} {n : Nat} {duration : Word 64}
    (h : changeRewardDuration p auth signer n duration clock = .ok p') :
    ∃ i, p' = { p with rewards := p.rewards.set i { p.rewards.get i with duration } } := by
  simp only [changeRewardDuration, bind_eq_ok, pure_eq_ok] at h
  obtain ⟨_, _, i, _, _, _, _, _, _, _, _, _, rfl⟩ := h
  exact ⟨i, rfl⟩

theorem changeRewardFunder_ok {auth : Authority} {signer : Key} {n : Nat} {funder : Key}
    (h : changeRewardFunder p auth signer n funder clock = .ok p') :
    ∃ i q, p.RewardsUpdated clock.time q ∧
      p' = { q with rewards := q.rewards.set i { q.rewards.get i with funder } } := by
  simp only [changeRewardFunder, bind_eq_ok, pure_eq_ok] at h
  obtain ⟨_, _, i, _, _, _, _, _, q, hq, rfl⟩ := h
  exact ⟨i, q, Pool.updateRewards_ok hq, rfl⟩

/-! Administration. -/

theorem claimProtocolFees_ok {auth : Authority} {signer : Key} {paid : Pair Amount}
    (h : claimProtocolFees p auth signer = .ok (p', paid)) :
    p' = { p with protocolFees := .both 0 } ∧ paid = p.protocolFees := by
  simp only [claimProtocolFees, Pool.claimProtocolFees, bind_eq_ok, pure_eq_ok,
    Prod.mk.injEq] at h
  obtain ⟨_, _, rfl, rfl⟩ := h
  exact ⟨rfl, rfl⟩

theorem claimPartnerFees_ok {signer : Key} {limits paid : Pair Amount}
    (h : claimPartnerFees p signer limits = .ok (p', paid)) :
    p' = { p with partnerFees := p'.partnerFees } ∧
      ∀ t, (p.partnerFees.get t).val = (p'.partnerFees.get t).val + (paid.get t).val := by
  simp only [claimPartnerFees, Pool.claimPartnerFees, bind_eq_ok, pure_eq_ok, Prod.mk.injEq] at h
  obtain ⟨_, _, rfl, rfl⟩ := h
  refine ⟨rfl, ?_⟩
  intro t
  cases t <;> simp only [Pair.get, Word.val_min] <;> omega

theorem changeStatus_ok {auth : Authority} {signer : Key} {status : Coded Status}
    (h : changeStatus p auth signer status = .ok p') : p' = { p with status } := by
  simp only [changeStatus, bind_eq_ok, pure_eq_ok, Coded.check_eq_ok] at h
  obtain ⟨_, _, _, ⟨rfl, -⟩, _, _, rfl⟩ := h
  rfl

end Market

end RangePool
