import RangePool.Proofs.Market.Run
import RangePool.Proofs.Market.Steps
/-!
The tokens a request moves. Most requests move none; the others settle a position and then deposit, withdraw,
trade or hand out. Rewards have vaults of their own and are left out.
-/
set_option autoImplicit false

namespace RangePool.Market

def Traded.feeSide (t : Traded) : Side := if t.feeInTokenA then .a else .b

def paidIn : Call → Receipt → Side → Nat
  | .addLiquidity .., .liquidityMoved m, t => (m.vault.get t).val
  | .swap dir .., .traded u, t => dir.input.part u.quote.input.val t
  | .swapExactOut dir .., .traded u, t => dir.input.part u.quote.input.val t
  | _, _, _ => 0

/-- What the vault of a token sends. A referral is paid at once, in the token of the fee. -/
def paidOut : Call → Receipt → Side → Nat
  | .removeLiquidity .., .liquidityMoved m, t => (m.vault.get t).val
  | .removeAll .., .liquidityMoved m, t => (m.vault.get t).val
  | .swap dir .., .traded u, t =>
    dir.output.part u.quote.output.val t + u.feeSide.part u.quote.shares.referral.val t
  | .swapExactOut dir .., .traded u, t =>
    dir.output.part u.quote.output.val t + u.feeSide.part u.quote.shares.referral.val t
  | .claimFees, .feesClaimed x, t => (x.get t).val
  | .claimProtocolFees .., .protocolFeesClaimed x, t => (x.get t).val
  | .claimPartnerFees .., .partnerFeesClaimed x, t => (x.get t).val
  | _, _, _ => 0

theorem Trades.feeSide_eq {p p' : Pool} {dir : Direction} {referred : Bool} {u : Traded}
    {into out : Nat} (h : Trades p dir referred u p' into out) :
    u.feeSide = (Placement.of p.collection dir referred).side := by
  rw [Traded.feeSide, Placement.side, h.feeInTokenA]

structure SameMoney (p q : Pool) : Prop where
  frame : q = { p with
    permanent := q.permanent
    status := q.status
    metrics := q.metrics
    rewards := q.rewards }

/-- What a request does to a book and to the vaults, with what it pays in and out. -/
inductive Book.Moves (b b' : Book) : (Side → Nat) → (Side → Nat) → Prop
  | rest : SameMoney b.pool b'.pool → b'.position = { b.position with stakes := b'.position.stakes } →
      Moves b b' (fun _ => 0) (fun _ => 0)
  | opened {pool owner : Key} : SameMoney b.pool b'.pool → b.position = {} →
      b'.position = { pool, owner, checkpoints := b.pool.feePerLiquidity } →
      Moves b b' (fun _ => 0) (fun _ => 0)
  | relabelled {y z : Position} : SameMoney b.pool b'.pool →
      y = { b.position with stakes := y.stakes } → y.FeesSettled b.pool.feePerLiquidity z →
      z.Relabelled b'.position → Moves b b' (fun _ => 0) (fun _ => 0)
  | deposited {q : Pool} {y z : Position} {L : Liquidity} {v : Pair Amount} :
      SameMoney b.pool q → y = { b.position with stakes := y.stakes } →
      y.FeesSettled b.pool.feePerLiquidity z → b.pool.amountsFor .up L = .ok v →
      b'.pool = { q with liquidity := b'.pool.liquidity } →
      b'.pool.liquidity.val = b.pool.liquidity.val + L.val →
      b'.position = { z with unlocked := b'.position.unlocked } →
      b'.position.unlocked.val = z.unlocked.val + L.val →
      Moves b b' (fun t => (v.get t).val) (fun _ => 0)
  | withdrawn {q : Pool} {y z : Position} {L : Liquidity} {v : Pair Amount} :
      SameMoney b.pool q → y = { b.position with stakes := y.stakes } →
      y.FeesSettled b.pool.feePerLiquidity z → b.pool.amountsFor .down L = .ok v →
      b'.pool = { q with liquidity := b'.pool.liquidity } →
      b.pool.liquidity.val = b'.pool.liquidity.val + L.val →
      b'.position = { z with unlocked := b'.position.unlocked } →
      z.unlocked.val = b'.position.unlocked.val + L.val →
      Moves b b' (fun _ => 0) (fun t => (v.get t).val)
  | traded {dir : Direction} {referred : Bool} {u : Traded} {into out : Nat} :
      Trades b.pool dir referred u b'.pool into out → b'.position = b.position →
      Moves b b' (fun t => dir.input.part u.quote.input.val t)
        (fun t => dir.output.part u.quote.output.val t +
          u.feeSide.part u.quote.shares.referral.val t)
  | claimed {y : Position} : b'.pool = b.pool → b.position.FeesSettled b.pool.feePerLiquidity y →
      b'.position = { y with claimed := b'.position.claimed, pending := .both 0 } →
      Moves b b' (fun _ => 0) (fun t => (y.pending.get t).val)
  | protocolClaimed : b'.pool = { b.pool with protocolFees := .both 0 } →
      b'.position = b.position →
      Moves b b' (fun _ => 0) (fun t => (b.pool.protocolFees.get t).val)
  | partnerClaimed {paid : Pair Amount} :
      b'.pool = { b.pool with partnerFees := b'.pool.partnerFees } →
      b'.position = b.position → (∀ t, (b.pool.partnerFees.get t).val =
        (b'.pool.partnerFees.get t).val + (paid.get t).val) →
      Moves b b' (fun _ => 0) (fun t => (paid.get t).val)

theorem SameMoney.of_updated {p q : Pool} {now : Point} (h : p.RewardsUpdated now q) :
    SameMoney p q := by
  constructor
  rw [h.frame]

theorem Book.moves_of_perform {b b' : Book} {c : Call} {r : Receipt} (hc : b.Fits c)
    (h : b.perform c = .ok (b', r)) : b.Moves b' (paidIn c r) (paidOut c r) := by
  cases c <;> simp only [perform, bind_eq_ok, pure_eq_ok, Prod.mk.injEq, Prod.exists] at h
  case openPosition =>
    obtain ⟨p, x, hx, rfl, rfl⟩ := h
    obtain ⟨hp, hx⟩ := openPosition_ok hx
    have hb : b.position = {} := hc.blank (by simp [Call.subject])
    exact .opened ⟨by rw [hp]⟩ hb hx
  case closePosition =>
    obtain ⟨p, hp, rfl, rfl⟩ := h
    obtain ⟨hp, -⟩ := closePosition_ok hp
    exact .rest ⟨by rw [hp]⟩ rfl
  case addLiquidity =>
    obtain ⟨p, x, m, hm, rfl, rfl⟩ := h
    obtain ⟨q, y, z, hs, hf, hv, hp, hL, hx, hu⟩ := addLiquidity_ok hm
    exact .deposited (.of_updated hs.updated) hs.frame hf hv hp hL hx hu
  case removeLiquidity =>
    obtain ⟨p, x, m, hm, rfl, rfl⟩ := h
    obtain ⟨q, y, z, hs, hf, hv, hp, hL, hx, hu⟩ := removeLiquidity_ok hm
    exact .withdrawn (.of_updated hs.updated) hs.frame hf hv hp hL hx hu
  case removeAll =>
    obtain ⟨p, x, m, hm, rfl, rfl⟩ := h
    obtain ⟨q, y, z, hs, hf, hv, hp, hL, hx, hu⟩ := removeLiquidity_ok hm
    exact .withdrawn (.of_updated hs.updated) hs.frame hf hv hp hL hx hu
  case swap =>
    obtain ⟨p, t, ht, rfl, rfl⟩ := h
    obtain ⟨into, out, u, ht, -⟩ := swap_ok ht
    exact .traded ht rfl
  case swapExactOut =>
    obtain ⟨p, t, ht, rfl, rfl⟩ := h
    obtain ⟨into, out, u, v, ht, -⟩ := swapExactOut_ok ht
    exact .traded ht rfl
  case claimFees =>
    obtain ⟨x, paid, hx, rfl, rfl⟩ := h
    obtain ⟨y, hy, rfl, hx'⟩ := claimFees_ok hx
    exact .claimed rfl hy hx'
  case lock =>
    obtain ⟨l, hl, rfl, rfl⟩ := h
    obtain ⟨y, z, hs, hf, hr⟩ := lock_ok hl
    exact .relabelled (.of_updated hs.updated) hs.frame hf hr
  case refresh =>
    obtain ⟨p, x, v, L, hx, rfl, rfl⟩ := h
    obtain ⟨y, z, hs, hf, hr⟩ := refresh_ok hx
    exact .relabelled (.of_updated hs.updated) hs.frame hf hr
  case lockForever =>
    obtain ⟨p, x, hx, rfl, rfl⟩ := h
    obtain ⟨q, y, z, hs, hf, hr, hp⟩ := lockForever_ok hx
    refine .relabelled ⟨?_⟩ hs.frame hf hr
    rw [hp, hs.updated.frame]
  case openReward =>
    obtain ⟨p, hp, rfl, rfl⟩ := h
    obtain ⟨i, -, -, hp⟩ := openReward_ok hp
    exact .rest ⟨by rw [hp]⟩ rfl
  case fundReward =>
    obtain ⟨p, f, hp, rfl, rfl⟩ := h
    obtain ⟨i, q, u, r₀, r, -, -, hq, -, -, -, -, hp⟩ := fundReward_ok hp
    exact .rest ⟨by rw [hp, hq.frame]⟩ rfl
  case claimReward =>
    obtain ⟨p, x, reward, hx, rfl, rfl⟩ := h
    obtain ⟨i, y, c, -, hs, -, hx⟩ := claimReward_ok hx
    exact .rest (.of_updated hs.updated) (by rw [hx, hs.frame])
  case withdrawIdleReward =>
    obtain ⟨p, x, hp, rfl, rfl⟩ := h
    obtain ⟨i, q, -, hq, -, hp⟩ := withdrawIdleReward_ok hp
    exact .rest ⟨by rw [hp, hq.frame]⟩ rfl
  case changeRewardDuration =>
    obtain ⟨p, hp, rfl, rfl⟩ := h
    obtain ⟨i, hp⟩ := changeRewardDuration_ok hp
    exact .rest ⟨by rw [hp]⟩ rfl
  case changeRewardFunder =>
    obtain ⟨p, hp, rfl, rfl⟩ := h
    obtain ⟨i, q, hq, hp⟩ := changeRewardFunder_ok hp
    exact .rest ⟨by rw [hp, hq.frame]⟩ rfl
  case claimProtocolFees =>
    obtain ⟨p, x, hp, rfl, rfl⟩ := h
    obtain ⟨hp', rfl⟩ := claimProtocolFees_ok hp
    exact .protocolClaimed hp' rfl
  case claimPartnerFees =>
    obtain ⟨p, x, hp, rfl, rfl⟩ := h
    obtain ⟨hp, hx⟩ := claimPartnerFees_ok hp
    exact .partnerClaimed hp rfl hx
  case changeStatus =>
    obtain ⟨p, hp, rfl, rfl⟩ := h
    have hp := changeStatus_ok hp
    exact .rest ⟨by rw [hp]⟩ rfl

end RangePool.Market
