import RangePool.Pool.Basic
import RangePool.TransferFee
/-!
Reward campaigns: a slot is opened by an admin, funded by its funder, and claimed by positions. The stream of
seconds without liquidity goes back to the funder once the campaign has ended.
-/
set_option autoImplicit false

namespace RangePool

def Operation.slot (op : Operation) (n : Nat) : Except Fault SlotIndex :=
  match SlotIndex.find? n with
  | some i => .ok i
  | none => .error (.rejected op .invalidRewardIndex)

theorem Operation.slot_eq_ok {op : Operation} {n : Nat} {i : SlotIndex} :
    op.slot n = .ok i ↔ SlotIndex.find? n = some i := by
  unfold slot
  split <;> simp_all

def Operation.demandDuration (op : Operation) (d : Word 64) : Except Fault Unit :=
  op.demand (RewardSlot.minDuration ≤ d.val ∧ d.val ≤ RewardSlot.maxDuration)
    .invalidRewardDuration

namespace Market

def openReward (p : Pool) (auth : Authority) (signer : Key) (n : Nat) (duration : Word 64)
    (funder mint vault : Key) : Except Fault Pool := do
  Operation.openReward.demand (auth.isAdmin signer) .invalidAdmin
  let i ← Operation.openReward.slot n
  Operation.openReward.demandDuration duration
  let r := p.rewards.get i
  Operation.openReward.demand (!r.opened) .rewardInitialized
  return { p with rewards := p.rewards.set i (r.setUp mint vault funder duration 0) }

structure Funded where
  sent : Amount
  /-- What the new rate is computed from. -/
  total : Amount
  rate : Word 128
  endsAt : Point
  deriving DecidableEq, Repr

/-- With `carry` the stream of the seconds without liquidity is funded once more. -/
def fundReward (p : Pool) (auth : Authority) (signer : Key) (n : Nat) (amount : Amount)
    (carry : Bool) (clock : Clock) (fee : Option TransferFee) : Except Fault (Pool × Funded) := do
  let i ← Operation.fundReward.slot n
  let r := p.rewards.get i
  Operation.fundReward.demand r.opened .rewardUninitialized
  Operation.fundReward.demand (r.mayFund auth signer) .invalidFunder
  let p ← p.updateRewards clock.time
  let received ← Transfer.arriving fee amount
  let (p, total) ←
    if carry then do
      let (p, idle) ← p.claimIdleReward i
      let total ← received.amount.add idle
      pure (p, total)
    else pure (p, received.amount)
  Operation.fundReward.demand (0 < total) .amountIsZero
  let r ← (p.rewards.get i).fund clock.time total
  return ({ p with rewards := p.rewards.set i r },
    { sent := amount, total, rate := r.rate, endsAt := r.endsAt })

def claimReward (p : Pool) (x : Position) (n : Nat) (clock : Clock) :
    Except Fault (Pool × Position × Amount) := do
  let i ← Operation.claimReward.slot n
  Operation.claimReward.demand (p.rewards.get i).opened .rewardUninitialized
  let (p, x) ← p.settleRewards x clock.time
  let (x, reward) ← x.claimReward i
  return (p, x, reward)

def withdrawIdleReward (p : Pool) (auth : Authority) (signer : Key) (n : Nat) (clock : Clock) :
    Except Fault (Pool × Amount) := do
  let i ← Operation.withdrawIdleReward.slot n
  let r := p.rewards.get i
  Operation.withdrawIdleReward.demand r.opened .rewardUninitialized
  Operation.withdrawIdleReward.demand (r.mayFund auth signer) .invalidFunder
  Operation.withdrawIdleReward.demand (r.endsAt ≤ clock.time) .rewardNotEnded
  let p ← p.updateRewards clock.time
  p.claimIdleReward i

def changeRewardDuration (p : Pool) (auth : Authority) (signer : Key) (n : Nat)
    (duration : Word 64) (clock : Clock) : Except Fault Pool := do
  Operation.changeRewardDuration.demand (auth.isAdmin signer) .invalidAdmin
  let i ← Operation.changeRewardDuration.slot n
  let r := p.rewards.get i
  Operation.changeRewardDuration.demand r.opened .rewardUninitialized
  Operation.changeRewardDuration.demand (r.duration ≠ duration) .identicalRewardDuration
  Operation.changeRewardDuration.demandDuration duration
  Operation.changeRewardDuration.demand (!r.inProgress clock.time) .rewardCampaignInProgress
  return { p with rewards := p.rewards.set i { r with duration } }

def changeRewardFunder (p : Pool) (auth : Authority) (signer : Key) (n : Nat) (funder : Key)
    (clock : Clock) : Except Fault Pool := do
  Operation.changeRewardFunder.demand (auth.isAdmin signer) .invalidAdmin
  let i ← Operation.changeRewardFunder.slot n
  let r := p.rewards.get i
  Operation.changeRewardFunder.demand r.opened .rewardUninitialized
  Operation.changeRewardFunder.demand (r.funder ≠ funder) .identicalFunder
  let p ← p.updateRewards clock.time
  return { p with rewards := p.rewards.set i { p.rewards.get i with funder } }

end Market

end RangePool
