import RangePool.Reward
/-!
A position: liquidity in three parts, and what it has earned. Unlocked liquidity may be withdrawn, vested
liquidity comes back by a schedule, permanent liquidity never. All three earn alike. Earnings are settled
against the accruals of the pool, which grow per unit of liquidity.
-/
set_option autoImplicit false

namespace RangePool

/-- What liquidity `L` earns while an accrual with `n` fractional bits moves from `since` to `stored`. -/
def Accrual.gain (stored since : Accrual) (L : Liquidity) (n : Nat) : Except Fault (Word 256) := do
  Word.wideMulShr (L.widen 256) (← stored.sub since) n

def Stake.settle (s : Stake) (L : Liquidity) (r : RewardSlot) : Except Fault Stake :=
  if r.opened then
    if L = 0 then .ok { s with checkpoint := r.perLiquidity }
    else do
      let gain ← Accrual.gain r.perLiquidity s.checkpoint L 192
      let pending ← s.pending.add (← gain.narrow 64)
      return { s with pending, checkpoint := r.perLiquidity }
  else .ok s

def Stake.claim (s : Stake) : Except Fault (Stake × Amount) := do
  let claimed ← s.claimed.add s.pending
  return ({ s with claimed, pending := 0 }, s.pending)

structure Position where
  pool : Key := .none
  owner : Key := .none
  checkpoints : Pair Accrual := .both 0
  pending : Pair Amount := .both 0
  unlocked : Liquidity := 0
  vested : Liquidity := 0
  permanent : Liquidity := 0
  claimed : Pair Amount := .both 0
  stakes : Slots Stake := .both {}
  deriving DecidableEq, Repr

namespace Position

def total (p : Position) : Except Fault Liquidity := do
  (← p.unlocked.add p.vested).add p.permanent

def isEmpty (p : Position) : Except Fault Bool := do
  let L ← p.total
  return decide (L = 0 ∧ p.pending = .both 0 ∧
    p.stakes.first.pending = 0 ∧ p.stakes.second.pending = 0)

def settleFees (p : Position) (stored : Pair Accrual) : Except Fault Position := do
  let L ← p.total
  if L = 0 then return { p with checkpoints := stored }
  else
    let gainA ← Accrual.gain stored.a p.checkpoints.a L 128
    let gainB ← Accrual.gain stored.b p.checkpoints.b L 128
    let a ← p.pending.a.add (← gainA.narrow 64)
    let b ← p.pending.b.add (← gainB.narrow 64)
    return { p with pending := ⟨a, b⟩, checkpoints := stored }

/-- Adds the rewards of both slots; the slots have to be up to date. -/
def settleRewards (p : Position) (slots : Slots RewardSlot) : Except Fault Position := do
  let L ← p.total
  let stakes ← p.stakes.zipM (fun s r => s.settle L r) slots
  return { p with stakes }

def deposit (p : Position) (L : Liquidity) : Except Fault Position := do
  return { p with unlocked := ← p.unlocked.add L }

def takeUnlocked (p : Position) (L : Liquidity) (r : Requirement) : Except Fault Position :=
  if L.val ≤ p.unlocked.val then
    .ok { p with unlocked := ⟨p.unlocked.val - L.val,
      Nat.lt_of_le_of_lt (Nat.sub_le _ _) p.unlocked.isLt⟩ }
  else .error (.unmet r)

def withdraw (p : Position) (L : Liquidity) : Except Fault Position :=
  p.takeUnlocked L .unlockedForRemoval

def vest (p : Position) (L : Liquidity) : Except Fault Position := do
  let q ← p.takeUnlocked L .unlockedForVesting
  return { q with vested := ← q.vested.add L }

def release (p : Position) (L : Liquidity) : Except Fault Position := do
  let vested ← p.vested.sub L
  let unlocked ← p.unlocked.add L
  return { p with vested, unlocked }

def lockForever (p : Position) (L : Liquidity) : Except Fault Position := do
  let q ← p.takeUnlocked L .unlockedForever
  return { q with permanent := ← q.permanent.add L }

def claimFees (p : Position) : Except Fault (Position × Pair Amount) := do
  let a ← p.claimed.a.add p.pending.a
  let b ← p.claimed.b.add p.pending.b
  return ({ p with claimed := ⟨a, b⟩, pending := .both 0 }, p.pending)

def claimReward (p : Position) (i : SlotIndex) : Except Fault (Position × Amount) := do
  let (stake, reward) ← (p.stakes.get i).claim
  return ({ p with stakes := p.stakes.set i stake }, reward)

end Position

end RangePool
