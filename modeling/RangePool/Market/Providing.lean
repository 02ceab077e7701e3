import RangePool.Access
import RangePool.Market.Opening
/-!
Positions are opened and closed, and liquidity is added and removed. Amounts on the side of the vaults are
without transfer fees; users send more than arrives there and receive less than is sent. The limits of a
request bind what the user sends or receives.
-/
set_option autoImplicit false

namespace RangePool.Market

def openPosition (p : Pool) (pool owner : Key) (clock : Clock) :
    Except Fault (Pool × Position) := do
  let access ← p.access clock
  Operation.openPosition.demand access.enabled .poolDisabled
  let metrics ← p.metrics.addPosition
  return ({ p with metrics }, { pool, owner, checkpoints := p.feePerLiquidity })

def closePosition (p : Pool) (x : Position) : Except Fault Pool := do
  let isEmpty ← x.isEmpty
  Operation.closePosition.demand isEmpty .positionNotEmpty
  return { p with metrics := ← p.metrics.dropPosition }

structure Booked where
  pool : Pool
  position : Position
  vault : Pair Amount
  deriving DecidableEq, Repr

structure Moved where
  vault : Pair Amount
  user : Pair Amount
  deriving DecidableEq, Repr

def bookDeposit (p : Pool) (x : Position) (L : Liquidity) (clock : Clock) :
    Except Fault Booked := do
  Operation.addLiquidity.demand (0 < L) .amountIsZero
  let access ← p.access clock
  Operation.addLiquidity.demand access.enabled .poolDisabled
  let (p, x) ← p.settleRewards x clock.time
  let vault ← p.amountsFor .up L
  Operation.addLiquidity.demand (0 < vault.a ∨ 0 < vault.b) .amountIsZero
  let (pool, position) ← p.deposit x L
  return { pool, position, vault }

def payDeposit (vault limits : Pair Amount) (fees : TransferFees) : Except Fault Moved := do
  let user ← Transfer.sendingPair fees vault
  Operation.addLiquidity.demand (user.a ≤ limits.a) .exceededSlippage
  Operation.addLiquidity.demand (user.b ≤ limits.b) .exceededSlippage
  return { vault, user }

def addLiquidity (p : Pool) (x : Position) (L : Liquidity) (limits : Pair Amount) (clock : Clock)
    (fees : TransferFees) : Except Fault (Pool × Position × Moved) := do
  let booked ← bookDeposit p x L clock
  let moved ← payDeposit booked.vault limits fees
  return (booked.pool, booked.position, moved)

def bookWithdrawal (p : Pool) (x : Position) (L : Liquidity) (clock : Clock) :
    Except Fault Booked := do
  Operation.removeLiquidity.demand (0 < L) .amountIsZero
  let access ← p.access clock
  Operation.removeLiquidity.demand access.enabled .poolDisabled
  let (p, x) ← p.settleRewards x clock.time
  let vault ← p.amountsFor .down L
  let (pool, position) ← p.withdraw x L
  return { pool, position, vault }

def payWithdrawal (vault limits : Pair Amount) (fees : TransferFees) : Except Fault Moved := do
  let user ← Transfer.arrivingPair fees vault
  Operation.removeLiquidity.demand (limits.a ≤ user.a) .exceededSlippage
  Operation.removeLiquidity.demand (limits.b ≤ user.b) .exceededSlippage
  return { vault, user }

def removeLiquidity (p : Pool) (x : Position) (L : Liquidity) (limits : Pair Amount)
    (clock : Clock) (fees : TransferFees) : Except Fault (Pool × Position × Moved) := do
  let booked ← bookWithdrawal p x L clock
  let moved ← payWithdrawal booked.vault limits fees
  return (booked.pool, booked.position, moved)

end RangePool.Market
