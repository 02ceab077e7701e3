import RangePool.Pool.Basic
import RangePool.Vesting
/-!
Fees are handed out and liquidity is locked: by a vesting schedule, which is refreshed as time passes, or for
good. A position is settled before its liquidity changes.
-/
set_option autoImplicit false

namespace RangePool.Market

def claimFees (p : Pool) (x : Position) : Except Fault (Position × Pair Amount) := do
  (← x.settleFees p.feePerLiquidity).claimFees

def release (x : Position) (v : Vesting) (now : Point) :
    Except Fault (Position × Vesting × Liquidity) := do
  let L ← v.releasable now
  if L = 0 then return (x, v, L)
  else
    let x ← x.release L
    let v ← v.recordRelease L
    return (x, v, L)

structure Locked where
  pool : Pool
  position : Position
  vesting : Vesting
  total : Liquidity
  released : Liquidity
  deriving DecidableEq, Repr

/-- What the schedule allows at once is unlocked again. -/
def lock (p : Pool) (x : Position) (key : Key) (t : LockTerms) (clock : Clock) :
    Except Fault Locked := do
  let u ← p.timeUnit.member
  let now := u.now clock
  t.validate now u.maxVesting
  let (p, x) ← p.settle x clock.time
  let v := t.start key now
  let total ← v.total
  let x ← x.vest total
  let (x, v, released) ← release x v now
  return { pool := p, position := x, vesting := v, total, released }

def refresh (p : Pool) (x : Position) (v : Vesting) (clock : Clock) :
    Except Fault (Pool × Position × Vesting × Liquidity) := do
  let now ← p.timeUnit.now clock
  let (p, x) ← p.settle x clock.time
  let (x, v, released) ← release x v now
  return (p, x, v, released)

def lockForever (p : Pool) (x : Position) (L : Liquidity) (clock : Clock) :
    Except Fault (Pool × Position) := do
  Operation.lockForever.demand (0 < L) .amountIsZero
  let (p, x) ← p.settle x clock.time
  let x ← x.lockForever L
  let p ← p.addPermanent L
  return (p, x)

end RangePool.Market
