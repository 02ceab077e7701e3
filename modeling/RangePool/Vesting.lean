import RangePool.Clock
import RangePool.Curve
import RangePool.Key
/-!
Release schedules of locked liquidity: a first part at the cliff, then an equal part each period. What has been
released is remembered, so that refreshing a schedule pays only what is new.
-/
set_option autoImplicit false

namespace RangePool

/-- A schedule as its owner asks for it. Without a cliff point it starts at once. -/
structure LockTerms where
  cliff : Option Point := none
  frequency : Word 64 := 0
  atCliff : Liquidity := 0
  perPeriod : Liquidity := 0
  periods : Word 16 := 0
  deriving DecidableEq, Repr

namespace LockTerms

def total (t : LockTerms) : Except Fault Liquidity := do
  t.atCliff.add (← t.perPeriod.mul (t.periods.widen 128))

def cliffFrom (t : LockTerms) (now : Point) : Point := t.cliff.getD now

def validate (t : LockTerms) (now maxDuration : Point) : Except Fault Unit := do
  let cliff := t.cliffFrom now
  require (now ≤ cliff) .cliffAhead
  if t.periods ≠ 0 then
    require (t.frequency ≠ 0 ∧ t.perPeriod ≠ 0) .completePeriods
  require (cliff.val - now.val + t.frequency.val * t.periods.val ≤ maxDuration.val) .vestingDuration
  let total ← t.total
  require (total ≠ 0) .someLock

end LockTerms

structure Vesting where
  position : Key := .none
  cliff : Point := 0
  frequency : Word 64 := 0
  atCliff : Liquidity := 0
  perPeriod : Liquidity := 0
  released : Liquidity := 0
  periods : Word 16 := 0
  deriving DecidableEq, Repr

def LockTerms.start (t : LockTerms) (position : Key) (now : Point) : Vesting where
  position := position
  cliff := t.cliffFrom now
  frequency := t.frequency
  atCliff := t.atCliff
  perPeriod := t.perPeriod
  periods := t.periods

namespace Vesting

def total (v : Vesting) : Except Fault Liquidity := do
  v.atCliff.add (← v.perPeriod.mul (v.periods.widen 128))

def unlockedAt (v : Vesting) (now : Point) : Except Fault Liquidity :=
  if now < v.cliff then .ok 0
  else if v.frequency = 0 then .ok v.atCliff
  else do
    let passed := min ((now.val - v.cliff.val) / v.frequency.val) v.periods.val
    v.atCliff.add (← Word.fit 128 (.arithmetic .mul) (v.perPeriod.val * passed))

def releasable (v : Vesting) (now : Point) : Except Fault Liquidity := do
  (← v.unlockedAt now).sub v.released

def recordRelease (v : Vesting) (L : Liquidity) : Except Fault Vesting := do
  return { v with released := ← v.released.add L }

def isDone (v : Vesting) : Except Fault Bool := do
  return decide (v.released = (← v.total))

end Vesting

end RangePool
