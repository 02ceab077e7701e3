import RangePool.Curve
import RangePool.Fee.Base
/-!
The variable fee follows recent price moves. Prices are counted in bins of one basis point; a tracker adds up
the bins crossed since its reference price and forgets them in two stages as time passes without a trade.
-/
set_option autoImplicit false

namespace RangePool

structure TrackerTerms where
  binStep : Word 16 := .lit 16 1
  wideBinStep : Word 128 := .lit 128 1844674407370955
  filterPeriod : Word 16 := 0
  decayPeriod : Word 16 := 0
  reduction : Word 16 := 0
  maxAccumulator : Word 32 := 0
  control : Word 32 := 0
  deriving DecidableEq, Repr

def TrackerTerms.validate (t : TrackerTerms) : Except Fault Unit := do
  require (t.binStep.val = 1) .binStep
  require (t.wideBinStep.val = 1844674407370955) .wideBinStep
  require (t.filterPeriod < t.decayPeriod) .filterBelowDecay
  require (t.reduction.val ≤ Fee.basisPoints) .trackerReduction

structure Tracker where
  enabled : Bool := false
  maxAccumulator : Word 32 := 0
  control : Word 32 := 0
  binStep : Word 16 := 0
  filterPeriod : Word 16 := 0
  decayPeriod : Word 16 := 0
  reduction : Word 16 := 0
  lastUpdate : Point := 0
  wideBinStep : Word 128 := 0
  priceReference : Price := 0
  accumulator : Word 128 := 0
  reference : Word 128 := 0
  deriving DecidableEq, Repr

def TrackerTerms.tracker (t : TrackerTerms) : Tracker where
  enabled := true
  maxAccumulator := t.maxAccumulator
  control := t.control
  binStep := t.binStep
  filterPeriod := t.filterPeriod
  decayPeriod := t.decayPeriod
  reduction := t.reduction
  wideBinStep := t.wideBinStep

namespace Tracker

/-- Bins between two prices, in either order. A bin of the price is two of its square root. -/
def bins (step : Word 128) (p q : Price) : Except Fault (Word 128) := do
  let ratio ← Word.shlDiv 128 .down (max p q) (min p q) 64
  let excess ← ratio.sub (.lit 128 (Nat.pow 2 64))
  let count ← excess.div step
  count.mul (.lit 128 2)

def fee (t : Tracker) : Except Fault (Word 128) :=
  if t.enabled then do
    let moved ← t.accumulator.mul (t.binStep.widen 128)
    let squared ← moved.mul moved
    let scaled ← squared.mul (t.control.widen 128)
    let raised ← scaled.add (.lit 128 99999999999)
    return raised.divNat 100000000000
  else .ok 0

/-- Before a trade: within the filter period nothing changes, within the decay period a part of the
accumulator is kept, later all of it is forgotten. -/
def rebase (t : Tracker) (price : Price) (now : Point) : Except Fault Tracker := do
  let elapsed ← now.sub t.lastUpdate
  if elapsed.val < t.filterPeriod.val then return t
  else if elapsed.val < t.decayPeriod.val then
    let part ← t.accumulator.mul (t.reduction.widen 128)
    return { t with priceReference := price, reference := part.divNat Fee.basisPoints }
  else return { t with priceReference := price, reference := 0 }

def accumulate (t : Tracker) (price : Price) : Except Fault Tracker := do
  let crossed ← bins t.wideBinStep t.priceReference price
  let grown ← crossed.mul (.lit 128 10000)
  let total ← t.reference.add grown
  return { t with accumulator := min total (t.maxAccumulator.widen 128) }

end Tracker

end RangePool
