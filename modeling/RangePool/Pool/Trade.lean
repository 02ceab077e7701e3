import RangePool.Pool.Basic
/-!
Trades. A quote is computed on the present state; applying it moves the price, books the fee in its token and
feeds the volatility tracker. Applying a quote twice counts it twice.
-/
set_option autoImplicit false

namespace RangePool

structure Quote where
  input : Amount := 0
  output : Amount := 0
  nextPrice : Price := 0
  shares : Shares := {}
  deriving DecidableEq, Repr

namespace Pool

/-- The price after a trade of `x` on the curve, which has to stay in the range, and the amount on the other
side: rounded down where the pool pays it, up where the trader does. -/
def move (p : Pool) (exact : Curve.Exact) (dir : Direction) (x : Amount) :
    Except Fault (Price × Amount) := do
  let next ← Curve.nextPrice exact dir p.price p.liquidity x
  match dir with
  | .aToB =>
    if next < p.minPrice then .error .priceBelowRange
    else match exact with
      | .input => return (next, ← Curve.deltaB .down next p.price p.liquidity)
      | .output => return (next, ← Curve.deltaA .up next p.price p.liquidity)
  | .bToA =>
    if p.maxPrice < next then .error .priceAboveRange
    else match exact with
      | .input => return (next, ← Curve.deltaA .down p.price next p.liquidity)
      | .output => return (next, ← Curve.deltaB .up p.price next p.liquidity)

def chargesGiven (exact : Curve.Exact) (fee : Placement) : Bool :=
  match exact with
  | .input => fee.onInput
  | .output => !fee.onInput

/-- A trade of `x` of the given side. A fee on that side is taken before the curve, a fee on the other side
after it. -/
def quote (p : Pool) (exact : Curve.Exact) (dir : Direction) (fee : Placement) (now : Point)
    (x : Amount) : Except Fault Quote := do
  let (other, next, shares) ←
    if chargesGiven exact fee then do
      let charge ← p.fees.charge exact x fee.referred now p.activationPoint
      let (next, other) ← p.move exact dir charge.amount
      pure (other, next, charge.shares)
    else do
      let (next, other) ← p.move exact dir x
      let charge ← p.fees.charge exact other fee.referred now p.activationPoint
      pure (charge.amount, next, charge.shares)
  match exact with
  | .input => return { input := x, output := other, nextPrice := next, shares }
  | .output => return { input := other, output := x, nextPrice := next, shares }

/-- What the curve takes in until the price meets the bound of the range, up to the largest amount. -/
def maxInput (p : Pool) (dir : Direction) : Except Fault Amount := do
  let x ← match dir with
    | .aToB => Curve.wideA .down p.minPrice p.price p.liquidity
    | .bToA => Curve.wideB .down p.price p.maxPrice p.liquidity
  return (Word.ofNat? 64 x.val).getD .top

def rebase (p : Pool) (now : Point) : Except Fault Pool :=
  if p.fees.tracker.enabled then do
    let tracker ← p.fees.tracker.rebase p.price now
    return { p with fees := { p.fees with tracker } }
  else .ok p

/-- After a trade the tracker counts the bins crossed. Its clock restarts only if this trade crossed one. -/
def track (p : Pool) (oldPrice : Price) (now : Point) : Except Fault Pool :=
  if p.fees.tracker.enabled then do
    let tracker ← p.fees.tracker.accumulate p.price
    let crossed ← Tracker.bins tracker.wideBinStep oldPrice p.price
    let tracker := if crossed = 0 then tracker else { tracker with lastUpdate := now }
    return { p with fees := { p.fees with tracker } }
  else .ok p

/-- The protocol keeps its part less the referral, which is paid out at once. -/
def apply (p : Pool) (q : Quote) (fee : Placement) (now : Point) : Except Fault Pool := do
  let gain ← Word.wideShlDiv (q.shares.lp.widen 128) p.liquidity 128
  let protocol ← q.shares.protocol.sub q.shares.referral
  let partnerFees ← p.partnerFees.update fee.side fun x => x.add q.shares.partner
  let protocolFees ← p.protocolFees.update fee.side fun x => x.add protocol
  let feePerLiquidity ← p.feePerLiquidity.update fee.side fun x => x.add gain
  let metrics ← p.metrics.addFee fee.side q.shares.lp protocol q.shares.partner
  { p with price := q.nextPrice, partnerFees, protocolFees, feePerLiquidity, metrics }.track
    p.price now

end Pool

end RangePool
