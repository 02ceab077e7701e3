import RangePool.Access
import RangePool.Market.Opening
import RangePool.Pool.Trade
/-!
Trades as users ask for them: an amount to sell and the least to get for it, or an amount to get and the most
to pay for it. What a user sends and receives includes transfer fees. The protocol and the partner collect what is held
for them of the fees, and admins switch a pool on and off.
-/
set_option autoImplicit false

namespace RangePool.Market

structure Traded where
  quote : Quote
  /-- What the user sends. -/
  sent : Amount
  /-- What the vault sends. -/
  paid : Amount
  feeInTokenA : Bool
  deriving DecidableEq, Repr

/-- Sells `amount`, of which the transfer fee leaves a part, for at least `least`. -/
def swap (p : Pool) (dir : Direction) (amount least : Amount) (sender : Key) (referred : Bool)
    (clock : Clock) (fees : TransferFees) : Except Fault (Pool × Traded) := do
  let access ← p.access clock
  Operation.swap.demand (access.maySwap sender) .poolDisabled
  let arrived ← Transfer.arriving (fees.get dir.input) amount
  Operation.swap.demand (0 < arrived.amount) .amountIsZero
  let fee := Placement.of p.collection dir referred
  let p ← p.rebase clock.time
  let now ← p.timeUnit.now clock
  let quote ← p.quote .input dir fee now arrived.amount
  Operation.swap.demand (least ≤ quote.output) .exceededSlippage
  let p ← p.apply quote fee clock.time
  return (p, { quote, sent := amount, paid := quote.output, feeInTokenA := fee.inTokenA })

/-- Buys `wanted`, which is to arrive after the transfer fee, for at most `most`. -/
def swapExactOut (p : Pool) (dir : Direction) (wanted most : Amount) (sender : Key)
    (referred : Bool) (clock : Clock) (fees : TransferFees) : Except Fault (Pool × Traded) := do
  let access ← p.access clock
  Operation.swapExactOut.demand (access.maySwap sender) .poolDisabled
  Operation.swapExactOut.demand (0 < wanted) .amountIsZero
  let paid ← Transfer.sending (fees.get dir.output) wanted
  let fee := Placement.of p.collection dir referred
  let p ← p.rebase clock.time
  let now ← p.timeUnit.now clock
  let quote ← p.quote .output dir fee now paid.amount
  let sent ← Transfer.sending (fees.get dir.input) quote.input
  Operation.swapExactOut.demand (sent.amount ≤ most) .exceededSlippage
  let p ← p.apply quote fee clock.time
  return (p, { quote, sent := sent.amount, paid := paid.amount, feeInTokenA := fee.inTokenA })

def claimProtocolFees (p : Pool) (auth : Authority) (signer : Key) :
    Except Fault (Pool × Pair Amount) := do
  Operation.claimProtocolFee.demand (auth.isAdmin signer) .invalidAdmin
  return p.claimProtocolFees

def claimPartnerFees (p : Pool) (signer : Key) (limits : Pair Amount) :
    Except Fault (Pool × Pair Amount) := do
  Operation.claimPartnerFee.demand (p.partner ≠ Key.none ∧ signer = p.partner) .invalidPartner
  return p.claimPartnerFees limits

def changeStatus (p : Pool) (auth : Authority) (signer : Key) (status : Coded Status) :
    Except Fault Pool := do
  Operation.changeStatus.demand (auth.isAdmin signer) .invalidAdmin
  let status ← status.check
  Operation.changeStatus.demand (status ≠ p.status) .invalidParameters
  return { p with status }

end RangePool.Market
