import RangePool.Fee.Shares
import RangePool.Position
/-!
The state of a pool: its price and range, its liquidity, what it holds for the protocol and the partner, what a
unit of liquidity has earned, and its reward slots. Liquidity enters and leaves together with a position, and both
tokens move with it, in the proportion of the present price within the range.
-/
set_option autoImplicit false

namespace RangePool

inductive Status
  | enabled
  | disabled
  deriving DecidableEq, Repr

instance : ByteCode Status :=
  .ofTwo .status .enabled .disabled nofun fun z => by cases z <;> simp

inductive Origin
  | permissionless
  | customizable
  deriving DecidableEq, Repr

instance : ByteCode Origin :=
  .ofTwo .origin .permissionless .customizable nofun fun z => by cases z <;> simp

/-- Totals since the pool was opened. No decision depends on them. -/
structure Metrics where
  lp : Pair (Word 128) := .both 0
  protocol : Pair Amount := .both 0
  partner : Pair Amount := .both 0
  positions : Word 64 := 0
  deriving DecidableEq, Repr

namespace Metrics

def addPosition (m : Metrics) : Except Fault Metrics := do
  return { m with positions := ← m.positions.add (.lit 64 1) }

def dropPosition (m : Metrics) : Except Fault Metrics := do
  return { m with positions := ← m.positions.sub (.lit 64 1) }

def addFee (m : Metrics) (s : Side) (lp protocol partner : Amount) : Except Fault Metrics := do
  let lps ← m.lp.update s fun x => x.add (lp.widen 128)
  let protocols ← m.protocol.update s fun x => x.add protocol
  let partners ← m.partner.update s fun x => x.add partner
  return { m with lp := lps, protocol := protocols, partner := partners }

end Metrics

structure Pool where
  fees : FeePlan := {}
  mints : Pair Key := .both .none
  vaults : Pair Key := .both .none
  /-- May trade shortly before activation, unless it is the zero key. -/
  earlyTrader : Key := .none
  partner : Key := .none
  liquidity : Liquidity := 0
  protocolFees : Pair Amount := .both 0
  partnerFees : Pair Amount := .both 0
  minPrice : Price := 0
  maxPrice : Price := 0
  price : Price := 0
  activationPoint : Point := 0
  timeUnit : Coded TimeUnit := ⟨0⟩
  status : Coded Status := ⟨0⟩
  flags : Pair Byte := .both 0
  collection : Coded Collection := ⟨0⟩
  origin : Coded Origin := ⟨0⟩
  feePerLiquidity : Pair Accrual := .both 0
  permanent : Liquidity := 0
  metrics : Metrics := {}
  rewards : Slots RewardSlot := .both {}
  deriving DecidableEq, Repr

namespace Pool

def isEnabled (p : Pool) : Bool := decide (p.status = .of .enabled)

def hasRewards (p : Pool) : Bool := p.rewards.first.opened || p.rewards.second.opened

def updateRewards (p : Pool) (now : Point) : Except Fault Pool := do
  let rewards ← p.rewards.mapM fun r => r.update p.liquidity now
  return { p with rewards }

def settleRewards (p : Pool) (x : Position) (now : Point) : Except Fault (Pool × Position) := do
  let p ← p.updateRewards now
  let x ← x.settleRewards p.rewards
  return (p, x)

def settle (p : Pool) (x : Position) (now : Point) : Except Fault (Pool × Position) := do
  let (p, x) ← p.settleRewards x now
  let x ← x.settleFees p.feePerLiquidity
  return (p, x)

def claimIdleReward (p : Pool) (i : SlotIndex) : Except Fault (Pool × Amount) := do
  let r := p.rewards.get i
  let reward ← r.idleReward
  return ({ p with rewards := p.rewards.set i { r with idleSeconds := 0 } }, reward)

def addPermanent (p : Pool) (L : Liquidity) : Except Fault Pool := do
  return { p with permanent := ← p.permanent.add L }

def claimProtocolFees (p : Pool) : Pool × Pair Amount :=
  ({ p with protocolFees := .both 0 }, p.protocolFees)

def claimPartnerFees (p : Pool) (limits : Pair Amount) : Pool × Pair Amount :=
  let take (held limit : Amount) : Amount := min held limit
  let rest (held limit : Amount) : Amount :=
    ⟨held.val - (take held limit).val, Nat.lt_of_le_of_lt (Nat.sub_le _ _) held.isLt⟩
  ({ p with partnerFees :=
      ⟨rest p.partnerFees.a limits.a, rest p.partnerFees.b limits.b⟩ },
    ⟨take p.partnerFees.a limits.a, take p.partnerFees.b limits.b⟩)

def amountsFor (p : Pool) (r : Rounding) (L : Liquidity) : Except Fault (Pair Amount) :=
  Curve.reserves r p.minPrice p.maxPrice p.price L

/-- The position is settled at its old liquidity first. -/
def deposit (p : Pool) (x : Position) (L : Liquidity) : Except Fault (Pool × Position) := do
  let liquidity ← p.liquidity.add L
  let x ← x.settleFees p.feePerLiquidity
  let x ← x.deposit L
  return ({ p with liquidity }, x)

def withdraw (p : Pool) (x : Position) (L : Liquidity) : Except Fault (Pool × Position) := do
  require (L ≤ x.unlocked) .unlockedForWithdrawal
  let liquidity ← p.liquidity.sub L
  let x ← x.settleFees p.feePerLiquidity
  let x ← x.withdraw L
  return ({ p with liquidity }, x)

end Pool

end RangePool
