import RangePool.Config
import RangePool.Pool.Basic
import RangePool.TransferFee
/-!
Opening a pool. The creator deposits both tokens for the first position; a transfer fee comes on top of what
the vaults are to receive.
-/
set_option autoImplicit false

namespace RangePool

abbrev TransferFees := Pair (Option TransferFee)

namespace Transfer

def arrivingPair (t : TransferFees) (x : Pair Amount) : Except Fault (Pair Amount) := do
  let a ← arriving t.a x.a
  let b ← arriving t.b x.b
  return ⟨a.amount, b.amount⟩

def sendingPair (t : TransferFees) (y : Pair Amount) : Except Fault (Pair Amount) := do
  let a ← sending t.a y.a
  let b ← sending t.b y.b
  return ⟨a.amount, b.amount⟩

end Transfer

namespace Market

structure Accounts where
  pool : Key := .none
  mints : Pair Key := .both .none
  vaults : Pair Key := .both .none
  creator : Key := .none
  deriving DecidableEq, Repr

def createConfig (auth : Authority) (signer : Key) (t : ConfigTerms) : Except Fault Config := do
  Operation.createConfig.demand (auth.isAdmin signer) .invalidAdmin
  t.check

structure Opened where
  pool : Pool
  position : Position
  deposit : Pair Amount
  deriving DecidableEq, Repr

def openDraft (draft : Pool) (accounts : Accounts) (fees : TransferFees) : Except Fault Opened := do
  let due ← Curve.reserves .up draft.minPrice draft.maxPrice draft.price draft.liquidity
  Operation.openPool.demand (0 < due.a ∨ 0 < due.b) .amountIsZero
  let position ← ({ pool := accounts.pool, owner := accounts.creator } : Position).deposit
    draft.liquidity
  let metrics ← draft.metrics.addPosition
  let deposit ← Transfer.sendingPair fees due
  return { pool := { draft with metrics }, position, deposit }

def tokenFlags (fees : TransferFees) : Pair Byte :=
  fees.map fun t => if t.isSome then .one else 0

def openPool (c : Config) (t : PoolTerms) (accounts : Accounts) (clock : Clock)
    (fees : TransferFees) : Except Fault Opened := do
  let activationPoint ← t.check c clock
  openDraft {
    fees := c.fees.plan.startAt t.price
    mints := accounts.mints
    vaults := accounts.vaults
    earlyTrader := c.vaultKey
    partner := c.creator
    liquidity := t.liquidity
    minPrice := c.minPrice
    maxPrice := c.maxPrice
    price := t.price
    activationPoint
    timeUnit := c.timeUnit
    flags := tokenFlags fees
    collection := c.collection
    origin := .of .permissionless } accounts fees

/-- A pool without a config has no partner; its creator may be the early trader. -/
def openCustomPool (t : CustomTerms) (accounts : Accounts) (clock : Clock)
    (fees : TransferFees) : Except Fault Opened := do
  let activationPoint ← t.check clock
  openDraft {
    fees := t.fees.plan.startAt t.price
    mints := accounts.mints
    vaults := accounts.vaults
    earlyTrader := if t.hasVault then accounts.creator else Key.none
    partner := Key.none
    liquidity := t.liquidity
    minPrice := t.minPrice
    maxPrice := t.maxPrice
    price := t.price
    activationPoint
    timeUnit := t.timeUnit
    flags := tokenFlags fees
    collection := t.collection
    origin := .of .customizable } accounts fees

end Market

end RangePool
