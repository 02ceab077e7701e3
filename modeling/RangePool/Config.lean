import RangePool.Fee.Shares
import RangePool.Key
/-!
Configs, from which pools are opened, and the parameters of pools that are opened without one. What is asked
for is checked in a fixed order and the first rule it breaks is reported.
-/
set_option autoImplicit false

namespace RangePool

structure Config where
  index : Word 64 := 0
  fees : FeeTerms := {}
  /-- The early trader of pools from this config. -/
  vaultKey : Key := .none
  /-- The partner of pools from this config. -/
  creator : Key := .none
  timeUnit : Coded TimeUnit := ⟨0⟩
  collection : Coded Collection := ⟨0⟩
  minPrice : Price := 0
  maxPrice : Price := 0
  deriving DecidableEq, Repr

def Config.hasVault (c : Config) : Bool := !c.vaultKey.isNone

structure ConfigTerms where
  fees : FeeTerms := {}
  minPrice : Price := 0
  maxPrice : Price := 0
  vaultKey : Key := .none
  creator : Key := .none
  timeUnit : Coded TimeUnit := ⟨0⟩
  collection : Coded Collection := ⟨0⟩
  index : Word 64 := 0
  deriving DecidableEq, Repr

/-- Pools from a config trade over the widest range; a share for the partner needs a partner. -/
def ConfigTerms.check (t : ConfigTerms) : Except Fault Config := do
  require (t.minPrice = Curve.minPrice ∧ t.maxPrice = Curve.maxPrice) .fullRange
  let collection ← t.collection.check
  let timeUnit ← t.timeUnit.check
  t.fees.validate
  if 0 < t.fees.percents.partner then
    require (t.creator ≠ Key.none) .creatorNamed
  return {
    index := t.index
    fees := t.fees
    vaultKey := t.vaultKey
    creator := t.creator
    timeUnit
    collection
    minPrice := t.minPrice
    maxPrice := t.maxPrice }

def checkRange (lo hi P : Price) : Except Fault Unit := do
  require (Curve.minPrice ≤ lo ∧ hi ≤ Curve.maxPrice) .globalRange
  require (lo < hi) .orderedRange
  require (lo ≤ P ∧ P ≤ hi) .priceInRange

structure PoolTerms where
  liquidity : Liquidity := 0
  price : Price := 0
  activation : Option Point := none
  deriving DecidableEq, Repr

/-- The activation point of the new pool, if all is in order. -/
def PoolTerms.check (t : PoolTerms) (c : Config) (clock : Clock) : Except Fault Point := do
  checkRange c.minPrice c.maxPrice t.price
  require (0 < t.liquidity) .someLiquidity
  c.timeUnit.activation t.activation clock

structure CustomTerms where
  fees : FeeTerms := {}
  minPrice : Price := 0
  maxPrice : Price := 0
  hasVault : Bool := false
  liquidity : Liquidity := 0
  price : Price := 0
  timeUnit : Coded TimeUnit := ⟨0⟩
  collection : Coded Collection := ⟨0⟩
  activation : Option Point := none
  deriving DecidableEq, Repr

def CustomTerms.check (t : CustomTerms) (clock : Clock) : Except Fault Point := do
  checkRange t.minPrice t.maxPrice t.price
  require (0 < t.liquidity) .someLiquidity
  let _ ← t.collection.member
  t.fees.validate
  require (t.fees.percents.partner = 0) .noPartnerShare
  t.timeUnit.activation t.activation clock

end RangePool
