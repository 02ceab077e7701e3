import RangePool.Journal
import RangePool.Market.Locking
import RangePool.Market.Providing
import RangePool.Market.Rewarding
import RangePool.Market.Trading
/-!
Requests as data. A call acts on a book: a pool, one of its positions, and a schedule of that position. It
either succeeds with a new book and a receipt, or fails and leaves the book as it was.
-/
set_option autoImplicit false

namespace RangePool.Market

structure Book where
  pool : Pool := {}
  position : Position := {}
  vesting : Vesting := {}
  deriving DecidableEq, Repr

inductive Call
  | openPosition (pool owner : Key) (clock : Clock)
  | closePosition
  | addLiquidity (L : Liquidity) (limits : Pair Amount) (clock : Clock) (fees : TransferFees)
  | removeLiquidity (L : Liquidity) (limits : Pair Amount) (clock : Clock) (fees : TransferFees)
  | removeAll (limits : Pair Amount) (clock : Clock) (fees : TransferFees)
  | swap (dir : Direction) (amount least : Amount) (sender : Key) (referred : Bool)
      (clock : Clock) (fees : TransferFees)
  | swapExactOut (dir : Direction) (wanted most : Amount) (sender : Key) (referred : Bool)
      (clock : Clock) (fees : TransferFees)
  | claimFees
  | lock (key : Key) (terms : LockTerms) (clock : Clock)
  | refresh (clock : Clock)
  | lockForever (L : Liquidity) (clock : Clock)
  | openReward (auth : Authority) (signer : Key) (n : Nat) (duration : Word 64)
      (funder mint vault : Key)
  | fundReward (auth : Authority) (signer : Key) (n : Nat) (amount : Amount) (carry : Bool)
      (clock : Clock) (fee : Option TransferFee)
  | claimReward (n : Nat) (clock : Clock)
  | withdrawIdleReward (auth : Authority) (signer : Key) (n : Nat) (clock : Clock)
  | changeRewardDuration (auth : Authority) (signer : Key) (n : Nat) (duration : Word 64)
      (clock : Clock)
  | changeRewardFunder (auth : Authority) (signer : Key) (n : Nat) (funder : Key)
      (clock : Clock)
  | claimProtocolFees (auth : Authority) (signer : Key)
  | claimPartnerFees (signer : Key) (limits : Pair Amount)
  | changeStatus (auth : Authority) (signer : Key) (status : Coded Status)
  deriving DecidableEq, Repr

inductive Receipt
  | positionOpened
  | positionClosed
  | liquidityMoved (m : Moved)
  | traded (t : Traded)
  | feesClaimed (x : Pair Amount)
  | locked (total released : Liquidity)
  | refreshed (released : Liquidity)
  | lockedForever (L total : Liquidity)
  | rewardOpened (n : Nat) (duration : Word 64)
  | rewardFunded (n : Nat) (f : Funded)
  | rewardClaimed (n : Nat) (x : Amount)
  | idleRewardWithdrawn (n : Nat) (x : Amount)
  | rewardDurationChanged (n : Nat) (duration : Word 64)
  | rewardFunderChanged
  | protocolFeesClaimed (x : Pair Amount)
  | partnerFeesClaimed (x : Pair Amount)
  | statusChanged (status : Coded Status)
  deriving DecidableEq, Repr

def Receipt.entries : Receipt → List Entry
  | .positionOpened | .positionClosed | .liquidityMoved _ | .refreshed _
  | .rewardFunderChanged => []
  | .traded t => [.swapped t.quote]
  | .feesClaimed x => [.feesClaimed x]
  | .locked total released => [.locked total released]
  | .lockedForever L total => [.lockedForever L total]
  | .rewardOpened n duration => [.rewardOpened n duration]
  | .rewardFunded n f => [.rewardFunded n f.total f.rate f.endsAt]
  | .rewardClaimed n x => [.rewardClaimed n x]
  | .idleRewardWithdrawn n x => [.idleRewardWithdrawn n x]
  | .rewardDurationChanged n duration => [.rewardDurationChanged n duration]
  | .protocolFeesClaimed x => [.protocolFeesClaimed x]
  | .partnerFeesClaimed x => [.partnerFeesClaimed x]
  | .statusChanged status => [.statusChanged status]

namespace Book

def perform (b : Book) : Call → Except Fault (Book × Receipt)
  | .openPosition pool owner clock => do
    let (p, x) ← Market.openPosition b.pool pool owner clock
    return ({ b with pool := p, position := x }, .positionOpened)
  | .closePosition => do
    let p ← Market.closePosition b.pool b.position
    return ({ b with pool := p }, .positionClosed)
  | .addLiquidity L limits clock fees => do
    let (p, x, moved) ← Market.addLiquidity b.pool b.position L limits clock fees
    return ({ b with pool := p, position := x }, .liquidityMoved moved)
  | .removeLiquidity L limits clock fees => do
    let (p, x, moved) ← Market.removeLiquidity b.pool b.position L limits clock fees
    return ({ b with pool := p, position := x }, .liquidityMoved moved)
  | .removeAll limits clock fees => do
    let (p, x, moved) ←
      Market.removeLiquidity b.pool b.position b.position.unlocked limits clock fees
    return ({ b with pool := p, position := x }, .liquidityMoved moved)
  | .swap dir amount least sender referred clock fees => do
    let (p, t) ← Market.swap b.pool dir amount least sender referred clock fees
    return ({ b with pool := p }, .traded t)
  | .swapExactOut dir wanted most sender referred clock fees => do
    let (p, t) ← Market.swapExactOut b.pool dir wanted most sender referred clock fees
    return ({ b with pool := p }, .traded t)
  | .claimFees => do
    let (x, paid) ← Market.claimFees b.pool b.position
    return ({ b with position := x }, .feesClaimed paid)
  | .lock key terms clock => do
    let l ← Market.lock b.pool b.position key terms clock
    return ({ pool := l.pool, position := l.position, vesting := l.vesting },
      .locked l.total l.released)
  | .refresh clock => do
    let (p, x, v, released) ← Market.refresh b.pool b.position b.vesting clock
    return ({ pool := p, position := x, vesting := v }, .refreshed released)
  | .lockForever L clock => do
    let (p, x) ← Market.lockForever b.pool b.position L clock
    return ({ b with pool := p, position := x }, .lockedForever L p.permanent)
  | .openReward auth signer n duration funder mint vault => do
    let p ← Market.openReward b.pool auth signer n duration funder mint vault
    return ({ b with pool := p }, .rewardOpened n duration)
  | .fundReward auth signer n amount carry clock fee => do
    let (p, f) ← Market.fundReward b.pool auth signer n amount carry clock fee
    return ({ b with pool := p }, .rewardFunded n f)
  | .claimReward n clock => do
    let (p, x, reward) ← Market.claimReward b.pool b.position n clock
    return ({ b with pool := p, position := x }, .rewardClaimed n reward)
  | .withdrawIdleReward auth signer n clock => do
    let (p, x) ← Market.withdrawIdleReward b.pool auth signer n clock
    return ({ b with pool := p }, .idleRewardWithdrawn n x)
  | .changeRewardDuration auth signer n duration clock => do
    let p ← Market.changeRewardDuration b.pool auth signer n duration clock
    return ({ b with pool := p }, .rewardDurationChanged n duration)
  | .changeRewardFunder auth signer n funder clock => do
    let p ← Market.changeRewardFunder b.pool auth signer n funder clock
    return ({ b with pool := p }, .rewardFunderChanged)
  | .claimProtocolFees auth signer => do
    let (p, x) ← Market.claimProtocolFees b.pool auth signer
    return ({ b with pool := p }, .protocolFeesClaimed x)
  | .claimPartnerFees signer limits => do
    let (p, x) ← Market.claimPartnerFees b.pool signer limits
    return ({ b with pool := p }, .partnerFeesClaimed x)
  | .changeStatus auth signer status => do
    let p ← Market.changeStatus b.pool auth signer status
    return ({ b with pool := p }, .statusChanged p.status)

/-- A change of liquidity is written down once it is booked, even if paying for it then fails. -/
def booking (b : Book) : Call → List Entry
  | .addLiquidity L _ clock _ =>
    match bookDeposit b.pool b.position L clock with
    | .ok booked => [.liquidityAdded L booked.pool.liquidity]
    | .error _ => []
  | .removeLiquidity L _ clock _ => withdrawal L clock
  | .removeAll _ clock _ => withdrawal b.position.unlocked clock
  | _ => []
where
  withdrawal (L : Liquidity) (clock : Clock) : List Entry :=
    match bookWithdrawal b.pool b.position L clock with
    | .ok booked => [.liquidityRemoved L booked.pool.liquidity]
    | .error _ => []

def journal (b : Book) (c : Call) : List Entry :=
  b.booking c ++
    match b.perform c with
    | .ok (_, receipt) => receipt.entries
    | .error fault => fault.entries

end Book

def openingEntries : Except Fault Opened → List Entry
  | .ok o => [.poolOpened o.pool.price o.pool.liquidity o.deposit]
  | .error fault => fault.entries

def configEntries : Except Fault Config → List Entry
  | .ok c => [.configCreated c.index]
  | .error fault => fault.entries

end RangePool.Market
