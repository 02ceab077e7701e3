import RangePool.Image.Codec
import RangePool.Pool.Basic
/-!
The images of pools and positions, field by field. A pool takes 1088 bytes and a position 312.
-/
set_option autoImplicit false

namespace RangePool

namespace Codec

def baseFee : Codec BaseFee :=
  (u64.pair <| u16.pair <| u64.pair <| u64.pair <| coded.padded 5).iso
    (fun (cliff, periods, frequency, reduction, decay) =>
      { cliff, decay, periods, frequency, reduction })
    (fun f => (f.cliff, f.periods, f.frequency, f.reduction, f.decay))

def percents : Codec Percents :=
  (byte.pair <| byte.pair <| byte.padded 5).iso
    (fun (protocol, partner, referral) => { protocol, partner, referral })
    (fun p => (p.protocol, p.partner, p.referral))

def tracker : Codec Tracker :=
  ((flag.padded 7).pair <| u32.pair <| u32.pair <| u16.pair <| u16.pair <| u16.pair <| u16.pair <|
    u64.pair <| u128.pair <| u128.pair <| u128.pair u128).iso
    (fun (enabled, maxAccumulator, control, binStep, filterPeriod, decayPeriod, reduction,
        lastUpdate, wideBinStep, priceReference, accumulator, reference) =>
      { enabled, maxAccumulator, control, binStep, filterPeriod, decayPeriod, reduction,
        lastUpdate, wideBinStep, priceReference, accumulator, reference })
    (fun t => (t.enabled, t.maxAccumulator, t.control, t.binStep, t.filterPeriod, t.decayPeriod,
      t.reduction, t.lastUpdate, t.wideBinStep, t.priceReference, t.accumulator, t.reference))

def feePlan : Codec FeePlan :=
  (baseFee.pair <| percents.pair tracker).iso
    (fun (base, percents, tracker) => { base, percents, tracker })
    (fun p => (p.base, p.percents, p.tracker))

def metrics : Codec Metrics :=
  (u128.tokens.pair <| u64.tokens.pair <| u64.tokens.pair <| u64.padded 8).iso
    (fun (lp, protocol, partner, positions) => { lp, protocol, partner, positions })
    (fun m => (m.lp, m.protocol, m.partner, m.positions))

def rewardSlot : Codec RewardSlot :=
  (flag.pair <| (byte.padded 14).pair <| key.pair <| key.pair <| key.pair <| u64.pair <|
    u64.pair <| u128.pair <| u256.pair <| u64.pair u64).iso
    (fun (opened, tokenFlag, mint, vault, funder, duration, endsAt, rate, perLiquidity,
        lastUpdate, idleSeconds) =>
      { opened, tokenFlag, mint, vault, funder, duration, endsAt, rate, perLiquidity,
        lastUpdate, idleSeconds })
    (fun r => (r.opened, r.tokenFlag, r.mint, r.vault, r.funder, r.duration, r.endsAt, r.rate,
      r.perLiquidity, r.lastUpdate, r.idleSeconds))

def stake : Codec Stake :=
  (u256.pair <| u64.pair u64).iso
    (fun (checkpoint, pending, claimed) => { checkpoint, pending, claimed })
    (fun s => (s.checkpoint, s.pending, s.claimed))

/-- The layout of both records is the first one. -/
def layout : Byte := .one

def pool : Codec Pool :=
  version layout <|
    (feePlan.pair <| key.tokens.pair <| key.tokens.pair <| key.pair <| key.pair <|
      (u128.padded 16).pair <| u64.tokens.pair <| u64.tokens.pair <|
      u128.pair <| u128.pair <| u128.pair <| u64.pair <|
      coded.pair <| coded.pair <| byte.tokens.pair <| coded.pair <| (coded.padded 2).pair <|
      u256.tokens.pair <| u128.pair <| (metrics.padded 80).pair rewardSlot.slots).iso
    (fun (fees, mints, vaults, earlyTrader, partner, liquidity, protocolFees, partnerFees,
        minPrice, maxPrice, price, activationPoint, timeUnit, status, flags, collection, origin,
        feePerLiquidity, permanent, metrics, rewards) =>
      { fees, mints, vaults, earlyTrader, partner, liquidity, protocolFees, partnerFees,
        minPrice, maxPrice, price, activationPoint, timeUnit, status, flags, collection, origin,
        feePerLiquidity, permanent, metrics, rewards })
    (fun p => (p.fees, p.mints, p.vaults, p.earlyTrader, p.partner, p.liquidity, p.protocolFees,
      p.partnerFees, p.minPrice, p.maxPrice, p.price, p.activationPoint, p.timeUnit, p.status,
      p.flags, p.collection, p.origin, p.feePerLiquidity, p.permanent, p.metrics, p.rewards))

def position : Codec Position :=
  version layout <|
    (key.pair <| key.pair <| u256.tokens.pair <| u64.tokens.pair <| u128.pair <| u128.pair <|
      u128.pair <| u64.tokens.pair stake.slots).iso
    (fun (pool, owner, checkpoints, pending, unlocked, vested, permanent, claimed, stakes) =>
      { pool, owner, checkpoints, pending, unlocked, vested, permanent, claimed, stakes })
    (fun x => (x.pool, x.owner, x.checkpoints, x.pending, x.unlocked, x.vested, x.permanent,
      x.claimed, x.stakes))

theorem size_pool : pool.size = 1088 := rfl

theorem size_position : position.size = 312 := rfl

end Codec

def Pool.image (p : Pool) : List Byte := Codec.pool.write p

def Pool.ofImage (bs : List Byte) : Except Fault Pool := Codec.pool.decode bs

def Position.image (x : Position) : List Byte := Codec.position.write x

def Position.ofImage (bs : List Byte) : Except Fault Position := Codec.position.decode bs

end RangePool
