import RangePool.Coded
import RangePool.Fee.Tracker
/-!
What a trade pays, on which token, and who gets it. A fee is taken on the token that comes in or the one that goes
out. It goes to the protocol by percentage, the rest to the liquidity; of the protocol's part a referrer and then a
partner take theirs.
-/
set_option autoImplicit false

namespace RangePool

/-- A pool collects fees in the token a trader receives, or always in token B. -/
inductive Collection
  | received
  | onlyB
  deriving DecidableEq, Repr

instance : ByteCode Collection :=
  .ofTwo .collection .received .onlyB nofun fun z => by cases z <;> simp

structure Placement where
  onInput : Bool := false
  inTokenA : Bool := false
  referred : Bool := false
  deriving DecidableEq, Repr

namespace Placement

def side (p : Placement) : Side := if p.inTokenA then .a else .b

/-- A byte that names no collection leaves the fee on the output and in token B. -/
def of (c : Coded Collection) (dir : Direction) (referred : Bool) : Placement :=
  match c.member? with
  | some .received => { onInput := false, inTokenA := decide (dir.output = .a), referred }
  | some .onlyB => { onInput := decide (dir.input = .b), inTokenA := false, referred }
  | none => { referred }

end Placement

/-- Percentages: of the fee to the protocol, of the protocol's part to a referrer, and of what is then left of
it to the partner. -/
structure Percents where
  protocol : Byte := 0
  partner : Byte := 0
  referral : Byte := 0
  deriving DecidableEq, Repr

def Percents.validate (p : Percents) : Except Fault Unit := do
  require (p.protocol.val ≤ Fee.maxPercent) .protocolPercent
  require (p.partner.val ≤ Fee.maxPercent) .partnerPercent
  require (p.referral.val ≤ Fee.maxPercent) .referralPercent

/-- The parts of a fee. The referral is paid out of the protocol's part, which includes it. -/
structure Shares where
  lp : Amount := 0
  protocol : Amount := 0
  partner : Amount := 0
  referral : Amount := 0
  deriving DecidableEq, Repr

def Shares.total (s : Shares) : Except Fault Amount := do
  (← s.lp.add s.protocol).add s.partner

def Amount.mulDiv (r : Rounding) (x y d : Amount) : Except Fault Amount :=
  Word.mulDiv 64 r (x.widen 128) (y.widen 128) (d.widen 128)

def Amount.percent (x : Amount) (p : Byte) : Except Fault Amount :=
  Amount.mulDiv .down x (p.widen 64) (.lit 64 100)

/-- Every part is rounded down and the liquidity gets what is left. -/
def Percents.split (p : Percents) (total : Amount) (referred : Bool) : Except Fault Shares := do
  let taken ← Amount.percent total p.protocol
  let referral ← if referred then Amount.percent taken p.referral else .ok 0
  let partner ← Amount.percent (← taken.sub referral) p.partner
  let protocol ← taken.sub partner
  let lp ← total.sub taken
  return { lp, protocol, partner, referral }

structure Charge where
  amount : Amount
  shares : Shares
  deriving DecidableEq, Repr

structure FeePlan where
  base : BaseFee := {}
  percents : Percents := {}
  tracker : Tracker := {}
  deriving DecidableEq, Repr

def FeePlan.numerator (p : FeePlan) (now activation : Point) : Except Fault (Word 64) := do
  let base ← p.base.current now activation
  let total ← (base.widen 128).add (← p.tracker.fee)
  return ⟨min total.val Fee.maxNumerator, Nat.lt_of_le_of_lt (Nat.min_le_right _ _) (by decide)⟩

/-- The fee on an amount, rounded up. Where the net is given, the gross is the least that leaves it. -/
def FeePlan.charge (p : FeePlan) (exact : Curve.Exact) (x : Amount) (referred : Bool)
    (now activation : Point) : Except Fault Charge := do
  let n ← p.numerator now activation
  match exact with
  | .input =>
    let fee ← Amount.mulDiv .up x n (.lit 64 Fee.denominator)
    let net ← x.sub fee
    return ⟨net, ← p.percents.split fee referred⟩
  | .output =>
    let rest ← (Word.lit 64 Fee.denominator).sub n
    let gross ← Amount.mulDiv .up x (.lit 64 Fee.denominator) rest
    let fee ← gross.sub x
    return ⟨gross, ← p.percents.split fee referred⟩

structure FeeTerms where
  base : BaseFee := {}
  percents : Percents := {}
  tracker : Option TrackerTerms := none
  deriving DecidableEq, Repr

def FeeTerms.validate (t : FeeTerms) : Except Fault Unit := do
  t.base.validate
  t.percents.validate
  match t.tracker with
  | none => return ()
  | some tracker => tracker.validate

def FeeTerms.plan (t : FeeTerms) : FeePlan where
  base := t.base
  percents := t.percents
  tracker := match t.tracker with
    | none => {}
    | some tracker => tracker.tracker

def FeePlan.startAt (p : FeePlan) (price : Price) : FeePlan :=
  { p with tracker := { p.tracker with priceReference := price } }

end RangePool
