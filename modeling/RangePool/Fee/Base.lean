import RangePool.Clock
import RangePool.Fraction
/-!
The base fee of a pool, a numerator over `10 ^ 9`. It may step down after activation: by a fixed amount each
period, or by a fixed part of itself.
-/
set_option autoImplicit false

namespace RangePool

inductive Decay
  | linear
  | exponential
  deriving DecidableEq, Repr

instance : ByteCode Decay :=
  .ofTwo .decay .linear .exponential nofun fun z => by cases z <;> simp

namespace Fee

def denominator : Nat := 1000000000
def minNumerator : Nat := 100000
def maxNumerator : Nat := 500000000
def basisPoints : Nat := 10000
def maxPercent : Nat := 100

end Fee

/-- With frequency zero the fee stays at the cliff; else it takes one step each `frequency` points, for at
most `periods` steps. -/
structure BaseFee where
  cliff : Word 64 := 0
  decay : Coded Decay := ⟨0⟩
  periods : Word 16 := 0
  frequency : Word 64 := 0
  reduction : Word 64 := 0
  deriving DecidableEq, Repr

namespace BaseFee

def retained (f : BaseFee) : Except Fault Fraction :=
  let cut := f.reduction.val * Nat.pow 2 64 / Fee.basisPoints
  if cut ≤ Nat.pow 2 64 then .ok ⟨Nat.pow 2 64 - cut, Nat.sub_le _ _⟩ else .error (.arithmetic .sub)

def after (f : BaseFee) (n : Word 64) : Except Fault (Word 64) := do
  match ← f.decay.member with
  | .linear => f.cliff.sub (← n.mul f.reduction)
  | .exponential => return ((← f.retained).pow n).scale f.cliff

/-- Steps taken at a point. Before its activation a pool trades as if all steps were taken. -/
def stepsAt (f : BaseFee) (now activation : Point) : Word 64 :=
  if activation ≤ now then
    min (f.periods.widen 64)
      ⟨(now.val - activation.val) / f.frequency.val,
        Nat.lt_of_le_of_lt (Nat.le_trans (Nat.div_le_self _ _) (Nat.sub_le _ _)) now.isLt⟩
  else f.periods.widen 64

def current (f : BaseFee) (now activation : Point) : Except Fault (Word 64) :=
  if f.frequency = 0 then .ok f.cliff else f.after (f.stepsAt now activation)

def lowest (f : BaseFee) : Except Fault (Word 64) := f.after (f.periods.widen 64)

/-- A schedule is complete or absent, and the fee stays between the limits to its last step. -/
def validate (f : BaseFee) : Except Fault Unit := do
  if f.frequency ≠ 0 ∨ f.periods ≠ 0 ∨ f.reduction ≠ 0 then
    require (f.frequency ≠ 0 ∧ f.periods ≠ 0 ∧ f.reduction ≠ 0) .completeSchedule
  match f.decay.member? with
  | some .linear => require (f.periods.val * f.reduction.val ≤ f.cliff.val) .linearReduction
  | some .exponential => require (f.reduction.val < Fee.basisPoints) .exponentialReduction
  | none => pure ()
  require (f.cliff.val ≤ Fee.maxNumerator) .highestFee
  let lowest ← f.lowest
  require (Fee.minNumerator ≤ lowest.val) .lowestFee

end BaseFee

end RangePool
