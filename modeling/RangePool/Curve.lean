import RangePool.Pair
import RangePool.Word.Scaled
/-!
The price curve. Prices are square roots with 64 fractional bits; between two prices a liquidity `L` holds
`L * (1 / lower - 1 / upper)` of token A and `L * (upper - lower)` of token B, the second with 128 fractional
bits. The next price is rounded so that the pool never gives more than it takes in.
-/
set_option autoImplicit false

namespace RangePool

abbrev Amount := Word 64

/-- The square root of the price of A in B, with 64 fractional bits. -/
abbrev Price := Word 128

abbrev Liquidity := Word 128

namespace Curve

/-- The widest range a pool can trade over. -/
def minPrice : Price := .lit 128 4295048016
def maxPrice : Price := .lit 128 79226673521066979257578248091

def wideA (r : Rounding) (lower upper : Price) (L : Liquidity) : Except Fault (Word 256) := do
  let span ← upper.sub lower
  if lower.val * upper.val = 0 then .error (.arithmetic .priceProduct)
  else .ok ⟨r.quotient (L.val * span.val) (lower.val * upper.val),
    Nat.lt_of_le_of_lt (r.quotient_le _ _)
      (Nat.lt_of_lt_of_eq (Nat.mul_lt_mul'' L.isLt span.isLt) (Nat.pow_add 2 128 128).symm)⟩

def wideB (r : Rounding) (lower upper : Price) (L : Liquidity) : Except Fault (Word 256) := do
  let span ← upper.sub lower
  return ⟨r.quotient (L.val * span.val) (Nat.pow 2 128),
    Nat.lt_of_le_of_lt (r.quotient_le _ _)
      (Nat.lt_of_lt_of_eq (Nat.mul_lt_mul'' L.isLt span.isLt) (Nat.pow_add 2 128 128).symm)⟩

def toAmount (x : Word 256) : Except Fault Amount :=
  Word.fit 64 (.arithmetic .amount) x.val

def deltaA (r : Rounding) (lower upper : Price) (L : Liquidity) : Except Fault Amount := do
  toAmount (← wideA r lower upper L)

def deltaB (r : Rounding) (lower upper : Price) (L : Liquidity) : Except Fault Amount := do
  toAmount (← wideB r lower upper L)

inductive Flow
  | enters
  | leaves
  deriving DecidableEq, Repr

/-- The price after `x` of token A: `L * P / (L ± x * P)`, rounded up. -/
def priceFromA (flow : Flow) (P : Price) (L : Liquidity) (x : Amount) : Except Fault Price :=
  if x = 0 then .ok P
  else do
    let divisor ← match flow with
      | .enters => .ok (L.val + x.val * P.val)
      | .leaves =>
        if x.val * P.val ≤ L.val then .ok (L.val - x.val * P.val)
        else .error (.arithmetic .sub)
    if divisor = 0 then .error (.arithmetic .priceFromA)
    else Word.fit 128 .tooNarrow (Rounding.up.quotient (L.val * P.val) divisor)

/-- The price after `y` of token B: `P ± y / L`, rounded down. -/
def priceFromB (flow : Flow) (P : Price) (L : Liquidity) (y : Amount) : Except Fault Price :=
  if L = 0 then .error (.arithmetic .div)
  else match flow with
    | .enters => Word.fit 128 .tooNarrow (P.val + Rounding.down.quotient (y.val * Nat.pow 2 128) L.val)
    | .leaves =>
      let step := Rounding.up.quotient (y.val * Nat.pow 2 128) L.val
      if step ≤ P.val then .ok ⟨P.val - step, Nat.lt_of_le_of_lt (Nat.sub_le _ _) P.isLt⟩
      else .error (.arithmetic .sub)

/-- Which side of a trade is given: what is sold, or what is wanted. -/
inductive Exact
  | input
  | output
  deriving DecidableEq, Repr

def nextPrice (exact : Exact) (dir : Direction) (P : Price) (L : Liquidity) (x : Amount) :
    Except Fault Price :=
  if P = 0 then .error .noPrice
  else if L = 0 then .error .noLiquidity
  else match exact, dir with
    | .input, .aToB => priceFromA .enters P L x
    | .input, .bToA => priceFromB .enters P L x
    | .output, .aToB => priceFromB .leaves P L x
    | .output, .bToA => priceFromA .leaves P L x

/-- Both tokens of a liquidity over the range `lo` to `hi` at price `P`: A above the price, B below it. -/
def reserves (r : Rounding) (lo hi P : Price) (L : Liquidity) : Except Fault (Pair Amount) := do
  let a ← deltaA r P hi L
  let b ← deltaB r lo P L
  return ⟨a, b⟩

end Curve

end RangePool
