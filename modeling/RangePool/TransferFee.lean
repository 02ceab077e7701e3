import RangePool.Curve
/-!
Tokens that charge a fee on each transfer: a part of what is sent, rounded up, but never more than a maximum.
-/
set_option autoImplicit false

namespace RangePool

structure TransferFee where
  basisPoints : Word 16 := 0
  maximum : Amount := 0
  deriving DecidableEq, Repr

namespace TransferFee

/-- The fee on sending `x`. There is none if the part asked for is no amount, which takes more than all. -/
def on? (t : TransferFee) (x : Amount) : Option Amount :=
  if t.basisPoints = 0 ∨ x = 0 then some 0
  else (Word.ofNat? 64 (Rounding.up.quotient (x.val * t.basisPoints.val) 10000)).map
    fun part => min part t.maximum

def whole : Word 16 := .lit 16 10000

def kept (t : TransferFee) : Word 128 := (whole.widen 128).minus (t.basisPoints.widen 128)

/-- `y` over the part that is kept, rounded up. A rate beyond the whole makes the divisor wrap. -/
def quotedGross (t : TransferFee) (y : Amount) : Word 128 :=
  ((((y.widen 128).times (whole.widen 128)).plus t.kept).minus (.wrap 128 1)).divNat t.kept.val

def gross? (t : TransferFee) (y : Amount) : Option Amount :=
  if y = 0 then some 0
  else if t.basisPoints = 0 then some y
  else if t.basisPoints = whole then Word.ofNat? 64 (t.maximum.val + y.val)
  else if t.maximum.val ≤ ((t.quotedGross y).minus (y.widen 128)).val then
    Word.ofNat? 64 (y.val + t.maximum.val)
  else (t.quotedGross y).narrow? 64

def onGross? (t : TransferFee) (y : Amount) : Option Amount := do
  t.on? (← t.gross? y)

end TransferFee

structure Transfer where
  amount : Amount
  fee : Amount
  deriving DecidableEq, Repr

namespace Transfer

def arriving (t : Option TransferFee) (x : Amount) : Except Fault Transfer :=
  match t with
  | none => .ok ⟨x, 0⟩
  | some t =>
    match t.on? x with
    | none => .error (.arithmetic .transferFee)
    | some fee =>
      if fee.val ≤ x.val then
        .ok ⟨⟨x.val - fee.val, Nat.lt_of_le_of_lt (Nat.sub_le _ _) x.isLt⟩, fee⟩
      else .error (.arithmetic .transferFee)

def sending (t : Option TransferFee) (y : Amount) : Except Fault Transfer :=
  match t with
  | none => .ok ⟨y, 0⟩
  | some t =>
    if y = 0 then .ok ⟨y, 0⟩
    else
      let fee := if t.basisPoints.val = 10000 then some t.maximum else t.onGross? y
      match fee with
      | none => .error (.arithmetic .transferFee)
      | some fee => do
        let amount ← Word.fit 64 (.arithmetic .transferFee) (y.val + fee.val)
        return ⟨amount, fee⟩

end Transfer

end RangePool
