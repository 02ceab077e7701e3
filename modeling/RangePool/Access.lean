import RangePool.Pool.Basic
/-!
Who may do what with a pool, and when. Everything needs the pool enabled; a trade also needs it activated, but
for the early trader in the window before.
-/
set_option autoImplicit false

namespace RangePool

structure Window where
  now : Point
  activation : Point
  headStart : Point
  earlyTrader : Key
  deriving DecidableEq, Repr

namespace Window

def isActivated (w : Window) : Bool := decide (w.activation ≤ w.now)

def opensAt (w : Window) : Point :=
  ⟨w.activation.val - w.headStart.val, Nat.lt_of_le_of_lt (Nat.sub_le _ _) w.activation.isLt⟩

def admits (w : Window) (sender : Key) : Bool :=
  decide (w.earlyTrader ≠ Key.none ∧ sender = w.earlyTrader ∧
    w.opensAt ≤ w.now ∧ w.now < w.activation)

end Window

structure Access where
  origin : Origin
  enabled : Bool
  window : Window
  deriving DecidableEq, Repr

/-- The rules that hold for a pool at this time. Its time unit and origin have to be known ones. -/
def Pool.access (p : Pool) (clock : Clock) : Except Fault Access := do
  let u ← p.timeUnit.member
  let origin ← p.origin.member
  return {
    origin
    enabled := p.isEnabled
    window := {
      now := u.now clock
      activation := p.activationPoint
      headStart := u.headStart
      earlyTrader := p.earlyTrader } }

def Access.maySwap (a : Access) (sender : Key) : Bool :=
  a.enabled && (a.window.isActivated || a.window.admits sender)

end RangePool
