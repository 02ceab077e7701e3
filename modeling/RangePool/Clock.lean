import RangePool.Coded
/-!
Time as a pool counts it: in slots or in seconds, whichever its `TimeUnit` says. Limits on durations are given
per unit.
-/
set_option autoImplicit false

namespace RangePool

/-- A slot number or a time in seconds. -/
abbrev Point := Word 64

structure Clock where
  slot : Point := 0
  time : Point := 0
  deriving DecidableEq, Repr

inductive TimeUnit
  | slot
  | second
  deriving DecidableEq, Repr

instance : ByteCode TimeUnit :=
  .ofTwo .timeUnit .slot .second nofun fun z => by cases z <;> simp

namespace TimeUnit

def now (u : TimeUnit) (clock : Clock) : Point :=
  match u with
  | .slot => clock.slot
  | .second => clock.time

/-- How long before its activation a pool may be traded by its early trader. -/
def headStart : TimeUnit → Point
  | .slot => .lit 64 9000
  | .second => .lit 64 3600

/-- An activation lies at most 31 days ahead. -/
def maxActivation : TimeUnit → Point
  | .slot => .lit 64 (9000 * 24 * 31)
  | .second => .lit 64 (3600 * 24 * 31)

def maxVesting : TimeUnit → Point
  | .slot => .lit 64 (9000 * 24 * 365 * 2)
  | .second => .lit 64 (3600 * 24 * 365 * 2)

end TimeUnit

namespace Coded

def now (u : Coded TimeUnit) (clock : Clock) : Except Fault Point := do
  return (← u.member).now clock

def lastActivation (u : Coded TimeUnit) (clock : Clock) : Except Fault Point := do
  let x ← u.member
  (x.now clock).add x.maxActivation

/-- The activation point to use: the one asked for, if it lies in the window, or the current point. -/
def activation (u : Coded TimeUnit) (wanted : Option Point) (clock : Clock) :
    Except Fault Point := do
  let now ← u.now clock
  match wanted with
  | none => return now
  | some p =>
    let last ← u.lastActivation clock
    require (now ≤ p ∧ p ≤ last) .activationWindow
    return p

end Coded

end RangePool
