import RangePool.Pool.Trade
/-!
What is written down while the market runs. An `Entry` is one event with its level and its text; a `Logger`
passes on the entries from its threshold up.
-/
set_option autoImplicit false

namespace RangePool

inductive Level
  | trace
  | debug
  | info
  | warning
  | error
  deriving DecidableEq, Repr

namespace Level

def all : List Level := [.trace, .debug, .info, .warning, .error]

def number : Level → Nat
  | .trace => 0
  | .debug => 1
  | .info => 2
  | .warning => 3
  | .error => 4

def name : Level → String
  | .trace => "TRACE"
  | .debug => "DEBUG"
  | .info => "INFO"
  | .warning => "WARNING"
  | .error => "ERROR"

def find? (n : Nat) : Option Level := all[n]?

def nameOfNumber (n : Nat) : String := ((find? n).map name).getD "?"

theorem find?_number (l : Level) : find? l.number = some l := by
  cases l <;> rfl

end Level

inductive Entry
  | configCreated (index : Word 64)
  | poolOpened (price : Price) (liquidity : Liquidity) (deposit : Pair Amount)
  | liquidityAdded (L total : Liquidity)
  | liquidityRemoved (L total : Liquidity)
  | swapped (q : Quote)
  | feesClaimed (x : Pair Amount)
  | locked (total released : Liquidity)
  | lockedForever (L total : Liquidity)
  | rewardOpened (n : Nat) (duration : Word 64)
  | rewardFunded (n : Nat) (total : Amount) (rate : Word 128) (endsAt : Point)
  | rewardClaimed (n : Nat) (x : Amount)
  | idleRewardWithdrawn (n : Nat) (x : Amount)
  | rewardDurationChanged (n : Nat) (duration : Word 64)
  | protocolFeesClaimed (x : Pair Amount)
  | partnerFeesClaimed (x : Pair Amount)
  | statusChanged (status : Coded Status)
  | refused (op : Operation) (kind : Kind)
  deriving DecidableEq, Repr

namespace Entry

def level : Entry → Level
  | refused _ _ => .warning
  | statusChanged _ => .info
  | _ => .debug

def number {w : Nat} (x : Word w) : String := toString x.val

def amounts (x : Pair Amount) : String := "a " ++ number x.a ++ " b " ++ number x.b

def reward (n : Nat) : String := "reward " ++ toString n

def text : Entry → String
  | configCreated index => "config " ++ number index ++ " created"
  | poolOpened price liquidity deposit =>
    "pool initialized: sqrt_price " ++ number price ++ " liquidity " ++ number liquidity ++
      " deposit " ++ amounts deposit
  | liquidityAdded L total =>
    "liquidity added: " ++ number L ++ ", pool liquidity now " ++ number total
  | liquidityRemoved L total =>
    "liquidity removed: " ++ number L ++ ", pool liquidity now " ++ number total
  | swapped q =>
    "swap applied: in " ++ number q.input ++ " out " ++ number q.output ++ " sqrt_price " ++
      number q.nextPrice ++ " lp_fee " ++ number q.shares.lp ++ " protocol_fee " ++
      toString (q.shares.protocol.val - q.shares.referral.val) ++ " partner_fee " ++
      number q.shares.partner ++ " referral_fee " ++ number q.shares.referral
  | feesClaimed x => "position fee claimed: " ++ amounts x
  | locked total released =>
    "position locked: " ++ number total ++ " liquidity, " ++ number released ++
      " released at once"
  | lockedForever L total =>
    "permanent lock: " ++ number L ++ ", pool permanent liquidity now " ++ number total
  | rewardOpened n duration => reward n ++ " initialized, duration " ++ number duration
  | rewardFunded n total rate endsAt =>
    reward n ++ " funded with " ++ number total ++ ", rate now " ++ number rate ++
      ", ends at " ++ number endsAt
  | rewardClaimed n x => reward n ++ " claimed: " ++ number x
  | idleRewardWithdrawn n x => reward n ++ " ineligible amount withdrawn: " ++ number x
  | rewardDurationChanged n duration => reward n ++ " duration set to " ++ number duration
  | protocolFeesClaimed x => "protocol fee claimed: " ++ amounts x
  | partnerFeesClaimed x => "partner fee claimed: " ++ amounts x
  | statusChanged status =>
    "pool status set to " ++ if status = .of .enabled then "enabled" else "disabled"
  | refused op kind => op.name ++ " rejected: " ++ kind.name

end Entry

/-- A refused request is written down; other faults are only reported. -/
def Fault.entries : Fault → List Entry
  | .rejected op kind => [.refused op kind]
  | _ => []

inductive Sink
  | reader
  | console
  | failing (reason : String)
  deriving DecidableEq, Repr

structure Delivery where
  lines : List String := []
  console : String := ""
  deriving DecidableEq, Repr

structure Logger where
  threshold : Level := .info
  deriving DecidableEq, Repr

namespace Logger

def setThreshold (l : Logger) (n : Nat) : Logger :=
  match Level.find? n with
  | some threshold => { threshold }
  | none => l

/-- Numbers past the last level pass every threshold. -/
def passes (l : Logger) (n : Nat) : Bool := decide (l.threshold.number ≤ n)

/-- A failing reader costs the entry, never the operation. -/
def emit (l : Logger) (sink : Sink) (n : Nat) (text : String) : Delivery :=
  if l.passes n then
    match sink with
    | .reader => { lines := [Level.nameOfNumber n ++ " " ++ text] }
    | .console => { console := "[cpamm] " ++ Level.nameOfNumber n ++ ": " ++ text ++ "\n" }
    | .failing reason =>
      { console := "[cpamm] log sink failed (" ++ reason ++ "), dropped: " ++ text ++ "\n" }
  else {}

def lines (l : Logger) (es : List Entry) : List String :=
  es.flatMap fun e => (l.emit .reader e.level.number e.text).lines

end Logger

end RangePool
