import RangePool.Clock
import RangePool.Curve
import RangePool.Key
/-!
Rewards for liquidity. A slot streams `rate / 2 ^ 64` units per second until `endsAt`; the stream is divided by
the liquidity of the pool and added up per unit of liquidity, with 192 fractional bits. Seconds without any
liquidity are counted apart, and their stream belongs to the funder.
-/
set_option autoImplicit false

namespace RangePool

/-- What one unit of liquidity has earned since the pool was opened. -/
abbrev Accrual := Word 256

structure RewardSlot where
  opened : Bool := false
  tokenFlag : Byte := 0
  mint : Key := .none
  vault : Key := .none
  funder : Key := .none
  duration : Word 64 := 0
  endsAt : Point := 0
  rate : Word 128 := 0
  perLiquidity : Accrual := 0
  lastUpdate : Point := 0
  idleSeconds : Word 64 := 0
  deriving DecidableEq, Repr

namespace RewardSlot

def minDuration : Nat := 24 * 60 * 60
def maxDuration : Nat := 31536000

def mayFund (r : RewardSlot) (auth : Authority) (k : Key) : Bool :=
  auth.isAdmin k || decide (k = r.funder)

def setUp (r : RewardSlot) (mint vault funder : Key) (duration : Word 64) (flag : Byte) :
    RewardSlot :=
  { r with opened := true, tokenFlag := flag, mint, vault, funder, duration }

def inProgress (r : RewardSlot) (now : Point) : Bool := decide (now < r.endsAt)

def elapsed (r : RewardSlot) (now : Point) : Except Fault (Word 64) :=
  (min now r.endsAt).sub r.lastUpdate

def accrued (r : RewardSlot) (now : Point) (L : Liquidity) : Except Fault Accrual := do
  let streamed ← ((← r.elapsed now).widen 128).mul r.rate
  Word.wideShlDiv streamed L 128

def accumulate (r : RewardSlot) (gain : Accrual) : Except Fault RewardSlot := do
  return { r with perLiquidity := ← r.perLiquidity.add gain }

def touch (r : RewardSlot) (now : Point) : RewardSlot :=
  { r with lastUpdate := min now r.endsAt }

/-- Brings the slot to the present. A slot that was never opened stays as it is. -/
def update (r : RewardSlot) (L : Liquidity) (now : Point) : Except Fault RewardSlot :=
  if r.opened then
    if L = 0 then do
      let idle ← r.idleSeconds.add (← r.elapsed now)
      return { r with idleSeconds := idle }.touch now
    else do
      return (← r.accumulate (← r.accrued now L)).touch now
  else .ok r

def leftover (r : RewardSlot) (now : Point) : Except Fault Amount :=
  if now < r.endsAt then
    Word.mulShr 64 .down r.rate ⟨r.endsAt.val - now.val, Nat.lt_of_le_of_lt (Nat.sub_le _ _)
      (Nat.lt_of_lt_of_le r.endsAt.isLt (by decide))⟩ 64
  else .ok 0

/-- A new campaign starts now and streams the amount together with what the last one left. -/
def fund (r : RewardSlot) (now : Point) (x : Amount) : Except Fault RewardSlot := do
  let total ← x.add (← r.leftover now)
  let rate ← Word.shlDiv 128 .down (total.widen 128) (r.duration.widen 128) 64
  let endsAt ← now.add r.duration
  return { r with rate, lastUpdate := now, endsAt }

/-- The stream of the seconds without liquidity, at the present rate. -/
def idleReward (r : RewardSlot) : Except Fault Amount :=
  Word.mulShr 64 .down (r.idleSeconds.widen 128) r.rate 64

end RewardSlot

structure Stake where
  checkpoint : Accrual := 0
  pending : Amount := 0
  claimed : Amount := 0
  deriving DecidableEq, Repr

inductive SlotIndex
  | first
  | second
  deriving DecidableEq, Repr

def SlotIndex.find? : Nat → Option SlotIndex
  | 0 => some .first
  | 1 => some .second
  | _ => none

def SlotIndex.find (n : Nat) : Except Fault SlotIndex :=
  match find? n with
  | some i => .ok i
  | none => .error (.unmet .rewardSlot)

def SlotIndex.toNat : SlotIndex → Nat
  | .first => 0
  | .second => 1

structure Slots (α : Type) where
  first : α
  second : α
  deriving DecidableEq, Repr

namespace Slots

variable {α β γ ε : Type}

def get (s : Slots α) : SlotIndex → α
  | .first => s.first
  | .second => s.second

def set (s : Slots α) : SlotIndex → α → Slots α
  | .first, x => { s with first := x }
  | .second, x => { s with second := x }

def both (x : α) : Slots α := ⟨x, x⟩

def mapM (f : α → Except ε β) (s : Slots α) : Except ε (Slots β) := do
  let x ← f s.first
  let y ← f s.second
  return ⟨x, y⟩

def zipM (f : α → β → Except ε γ) (s : Slots α) (t : Slots β) : Except ε (Slots γ) := do
  let x ← f s.first t.first
  let y ← f s.second t.second
  return ⟨x, y⟩

theorem mapM_eq_ok {f : α → Except ε β} {s : Slots α} {t : Slots β} :
    s.mapM f = .ok t ↔ ∀ i, f (s.get i) = .ok (t.get i) := by
  cases t with
  | mk x y =>
    simp only [mapM, bind_eq_ok, pure_eq_ok, mk.injEq]
    constructor
    · rintro ⟨u, hu, v, hv, rfl, rfl⟩ i
      cases i
      · exact hu
      · exact hv
    · intro h
      exact ⟨x, h .first, y, h .second, rfl, rfl⟩

theorem zipM_eq_ok {f : α → β → Except ε γ} {s : Slots α} {t : Slots β} {u : Slots γ} :
    s.zipM f t = .ok u ↔ ∀ i, f (s.get i) (t.get i) = .ok (u.get i) := by
  cases u with
  | mk x y =>
    simp only [zipM, bind_eq_ok, pure_eq_ok, mk.injEq]
    constructor
    · rintro ⟨v, hv, w, hw, rfl, rfl⟩ i
      cases i
      · exact hv
      · exact hw
    · intro h
      exact ⟨x, h .first, y, h .second, rfl, rfl⟩

@[simp] theorem get_set (s : Slots α) (i : SlotIndex) (x : α) : (s.set i x).get i = x := by
  cases i <;> rfl

@[simp] theorem set_set (s : Slots α) (i : SlotIndex) (x y : α) : (s.set i x).set i y = s.set i y := by
  cases i <;> rfl

theorem get_set_ne (s : Slots α) {i j : SlotIndex} (h : i ≠ j) (x : α) :
    (s.set i x).get j = s.get j := by
  cases i <;> cases j <;> simp_all [get, set]

theorem get_set_of {P : SlotIndex → α → Prop} {s : Slots α} {j : SlotIndex} {x : α}
    (h : ∀ i, P i (s.get i)) (hx : P j x) (i : SlotIndex) : P i ((s.set j x).get i) := by
  by_cases hij : j = i
  · subst hij
    rw [get_set]
    exact hx
  · rw [get_set_ne _ hij]
    exact h i

@[simp] theorem get_both (x : α) (i : SlotIndex) : (both x).get i = x := by
  cases i <;> rfl

end Slots

end RangePool
