import RangePool.Word.Scaled
/-!
Fractions between zero and one with 64 fractional bits. A product is rounded down and stays a fraction, so a
power exists for every exponent. Words are raised to a power by products that could fail, one by one.
-/
set_option autoImplicit false

namespace RangePool

/-- The number `val / 2 ^ 64`, at most one. -/
structure Fraction where
  val : Nat
  le_one : val ≤ Nat.pow 2 64
  deriving DecidableEq

namespace Fraction

def one : Fraction := ⟨Nat.pow 2 64, Nat.le_refl _⟩

def scale {w : Nat} (f : Fraction) (x : Word w) : Word w :=
  ⟨x.val * f.val / Nat.pow 2 64, Nat.lt_of_le_of_lt
    (Nat.div_le_of_le_mul (by rw [Nat.mul_comm]; exact Nat.mul_le_mul_right _ f.le_one)) x.isLt⟩

def mul (f g : Fraction) : Fraction :=
  ⟨f.val * g.val / Nat.pow 2 64,
    Nat.le_trans (Nat.div_le_of_le_mul
      (by rw [Nat.mul_comm]; exact Nat.mul_le_mul_right _ g.le_one)) f.le_one⟩

/-- Multiplies `acc` by the power of `f` that the lowest `bits` bits of `e` name, squaring `f` from bit to
bit. -/
def powBits : Nat → Fraction → Fraction → Nat → Fraction
  | 0, acc, _, _ => acc
  | bits + 1, acc, f, e =>
    if e = 0 then acc
    else powBits bits (if e % 2 = 1 then acc.mul f else acc) (f.mul f) (e / 2)

def pow (f : Fraction) (e : Word 64) : Fraction := powBits 64 one f e.val

@[simp] theorem val_one : one.val = Nat.pow 2 64 := rfl

@[simp] theorem val_scale {w : Nat} (f : Fraction) (x : Word w) :
    (f.scale x).val = x.val * f.val / Nat.pow 2 64 := rfl

@[simp] theorem val_mul (f g : Fraction) : (f.mul g).val = f.val * g.val / Nat.pow 2 64 := rfl

theorem pow_zero (f : Fraction) : f.pow 0 = one := rfl

def ofWord (x : Word 128) : Except Fault Fraction :=
  if h : x.val ≤ Nat.pow 2 64 then .ok ⟨x.val, h⟩ else .error (.arithmetic .powerBase)

def toWord (f : Fraction) : Word 128 :=
  ⟨f.val, Nat.lt_of_le_of_lt f.le_one (by decide)⟩

end Fraction

namespace Word

def scaleIf (p : Prop) [Decidable p] (x y : Word 128) : Except Fault (Word 128) :=
  if p then mulShr 128 .down x y 64 else .ok x

/-- Multiplies `acc` by the power of `x`, from the lowest bit of the exponent up. The base is squared only while
bits are left. -/
def powerLoop (acc x : Word 128) (e : Nat) : Except Fault (Word 128) :=
  if e = 0 then .ok acc
  else do
    let acc ← scaleIf (e % 2 = 1) acc x
    let x ← scaleIf (e / 2 ≠ 0) x x
    powerLoop acc x (e / 2)
  termination_by e

def power (x : Word 128) (e : Word 64) : Except Fault (Word 128) := do
  let base ← Fraction.ofWord x
  powerLoop Fraction.one.toWord base.toWord e.val

end Word

end RangePool
