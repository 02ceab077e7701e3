import RangePool.Word
/-!
Enumerations that travel as one byte. A request may carry a byte that names no member; it is kept as it came,
and whoever needs the member refuses it. Members and their bytes determine each other, so a checked byte is
the byte of a member.
-/
set_option autoImplicit false

namespace RangePool

abbrev Byte := Word 8

def Byte.one : Byte := .lit 8 1

/-- A type whose members have a byte each. A byte names the member whose byte it is. -/
class ByteCode (α : Type) where
  enumeration : Enumeration
  toByte : α → Byte
  ofByte? : Byte → Option α
  ofByte?_eq_some {b : Byte} {x : α} : ofByte? b = some x ↔ b = toByte x

@[reducible] def ByteCode.ofTwo {α : Type} [DecidableEq α] (e : Enumeration) (x y : α)
    (hne : x ≠ y) (all : ∀ z, z = x ∨ z = y) : ByteCode α where
  enumeration := e
  toByte z := if z = x then 0 else .one
  ofByte? b := if b.val = 0 then some x else if b.val = 1 then some y else none
  ofByte?_eq_some {b z} := by
    rcases all z with rfl | rfl
    · by_cases h : b.val = 0 <;> simp [Word.ext_iff, h, hne.symm]
    · by_cases h : b.val = 0
      · simp [Word.ext_iff, h, hne, hne.symm, Byte.one]
      · simp [Word.ext_iff, h, hne.symm, Byte.one]

/-- A byte that may stand for a member of `α`. -/
structure Coded (α : Type) where
  byte : Byte
  deriving DecidableEq, Repr

namespace Coded

variable {α : Type} [ByteCode α]

def of (x : α) : Coded α := ⟨ByteCode.toByte x⟩

def member? (c : Coded α) : Option α := ByteCode.ofByte? c.byte

def member (c : Coded α) : Except Fault α :=
  match c.member? with
  | some x => .ok x
  | none => .error (.unknownByte (ByteCode.enumeration α))

def check (c : Coded α) : Except Fault (Coded α) := do
  let x ← c.member
  return of x

theorem member?_eq_some {c : Coded α} {x : α} : c.member? = some x ↔ c = of x := by
  rw [member?, ByteCode.ofByte?_eq_some, of, Coded.mk.injEq]

@[simp] theorem member?_of (x : α) : (of x).member? = some x := member?_eq_some.2 rfl

theorem of_inj {x y : α} (h : of x = of y) : x = y := by
  rw [← Option.some_inj, ← member?_of, h, member?_of]

theorem member_eq_ok {c : Coded α} {x : α} : c.member = .ok x ↔ c = of x := by
  rw [← member?_eq_some, member]
  split <;> simp_all

theorem check_eq_ok {c d : Coded α} : c.check = .ok d ↔ d = c ∧ ∃ x : α, c = of x := by
  unfold check
  cases h : c.member with
  | error f =>
    constructor
    · intro e; cases e
    · rintro ⟨rfl, x, hx⟩
      rw [member_eq_ok.2 hx] at h
      cases h
  | ok x =>
    rw [member_eq_ok] at h
    constructor
    · intro e; cases e; exact ⟨h.symm, x, h⟩
    · rintro ⟨rfl, -⟩; exact congrArg Except.ok h.symm

end Coded

end RangePool
