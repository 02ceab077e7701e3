/-!
The two tokens of a pool, and values kept once per token.
-/
set_option autoImplicit false

namespace RangePool

inductive Side
  | a
  | b
  deriving DecidableEq, Repr

def Side.other : Side → Side
  | .a => .b
  | .b => .a

structure Pair (α : Type) where
  a : α
  b : α
  deriving DecidableEq, Repr

namespace Pair

variable {α β ε : Type}

def get (p : Pair α) : Side → α
  | .a => p.a
  | .b => p.b

def set (p : Pair α) : Side → α → Pair α
  | .a, x => { p with a := x }
  | .b, x => { p with b := x }

def both (x : α) : Pair α := ⟨x, x⟩

def map (f : α → β) (p : Pair α) : Pair β := ⟨f p.a, f p.b⟩

def update (p : Pair α) (s : Side) (f : α → Except ε α) : Except ε (Pair α) := do
  let x ← f (p.get s)
  return p.set s x

theorem update_eq_ok {p q : Pair α} {s : Side} {f : α → Except ε α} :
    p.update s f = .ok q ↔ ∃ x, f (p.get s) = .ok x ∧ q = p.set s x := by
  unfold update
  cases f (p.get s) <;> simp [bind, Except.bind, pure, Except.pure, eq_comm]

@[simp] theorem get_set (p : Pair α) (s : Side) (x : α) : (p.set s x).get s = x := by
  cases s <;> rfl

@[simp] theorem get_other_set (p : Pair α) (s : Side) (x : α) :
    (p.set s x).get s.other = p.get s.other := by
  cases s <;> rfl

@[simp] theorem get_both (x : α) (s : Side) : (both x).get s = x := by
  cases s <;> rfl

@[simp] theorem get_map (f : α → β) (p : Pair α) (s : Side) : (p.map f).get s = f (p.get s) := by
  cases s <;> rfl

theorem ext_get {p q : Pair α} (h : ∀ s, p.get s = q.get s) : p = q := by
  cases p; cases q
  have ha := h .a
  have hb := h .b
  simp_all [get]

end Pair

inductive Direction
  | aToB
  | bToA
  deriving DecidableEq, Repr

def Direction.input : Direction → Side
  | .aToB => .a
  | .bToA => .b

def Direction.output : Direction → Side
  | .aToB => .b
  | .bToA => .a

end RangePool
