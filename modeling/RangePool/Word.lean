import RangePool.Fault
/-!
Unsigned words of a fixed width. Underneath, the arithmetic is modulo the width; an operation looks first whether
the result would wrap, and returns the exact integer result or a fault. Each operation has a lemma that says
when it succeeds and with what value. Powers of two are written `Nat.pow 2 w`, which means the same under
every import.
-/
set_option autoImplicit false

namespace RangePool

structure Word (w : Nat) where
  val : Nat
  isLt : val < Nat.pow 2 w
  deriving DecidableEq

namespace Word

variable {w : Nat}

@[ext] theorem ext {a b : Word w} (h : a.val = b.val) : a = b := by
  cases a; cases b; simp_all

theorem val_inj {a b : Word w} : a.val = b.val ↔ a = b :=
  ⟨ext, congrArg val⟩

def lit (w n : Nat) (h : n < Nat.pow 2 w := by decide) : Word w := ⟨n, h⟩

instance : Zero (Word w) := ⟨⟨0, Nat.two_pow_pos w⟩⟩
instance : Inhabited (Word w) := ⟨0⟩
instance : LE (Word w) := ⟨fun a b => a.val ≤ b.val⟩
instance : LT (Word w) := ⟨fun a b => a.val < b.val⟩
instance (a b : Word w) : Decidable (a ≤ b) := inferInstanceAs (Decidable (a.val ≤ b.val))
instance (a b : Word w) : Decidable (a < b) := inferInstanceAs (Decidable (a.val < b.val))
instance : Min (Word w) := ⟨fun a b => if a ≤ b then a else b⟩
instance : Max (Word w) := ⟨fun a b => if a ≤ b then b else a⟩
instance : Repr (Word w) := ⟨fun a p => reprPrec a.val p⟩

@[simp] theorem val_zero : (0 : Word w).val = 0 := rfl
@[simp] theorem val_lit (n : Nat) (h : n < Nat.pow 2 w) : (lit w n h).val = n := rfl
theorem le_iff {a b : Word w} : a ≤ b ↔ a.val ≤ b.val := Iff.rfl
theorem lt_iff {a b : Word w} : a < b ↔ a.val < b.val := Iff.rfl

theorem ne_zero_of_pos {a : Word w} (h : 0 < a.val) : a ≠ 0 := by
  rintro rfl
  exact Nat.lt_irrefl 0 h

theorem val_min (a b : Word w) : (min a b).val = min a.val b.val := by
  show (if a ≤ b then a else b).val = min a.val b.val
  split <;> rename_i h <;> rw [le_iff] at h <;> omega

theorem val_max (a b : Word w) : (max a b).val = max a.val b.val := by
  show (if a ≤ b then b else a).val = max a.val b.val
  split <;> rename_i h <;> rw [le_iff] at h <;> omega

def top : Word w := ⟨Nat.pow 2 w - 1, Nat.sub_lt (Nat.two_pow_pos w) Nat.one_pos⟩

class Within (w v : Nat) : Prop where
  le : w ≤ v

instance : Within 8 64 := ⟨by decide⟩
instance : Within 16 64 := ⟨by decide⟩
instance : Within 16 128 := ⟨by decide⟩
instance : Within 32 128 := ⟨by decide⟩
instance : Within 64 128 := ⟨by decide⟩
instance : Within 128 256 := ⟨by decide⟩

def widen (a : Word w) (v : Nat) [h : Within w v] : Word v :=
  ⟨a.val, Nat.lt_of_lt_of_le a.isLt (Nat.pow_le_pow_right (by decide) h.le)⟩

@[simp] theorem val_widen (a : Word w) (v : Nat) [Within w v] : (a.widen v).val = a.val := rfl

def ofNat? (w n : Nat) : Option (Word w) :=
  if h : n < Nat.pow 2 w then some ⟨n, h⟩ else none

def fit (w : Nat) (fault : Fault) (n : Nat) : Except Fault (Word w) :=
  if h : n < Nat.pow 2 w then .ok ⟨n, h⟩ else .error fault

theorem fit_eq_ok {fault : Fault} {n : Nat} {a : Word w} :
    fit w fault n = .ok a ↔ n = a.val := by
  unfold fit
  split
  · exact ⟨fun h => by cases h; rfl, fun h => by cases a; cases h; rfl⟩
  · rename_i h
    exact ⟨fun e => by simp at e, fun e => absurd (e ▸ a.isLt) h⟩

theorem fit_eq_error {fault f : Fault} {n : Nat} :
    fit w fault n = .error f ↔ Nat.pow 2 w ≤ n ∧ f = fault := by
  unfold fit
  split
  · rename_i h
    constructor
    · intro e; cases e
    · intro e; exact absurd h (Nat.not_lt.2 e.1)
  · rename_i h
    constructor
    · intro e; cases e; exact ⟨Nat.not_lt.1 h, rfl⟩
    · intro e; rw [e.2]

theorem fit_ne_error {fault f : Fault} (h : f ≠ fault) (n : Nat) : fit w fault n ≠ .error f :=
  fun he => h (fit_eq_error.1 he).2

/-! Arithmetic modulo the width. -/

def wrap (w n : Nat) : Word w := ⟨n % Nat.pow 2 w, Nat.mod_lt _ (Nat.two_pow_pos w)⟩

def plus (a b : Word w) : Word w := wrap w (a.val + b.val)
def minus (a b : Word w) : Word w := wrap w (a.val + (Nat.pow 2 w - b.val))
def times (a b : Word w) : Word w := wrap w (a.val * b.val)
def shiftLeft (a : Word w) (n : Nat) : Word w := wrap w (a.val * Nat.pow 2 n)

def divNat (a : Word w) (d : Nat) : Word w :=
  ⟨a.val / d, Nat.lt_of_le_of_lt (Nat.div_le_self _ _) a.isLt⟩

@[simp] theorem val_divNat (a : Word w) (d : Nat) : (a.divNat d).val = a.val / d := rfl

theorem val_wrap {n : Nat} (h : n < Nat.pow 2 w) : (wrap w n).val = n := Nat.mod_eq_of_lt h

theorem val_minus {a b : Word w} (h : b.val ≤ a.val) : (a.minus b).val = a.val - b.val := by
  have ha := a.isLt
  have hb := b.isLt
  have hadd : a.val + (Nat.pow 2 w - b.val) = a.val - b.val + Nat.pow 2 w := by omega
  show (a.val + (Nat.pow 2 w - b.val)) % Nat.pow 2 w = a.val - b.val
  rw [hadd, Nat.add_mod_right, Nat.mod_eq_of_lt (by omega)]

theorem val_minus_wraps {a b : Word w} (h : a.val < b.val) :
    (a.minus b).val = a.val + (Nat.pow 2 w - b.val) := by
  have hb := b.isLt
  exact val_wrap (by omega)

theorem le_top (a : Word w) : a.val ≤ (top : Word w).val := Nat.le_sub_one_of_lt a.isLt

theorem top_lt {n : Nat} : (top : Word w).val < n ↔ Nat.pow 2 w ≤ n := by
  have hpos := Nat.two_pow_pos w
  show Nat.pow 2 w - 1 < n ↔ Nat.pow 2 w ≤ n
  have hpow : Nat.pow 2 w = 2 ^ w := rfl
  omega

/-! Checked operations. Each looks for the overflow in words of its own width. -/

def narrow? (a : Word w) (v : Nat) : Option (Word v) :=
  if (top : Word v).val < a.val then none else some (wrap v a.val)

def narrow (a : Word w) (v : Nat) : Except Fault (Word v) :=
  match a.narrow? v with
  | some b => .ok b
  | none => .error .tooNarrow

/-- Refused if `b` exceeds what is free above `a`. -/
def add (a b : Word w) : Except Fault (Word w) :=
  if top.minus a < b then .error (.arithmetic .add) else .ok (a.plus b)

def sub (a b : Word w) : Except Fault (Word w) :=
  if a < b then .error (.arithmetic .sub) else .ok (a.minus b)

/-- Refused if `b` exceeds the number of times that `a` is in the largest word. -/
def mul (a b : Word w) : Except Fault (Word w) :=
  if a ≠ 0 ∧ top.divNat a.val < b then .error (.arithmetic .mul) else .ok (a.times b)

def div (a b : Word w) : Except Fault (Word w) :=
  if b = 0 then .error (.arithmetic .div) else .ok (a.divNat b.val)

def shl (a : Word w) (n : Nat) : Except Fault (Word w) :=
  if w ≤ n then .error (.arithmetic .shl)
  else if 0 < n ∧ a.divNat (Nat.pow 2 (w - n)) ≠ 0 then .error (.arithmetic .shl)
  else .ok (a.shiftLeft n)

def shr (a : Word w) (n : Nat) : Except Fault (Word w) :=
  if w ≤ n then .error (.arithmetic .shr) else .ok (a.divNat (Nat.pow 2 n))

theorem eq_zero_iff {a : Word w} : a = 0 ↔ a.val = 0 := Word.ext_iff

theorem fit_of_lt {fault : Fault} {n : Nat} (h : n < Nat.pow 2 w) : fit w fault n = .ok (wrap w n) :=
  fit_eq_ok.2 (val_wrap h).symm

theorem narrow?_eq (a : Word w) (v : Nat) : a.narrow? v = ofNat? v a.val := by
  unfold narrow? ofNat?
  by_cases h : a.val < Nat.pow 2 v
  · rw [if_neg (mt top_lt.1 (Nat.not_le.2 h)), dif_pos h]
    exact congrArg some (Word.ext (val_wrap h))
  · rw [if_pos (top_lt.2 (Nat.not_lt.1 h)), dif_neg h]

theorem narrow_eq_fit (a : Word w) (v : Nat) : a.narrow v = fit v .tooNarrow a.val := by
  unfold narrow fit
  rw [narrow?_eq, ofNat?]
  by_cases h : a.val < Nat.pow 2 v
  · rw [dif_pos h, dif_pos h]
  · rw [dif_neg h, dif_neg h]

theorem add_eq_fit (a b : Word w) : a.add b = fit w (.arithmetic .add) (a.val + b.val) := by
  have ha := a.isLt
  have hfree : top.minus a < b ↔ Nat.pow 2 w ≤ a.val + b.val := by
    rw [lt_iff, val_minus a.le_top]
    show Nat.pow 2 w - 1 - a.val < b.val ↔ _
    omega
  unfold add
  by_cases h : a.val + b.val < Nat.pow 2 w
  · rw [if_neg (mt hfree.1 (Nat.not_le.2 h)), fit_of_lt h]
    rfl
  · rw [if_pos (hfree.2 (Nat.not_lt.1 h)), fit_eq_error.2 ⟨Nat.not_lt.1 h, rfl⟩]

theorem mul_eq_fit (a b : Word w) : a.mul b = fit w (.arithmetic .mul) (a.val * b.val) := by
  have hfree : (a ≠ 0 ∧ top.divNat a.val < b) ↔ Nat.pow 2 w ≤ a.val * b.val := by
    rcases Nat.eq_zero_or_pos a.val with h0 | hpos
    · have hpow := Nat.two_pow_pos w
      rw [h0, Nat.zero_mul]
      exact ⟨fun h => absurd (eq_zero_iff.2 h0) h.1, fun h => absurd h (Nat.not_le.2 hpow)⟩
    · rw [lt_iff, val_divNat, Nat.div_lt_iff_lt_mul hpos, top_lt, Nat.mul_comm b.val]
      exact and_iff_right (ne_zero_of_pos hpos)
  unfold mul
  by_cases h : a.val * b.val < Nat.pow 2 w
  · rw [if_neg (mt hfree.1 (Nat.not_le.2 h)), fit_of_lt h]
    rfl
  · rw [if_pos (hfree.2 (Nat.not_lt.1 h)), fit_eq_error.2 ⟨Nat.not_lt.1 h, rfl⟩]

theorem shl_eq_fit (a : Word w) {n : Nat} (hn : n < w) :
    a.shl n = fit w (.arithmetic .shl) (a.val * Nat.pow 2 n) := by
  have hsplit : Nat.pow 2 w = Nat.pow 2 (w - n) * Nat.pow 2 n := by
    show 2 ^ w = 2 ^ (w - n) * 2 ^ n
    rw [← Nat.pow_add, Nat.sub_add_cancel (Nat.le_of_lt hn)]
  have hlost : (0 < n ∧ a.divNat (Nat.pow 2 (w - n)) ≠ 0) ↔ Nat.pow 2 w ≤ a.val * Nat.pow 2 n := by
    have hle : Nat.pow 2 w ≤ a.val * Nat.pow 2 n ↔ Nat.pow 2 (w - n) ≤ a.val := by
      rw [hsplit]
      exact Nat.mul_le_mul_right_iff (Nat.two_pow_pos n)
    have hne : a.divNat (Nat.pow 2 (w - n)) ≠ 0 ↔ Nat.pow 2 (w - n) ≤ a.val := by
      rw [Ne, eq_zero_iff, val_divNat, ← Ne, ← Nat.one_le_iff_ne_zero]
      show 1 ≤ a.val / 2 ^ (w - n) ↔ 2 ^ (w - n) ≤ a.val
      rw [Nat.le_div_iff_mul_le (Nat.two_pow_pos _), Nat.one_mul]
    rw [hle, hne]
    refine and_iff_right_of_imp fun h => Nat.pos_of_ne_zero ?_
    rintro rfl
    exact absurd a.isLt (Nat.not_lt.2 h)
  unfold shl
  rw [if_neg (Nat.not_le.2 hn)]
  by_cases h : a.val * Nat.pow 2 n < Nat.pow 2 w
  · rw [if_neg (mt hlost.1 (Nat.not_le.2 h)), fit_of_lt h]
    rfl
  · rw [if_pos (hlost.2 (Nat.not_lt.1 h)), fit_eq_error.2 ⟨Nat.not_lt.1 h, rfl⟩]

theorem narrow_eq_ok {v : Nat} {a : Word w} {b : Word v} :
    a.narrow v = .ok b ↔ a.val = b.val := by
  rw [narrow_eq_fit, fit_eq_ok]

theorem narrow_eq_error {v : Nat} {a : Word w} {f : Fault} :
    a.narrow v = .error f ↔ Nat.pow 2 v ≤ a.val ∧ f = .tooNarrow := by
  rw [narrow_eq_fit, fit_eq_error]

theorem add_eq_ok {a b c : Word w} : a.add b = .ok c ↔ a.val + b.val = c.val := by
  rw [add_eq_fit, fit_eq_ok]

theorem exists_add {a b : Word w} : (∃ c, a.add b = .ok c) ↔ a.val + b.val < Nat.pow 2 w := by
  constructor
  · rintro ⟨c, hc⟩
    rw [add_eq_ok.1 hc]
    exact c.isLt
  · intro h
    exact ⟨⟨_, h⟩, add_eq_ok.2 rfl⟩

theorem sub_eq_ok {a b c : Word w} : a.sub b = .ok c ↔ a.val = b.val + c.val := by
  unfold sub
  split
  · rename_i h
    rw [lt_iff] at h
    simp only [reduceCtorEq, false_iff]; omega
  · rename_i h
    rw [lt_iff, Nat.not_lt] at h
    rw [Except.ok.injEq, Word.ext_iff, val_minus h]
    omega

theorem exists_sub {a b : Word w} (h : b.val ≤ a.val) : ∃ c, a.sub b = .ok c ∧ c.val ≤ a.val :=
  ⟨a.minus b, if_neg (Nat.not_lt.2 h), val_minus h ▸ Nat.sub_le _ _⟩

theorem sub_eq_error {a b : Word w} {f : Fault} :
    a.sub b = .error f ↔ a.val < b.val ∧ f = .arithmetic .sub := by
  unfold sub
  split
  · rename_i h
    rw [Except.error.injEq, eq_comm]
    exact (and_iff_right h).symm
  · rename_i h
    rw [lt_iff] at h
    simp only [reduceCtorEq, false_iff]; omega

theorem sub_ne_error {a b : Word w} (h : b.val ≤ a.val) (f : Fault) : a.sub b ≠ .error f := by
  obtain ⟨c, hc, -⟩ := exists_sub h
  rw [hc]
  exact nofun

/-! Each operation fails in its own way only. -/

theorem narrow_ne_error {f : Fault} (h : f ≠ .tooNarrow) (a : Word w) (v : Nat) : a.narrow v ≠ .error f :=
  narrow_eq_fit a v ▸ fit_ne_error h _

theorem add_ne_error {f : Fault} (h : f ≠ .arithmetic .add) (a b : Word w) : a.add b ≠ .error f :=
  add_eq_fit a b ▸ fit_ne_error h _

theorem mul_ne_error {f : Fault} (h : f ≠ .arithmetic .mul) (a b : Word w) : a.mul b ≠ .error f :=
  mul_eq_fit a b ▸ fit_ne_error h _

theorem mul_eq_ok {a b c : Word w} : a.mul b = .ok c ↔ a.val * b.val = c.val := by
  rw [mul_eq_fit, fit_eq_ok]

theorem div_eq_ok {a b c : Word w} : a.div b = .ok c ↔ b.val ≠ 0 ∧ a.val / b.val = c.val := by
  unfold div
  split
  · simp_all
  · rename_i h
    rw [Except.ok.injEq, Word.ext_iff, val_divNat]
    exact (and_iff_right (mt eq_zero_iff.2 h)).symm

theorem shl_eq_ok {a c : Word w} {n : Nat} :
    a.shl n = .ok c ↔ n < w ∧ a.val * Nat.pow 2 n = c.val := by
  by_cases h : n < w
  · rw [shl_eq_fit a h, fit_eq_ok]
    exact (and_iff_right h).symm
  · rw [shl, if_pos (Nat.not_lt.1 h)]
    simp [h]

end Word

end RangePool
