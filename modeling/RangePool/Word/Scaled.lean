import RangePool.Word
import RangePool.Rounding
/-!
Products and quotients of words whose intermediate value is twice as wide, and modulo that width. It has room for
the unrounded value, which is rounded once and given only if it fits.
-/
set_option autoImplicit false

namespace RangePool.Word

variable {w : Nat}

def rounded (r : Rounding) (q : Word w) (rest : Nat) : Word w :=
  if r = .up ∧ rest ≠ 0 then wrap w (q.val + 1) else q

def divRounded (r : Rounding) (n d : Word w) : Word w := rounded r (n.divNat d.val) (n.val % d.val)

def mask (w n : Nat) : Word w := ((wrap w 1).shiftLeft n).minus (wrap w 1)

def shrRounded (r : Rounding) (a : Word w) (n : Nat) : Word w :=
  rounded r (a.divNat (Nat.pow 2 n)) (a.val &&& (mask w n).val)

instance : Within w (2 * w) := ⟨Nat.le_mul_of_pos_left w (by decide)⟩

def wideProduct (x y : Word w) : Word (2 * w) := (x.widen (2 * w)).times (y.widen (2 * w))

def mulDiv? (r : Rounding) (x y d : Word w) : Option (Word w) :=
  if d = 0 then none else (divRounded r (wideProduct x y) (d.widen (2 * w))).narrow? w

def mulShr? (r : Rounding) (x y : Word w) (n : Nat) : Option (Word w) :=
  if 2 * w ≤ n then none else (shrRounded r (wideProduct x y) n).narrow? w

def shlDiv? (v : Nat) (r : Rounding) (x y : Word w) (n : Nat) : Option (Word v) :=
  if y = 0 ∨ w < n then none
  else (divRounded r ((x.widen (2 * w)).shiftLeft n) (y.widen (2 * w))).narrow? v

/-- A missing result is the fault of `step`, one too wide for `v` bits is a value that does not fit. -/
def kept (v : Nat) (step : Step) : Option (Word w) → Except Fault (Word v)
  | none => .error (.arithmetic step)
  | some q => q.narrow v

def mulDiv (v : Nat) (r : Rounding) (x y d : Word w) : Except Fault (Word v) :=
  kept v .mulDiv (mulDiv? r x y d)

def mulShr (v : Nat) (r : Rounding) (x y : Word w) (n : Nat) : Except Fault (Word v) :=
  kept v .mulShr (mulShr? r x y n)

def shlDiv (v : Nat) (r : Rounding) (x y : Word w) (n : Nat) : Except Fault (Word v) :=
  kept v .shlDiv (shlDiv? w r x y n)

def wideShlDiv (x y : Word 128) (n : Nat) : Except Fault (Word 256) :=
  kept 256 .wideShlDiv (shlDiv? 256 .down x y n)

def wideMulShr (x y : Word 256) (n : Nat) : Except Fault (Word 256) :=
  kept 256 .wideMulShr (mulShr? .down x y n)

theorem ofNat?_eq_some {n : Nat} {a : Word w} : ofNat? w n = some a ↔ n = a.val := by
  unfold ofNat?
  split
  · rw [Option.some.injEq, Word.ext_iff]
  · rename_i h
    constructor
    · intro e; cases e
    · intro e; exact absurd (e ▸ a.isLt) h

theorem narrow?_eq_some {v : Nat} {a : Word w} {b : Word v} : a.narrow? v = some b ↔ a.val = b.val := by
  rw [narrow?_eq, ofNat?_eq_some]

/-! No intermediate value wraps. -/

theorem val_wideProduct (x y : Word w) : (wideProduct x y).val = x.val * y.val := by
  refine val_wrap ?_
  show x.val * y.val < 2 ^ (2 * w)
  rw [Nat.two_mul, Nat.pow_add]
  exact Nat.mul_lt_mul'' x.isLt y.isLt

theorem val_widen_shiftLeft (x : Word w) {n : Nat} (h : n ≤ w) :
    ((x.widen (2 * w)).shiftLeft n).val = x.val * Nat.pow 2 n := by
  refine val_wrap ?_
  show x.val * 2 ^ n < 2 ^ (2 * w)
  rw [Nat.two_mul, Nat.pow_add]
  exact Nat.mul_lt_mul_of_lt_of_le x.isLt (Nat.pow_le_pow_right (by decide) h) (Nat.two_pow_pos w)

/-- The step up does not wrap: a quotient that is rounded up does not exceed its dividend. -/
theorem val_rounded (r : Rounding) (a : Word w) (d : Nat) (hd : 0 < d) :
    (rounded r (a.divNat d) (a.val % d)).val = r.quotient a.val d := by
  unfold rounded
  cases r with
  | down => rfl
  | up =>
    have hle := Rounding.quotient_le .up a.val d
    rw [Rounding.quotient_up_eq a.val hd] at hle ⊢
    by_cases h : a.val % d = 0
    · rw [if_pos h, if_neg fun hn => hn.2 h, val_divNat]
    · rw [if_neg h] at hle ⊢
      rw [if_pos ⟨rfl, h⟩]
      exact val_wrap (Nat.lt_of_le_of_lt hle a.isLt)

theorem val_divRounded (r : Rounding) (n d : Word w) (hd : d.val ≠ 0) :
    (divRounded r n d).val = r.quotient n.val d.val :=
  val_rounded r n d.val (Nat.pos_of_ne_zero hd)

theorem val_mask {n : Nat} (h : n < w) : (mask w n).val = Nat.pow 2 n - 1 := by
  have hone : (wrap w 1).val = 1 := val_wrap (Nat.one_lt_two_pow (Nat.ne_of_gt (Nat.zero_lt_of_lt h)))
  have hbit : ((wrap w 1).shiftLeft n).val = Nat.pow 2 n := by
    unfold shiftLeft
    rw [hone, Nat.one_mul]
    exact val_wrap (Nat.pow_lt_pow_right (by decide) h)
  rw [mask, val_minus, hbit, hone]
  rw [hbit, hone]
  exact Nat.two_pow_pos n

theorem val_shrRounded (r : Rounding) (a : Word w) {n : Nat} (h : n < w) :
    (shrRounded r a n).val = r.quotient a.val (Nat.pow 2 n) := by
  have hlost : a.val &&& (mask w n).val = a.val % Nat.pow 2 n := by
    rw [val_mask h]
    exact Nat.and_two_pow_sub_one_eq_mod a.val n
  rw [shrRounded, hlost]
  exact val_rounded r a _ (Nat.two_pow_pos n)

theorem mulDiv?_eq_some {r : Rounding} {x y d q : Word w} :
    mulDiv? r x y d = some q ↔ d.val ≠ 0 ∧ r.quotient (x.val * y.val) d.val = q.val := by
  unfold mulDiv?
  by_cases h : d = 0
  · simp [h]
  · have hd : d.val ≠ 0 := mt eq_zero_iff.2 h
    rw [if_neg h, narrow?_eq_some, val_divRounded r _ (d.widen (2 * w)) hd, val_wideProduct, val_widen]
    exact (and_iff_right hd).symm

theorem mulShr?_eq_some {r : Rounding} {x y q : Word w} {n : Nat} :
    mulShr? r x y n = some q ↔ n < 2 * w ∧ r.quotient (x.val * y.val) (Nat.pow 2 n) = q.val := by
  unfold mulShr?
  by_cases h : n < 2 * w
  · rw [if_neg (Nat.not_le.2 h), narrow?_eq_some, val_shrRounded r _ h, val_wideProduct]
    exact (and_iff_right h).symm
  · rw [if_pos (Nat.not_lt.1 h)]
    simp [h]

theorem shlDiv?_eq_some {v : Nat} {r : Rounding} {x y : Word w} {n : Nat} {q : Word v} :
    shlDiv? v r x y n = some q ↔
      y.val ≠ 0 ∧ n ≤ w ∧ r.quotient (x.val * Nat.pow 2 n) y.val = q.val := by
  unfold shlDiv?
  split
  · rename_i h
    rw [eq_zero_iff] at h
    simp only [reduceCtorEq, false_iff]
    omega
  · rename_i h
    rw [eq_zero_iff, not_or, Nat.not_lt] at h
    rw [narrow?_eq_some, val_divRounded r _ (y.widen (2 * w)) h.1, val_widen_shiftLeft x h.2, val_widen,
      and_iff_right h.1, and_iff_right h.2]

theorem kept_eq_ok {v : Nat} {step : Step} {o : Option (Word w)} {q : Word v} :
    kept v step o = .ok q ↔ ∃ a, o = some a ∧ a.val = q.val := by
  cases o with
  | none => simp [kept]
  | some a => simp [kept, narrow_eq_ok]

theorem kept_ne_error {v : Nat} {step : Step} {f : Fault} (hstep : f ≠ .arithmetic step)
    (h : f ≠ .tooNarrow)
    (o : Option (Word w)) : kept v step o ≠ .error f := by
  cases o with
  | none => exact fun he => hstep (Except.error.inj he).symm
  | some a => exact narrow_ne_error h a v

end RangePool.Word
