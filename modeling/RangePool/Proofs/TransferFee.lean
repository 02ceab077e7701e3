import RangePool.TransferFee
/-!
The two ends of a transfer. They differ by the fee, and within the whole as its rate a token can always deliver. What
is asked for is the least that delivers: with one formula for the fee and another for its inverse, the least number
from which an amount arrives stands between the two.
-/
set_option autoImplicit false

namespace RangePool

namespace TransferFee

def Bounded (t : TransferFee) : Prop := t.basisPoints.val ≤ 10000

def Spares (t : TransferFee) (x : Amount) : Prop := t.basisPoints = 0 ∨ t.maximum = 0 ∨ x = 0

instance (t : TransferFee) : Decidable t.Bounded := inferInstanceAs (Decidable (_ ≤ _))
instance (t : TransferFee) (x : Amount) : Decidable (t.Spares x) :=
  inferInstanceAs (Decidable (_ ∨ _ ∨ _))

theorem on?_le {t : TransferFee} {x fee : Amount} (ht : t.Bounded) (h : t.on? x = some fee) :
    fee.val ≤ x.val := by
  unfold on? at h
  split at h
  · cases h
    exact Nat.zero_le _
  · simp only [Option.map_eq_some_iff, Word.ofNat?_eq_some] at h
    obtain ⟨part, hp, rfl⟩ := h
    have hle : part.val ≤ x.val := hp ▸ Rounding.up.part_le (by decide) ht
    rw [Word.val_min]
    omega

theorem exists_on? {t : TransferFee} (ht : t.Bounded) (x : Amount) : ∃ fee, t.on? x = some fee := by
  unfold on?
  split
  · exact ⟨0, rfl⟩
  · have hle : Rounding.up.quotient (x.val * t.basisPoints.val) 10000 ≤ x.val :=
      Rounding.up.part_le (by decide) ht
    have hlt := Nat.lt_of_le_of_lt hle x.isLt
    simp only [Word.ofNat?, dif_pos hlt, Option.map_some]
    exact ⟨_, rfl⟩

def feeOn (t : TransferFee) (x : Nat) : Nat :=
  min (Rounding.up.quotient (x * t.basisPoints.val) 10000) t.maximum.val

theorem feeOn_eq_zero {t : TransferFee} {x : Nat} (h : t.basisPoints.val = 0 ∨ x = 0) :
    t.feeOn x = 0 := by
  rcases h with h | h <;> simp [feeOn, h, Rounding.quotient]

theorem feeOn_mono (t : TransferFee) {x x' : Nat} (h : x ≤ x') : t.feeOn x ≤ t.feeOn x' := by
  have hpart := Rounding.up.quotient_le_quotient 10000 (Nat.mul_le_mul_right t.basisPoints.val h)
  unfold feeOn
  omega

theorem on?_eq_some {t : TransferFee} (ht : t.Bounded) {x fee : Amount} :
    t.on? x = some fee ↔ t.feeOn x.val = fee.val := by
  obtain ⟨fee', h⟩ := exists_on? ht x
  have hval : t.feeOn x.val = fee'.val := by
    unfold on? at h
    split at h
    · rename_i h0
      cases h
      exact feeOn_eq_zero (h0.imp (congrArg Word.val) (congrArg Word.val))
    · simp only [Option.map_eq_some_iff, Word.ofNat?_eq_some] at h
      obtain ⟨part, hp, rfl⟩ := h
      rw [feeOn, hp, Word.val_min]
  rw [h, hval, Option.some.injEq, Word.val_inj]

/-- The least number from which `y` arrives. At the full rate nothing does before the maximum is paid. -/
def least (t : TransferFee) (y : Nat) : Nat :=
  if t.basisPoints.val < 10000 then
    min (y + t.maximum.val) (Rounding.up.quotient (y * 10000) (10000 - t.basisPoints.val))
  else if y = 0 then 0
  else y + t.maximum.val

theorem add_feeOn_le_iff {t : TransferFee} (ht : t.Bounded) {x y : Nat} :
    y + t.feeOn x ≤ x ↔ t.least y ≤ x := by
  have hpart := Rounding.add_part_le_iff (x := x) (y := y) (by decide : 0 < 10000) ht
  unfold feeOn least
  split
  · rename_i hrate
    rw [← Rounding.quotient_up_le (by omega)] at hpart
    omega
  · rename_i hrate
    have hfull : t.basisPoints.val = 10000 := Nat.le_antisymm ht (by omega)
    rw [hfull, Nat.sub_self, Nat.mul_zero] at hpart
    rw [hfull]
    split <;> omega

theorem least_eq {t : TransferFee} (ht : t.Bounded) (y : Nat) :
    t.least y = y + t.feeOn (t.least y) :=
  least_eq_add (fun x => t.feeOn_mono (Nat.le_succ x)) fun _ => add_feeOn_le_iff ht

theorem least_zero {t : TransferFee} (ht : t.Bounded) : t.least 0 = 0 := by
  have hfee : t.feeOn 0 = 0 := feeOn_eq_zero (.inr rfl)
  exact Nat.le_zero.1 ((add_feeOn_le_iff ht).1 (by omega))

theorem least_full {t : TransferFee} (hfull : t.basisPoints.val = 10000) {y : Amount} (hy : y ≠ 0) :
    t.least y.val = y.val + t.maximum.val := by
  have hy : ¬y.val = 0 := fun h0 => hy (Word.ext h0)
  rw [least, if_neg (by omega), if_neg hy]

/-! What 128 bits keep of the quotient: below the whole nothing is lost, beyond it the part that is kept is as good as
`Nat.pow 2 128`, so that the quotient is one or nothing. -/

theorem scaled_lt (y : Amount) : y.val * 10000 + 10000 < Nat.pow 2 128 := by
  have hy : y.val < 18446744073709551616 := y.isLt
  have hpow : Nat.pow 2 128 = 340282366920938463463374607431768211456 := rfl
  omega

theorem val_scaled (y : Amount) :
    ((y.widen 128).times (whole.widen 128)).val = y.val * 10000 :=
  Word.val_wrap (Nat.lt_of_le_of_lt (Nat.le_add_right _ _) (scaled_lt y))

theorem val_quotedGross {t : TransferFee} (hrate : t.basisPoints.val < 10000) (y : Amount) :
    (t.quotedGross y).val = Rounding.up.quotient (y.val * 10000) (10000 - t.basisPoints.val) := by
  have hkept : t.kept.val = 10000 - t.basisPoints.val := Word.val_minus (Nat.le_of_lt hrate)
  have hroom := scaled_lt y
  have hsum : (((y.widen 128).times (whole.widen 128)).plus t.kept).val =
      y.val * 10000 + (10000 - t.basisPoints.val) := by
    rw [← hkept, ← val_scaled]
    refine Word.val_wrap ?_
    rw [hkept, val_scaled]
    omega
  have hone : (Word.wrap 128 1).val = 1 := rfl
  rw [quotedGross, Word.val_divNat, Word.val_minus (by omega), hsum, hkept, hone,
    Nat.add_sub_assoc (by omega)]
  rfl

theorem val_quotedGross_beyond {t : TransferFee} (hrate : 10000 < t.basisPoints.val) {y : Amount}
    (hy : y ≠ 0) :
    (t.quotedGross y).val = if (y.val + 1) * 10000 ≤ t.basisPoints.val then 1 else 0 := by
  have hbasis : t.basisPoints.val < 65536 := t.basisPoints.isLt
  have hlt : y.val < 18446744073709551616 := y.isLt
  have hpos : y.val ≠ 0 := mt Word.eq_zero_iff.2 hy
  have hkept : t.kept.val = 10000 + (Nat.pow 2 128 - t.basisPoints.val) :=
    Word.val_minus_wraps hrate
  have hdividend : ((((y.widen 128).times (whole.widen 128)).plus t.kept).minus (.wrap 128 1)).val =
      (((y.widen 128).times (whole.widen 128)).val + t.kept.val + (Nat.pow 2 128 - 1)) % Nat.pow 2 128 :=
    Nat.mod_add_mod _ _ _
  have hpow : Nat.pow 2 128 = 340282366920938463463374607431768211456 := rfl
  -- unless it wraps to next to nothing, the dividend is at least one divisor and less than two
  rw [quotedGross, Word.val_divNat, hdividend, val_scaled, hkept, hpow]
  split
  · rw [Nat.div_eq_of_lt_le] <;> omega
  · rw [Nat.div_eq_of_lt]
    omega

/-- Below the full rate the number that is asked for is the least that delivers. -/
theorem gross?_eq {t : TransferFee} (hrate : t.basisPoints.val < 10000) (y : Amount) :
    t.gross? y = Word.ofNat? 64 (t.least y.val) := by
  have ht : t.Bounded := Nat.le_of_lt hrate
  unfold gross?
  split
  · rename_i h0
    rw [h0, Word.val_zero, least_zero ht]
    exact (Word.ofNat?_eq_some.2 rfl).symm
  split
  · rename_i h0
    have hleast := least_eq ht y.val
    rw [feeOn_eq_zero (.inl (congrArg Word.val h0))] at hleast
    exact (Word.ofNat?_eq_some.2 hleast).symm
  have hpart : t.basisPoints ≠ whole := fun h => absurd (congrArg Word.val h) (Nat.ne_of_lt hrate)
  have hquoted := val_quotedGross hrate y
  have hle : y.val ≤ Rounding.up.quotient (y.val * 10000) (10000 - t.basisPoints.val) :=
    le_gross hrate
  rw [if_neg hpart, least, if_pos hrate, Word.narrow?_eq, Word.val_minus (hquoted ▸ hle), hquoted,
    Word.val_widen]
  split
  · rw [Nat.min_eq_left (by omega)]
  · rw [Nat.min_eq_right (by omega)]

/-- Beyond the whole the maximum is asked for on top, except that from twice the whole on a single unit is thought to
arrive by itself. -/
theorem gross?_beyond {t : TransferFee} (hrate : 10000 < t.basisPoints.val) {y : Amount} (hy : y ≠ 0) :
    t.gross? y = if y.val = 1 ∧ 20000 ≤ t.basisPoints.val then some y
      else Word.ofNat? 64 (y.val + t.maximum.val) := by
  have hbasis : t.basisPoints.val < 65536 := t.basisPoints.isLt
  have hpos : y.val ≠ 0 := mt Word.eq_zero_iff.2 hy
  have hy64 : y.val < 18446744073709551616 := y.isLt
  have hmax : t.maximum.val < 18446744073709551616 := t.maximum.isLt
  have hpow : Nat.pow 2 128 = 340282366920938463463374607431768211456 := rfl
  have hnone : t.basisPoints ≠ 0 := Word.ne_zero_of_pos (by omega)
  have hfull : t.basisPoints ≠ whole := fun h => absurd (congrArg Word.val h) (Nat.ne_of_gt hrate)
  have hquoted := val_quotedGross_beyond hrate hy
  rw [gross?, if_neg hy, if_neg hnone, if_neg hfull]
  by_cases hone : y.val = 1 ∧ 20000 ≤ t.basisPoints.val
  · have hsame : t.quotedGross y = y.widen 128 := by
      refine Word.ext ?_
      rw [hquoted, if_pos (by omega), Word.val_widen, hone.1]
    have hsome : Word.ofNat? 64 y.val = some y := Word.ofNat?_eq_some.2 rfl
    rw [if_pos hone, hsame, Word.val_minus (Nat.le_refl _), Nat.sub_self, Word.narrow?_eq,
      Word.val_widen, hsome]
    split
    · rename_i hfree
      rw [Nat.le_zero.1 hfree, Nat.add_zero, hsome]
    · rfl
  · have hless : (t.quotedGross y).val < (y.widen 128).val := by
      rw [hquoted, Word.val_widen]
      split <;> omega
    -- the quotient is below what is asked for, so that the excess wraps and is above any maximum
    have hexcess := Word.val_minus_wraps hless
    rw [Word.val_widen, hpow] at hexcess
    rw [if_neg hone, if_pos (by omega)]

theorem on?_eq_zero_iff {t : TransferFee} {x fee : Amount} (h : t.on? x = some fee) :
    fee = 0 ↔ t.Spares x := by
  unfold on? at h
  unfold Spares
  split at h
  · rename_i h0
    cases h
    rw [eq_self_iff_true, true_iff]
    exact h0.imp_right .inr
  · rename_i h0
    simp only [Option.map_eq_some_iff, Word.ofNat?_eq_some] at h
    obtain ⟨part, hp, rfl⟩ := h
    have hb : 0 < t.basisPoints.val := Nat.pos_of_ne_zero fun hz => h0 (.inl (Word.ext hz))
    have hx : 0 < x.val := Nat.pos_of_ne_zero fun hz => h0 (.inr (Word.ext hz))
    have hpart : 0 < part.val := by
      have hup := Rounding.quotient_mul_up (x.val * t.basisPoints.val) (d := 10000) (by decide)
      have hpos := Nat.mul_pos hx hb
      rw [hp] at hup
      omega
    rw [Word.ext_iff, Word.ext_iff, Word.ext_iff, Word.ext_iff, Word.val_min]
    simp only [Word.val_zero]
    omega

end TransferFee

namespace Transfer

theorem arriving_ok {t : Option TransferFee} {x : Amount} {u : Transfer}
    (h : arriving t x = .ok u) : u.amount.val + u.fee.val = x.val := by
  cases t with
  | none =>
    cases h
    rfl
  | some t =>
    simp only [arriving] at h
    split at h
    · cases h
    · split at h
      · cases h
        simp only
        omega
      · cases h

theorem sending_ok {t : Option TransferFee} {y : Amount} {u : Transfer}
    (h : sending t y = .ok u) : u.amount.val = y.val + u.fee.val := by
  cases t with
  | none =>
    cases h
    rfl
  | some t =>
    simp only [sending] at h
    split at h
    · cases h
      rfl
    · split at h
      · cases h
      · simp only [bind_eq_ok, pure_eq_ok, Word.fit_eq_ok] at h
        obtain ⟨a, ha, rfl⟩ := h
        exact ha.symm

theorem exists_arriving {t : Option TransferFee} (ht : ∀ f ∈ t, f.Bounded) (x : Amount) :
    ∃ u, arriving t x = .ok u := by
  cases t with
  | none => exact ⟨_, rfl⟩
  | some t =>
    have hb : t.Bounded := ht t rfl
    obtain ⟨fee, hf⟩ := t.exists_on? hb x
    simp only [arriving, hf, if_pos (TransferFee.on?_le hb hf)]
    exact ⟨_, rfl⟩

theorem arriving_fee_eq_zero_iff {t : Option TransferFee} {x : Amount} {u : Transfer}
    (h : arriving t x = .ok u) : u.fee = 0 ↔ ∀ f ∈ t, f.Spares x := by
  cases t with
  | none =>
    cases h
    simp
  | some t =>
    simp only [arriving] at h
    split at h
    · cases h
    · rename_i fee hf
      split at h
      · cases h
        rw [TransferFee.on?_eq_zero_iff hf]
        simp
      · cases h

section
variable {f : TransferFee} {x y : Amount} {u v : Transfer}

theorem arriving_fee (hf : f.Bounded) (h : arriving (some f) x = .ok u) :
    u.fee.val = f.feeOn x.val := by
  simp only [arriving] at h
  split at h
  · cases h
  · rename_i fee hfee
    split at h
    · cases h
      exact ((TransferFee.on?_eq_some hf).1 hfee).symm
    · cases h

theorem le_arriving_iff (hf : f.Bounded) (h : arriving (some f) x = .ok u) {k : Nat} :
    k ≤ u.amount.val ↔ f.least k ≤ x.val := by
  have hsum := arriving_ok h
  rw [← TransferFee.add_feeOn_le_iff hf, ← arriving_fee hf h]
  omega

theorem exists_feeOnTop (hf : f.Bounded) (hy : y ≠ 0) (h : f.least y.val < Nat.pow 2 64) :
    ∃ fee : Amount, (if f.basisPoints.val = 10000 then some f.maximum else f.onGross? y) = some fee ∧
      f.least y.val = y.val + fee.val := by
  split
  · rename_i hfull
    exact ⟨f.maximum, rfl, TransferFee.least_full hfull hy⟩
  · rename_i hrate
    have hgross := f.gross?_eq (y := y) (Nat.lt_of_le_of_ne hf hrate)
    rw [Word.ofNat?, dif_pos h] at hgross
    obtain ⟨fee, hfee⟩ := f.exists_on? hf ⟨_, h⟩
    refine ⟨fee, ?_, ?_⟩
    · rw [TransferFee.onGross?, hgross]
      exact hfee
    · rw [← (TransferFee.on?_eq_some hf).1 hfee]
      exact TransferFee.least_eq hf y.val

theorem exists_sending (hf : f.Bounded) (h : f.least y.val < Nat.pow 2 64) :
    ∃ u, sending (some f) y = .ok u ∧ u.amount.val = f.least y.val := by
  by_cases hy : y = 0
  · refine ⟨⟨y, 0⟩, by simp only [sending, if_pos hy], ?_⟩
    rw [hy, Word.val_zero, TransferFee.least_zero hf]
  · obtain ⟨fee, hfee, hsum⟩ := exists_feeOnTop hf hy h
    refine ⟨⟨⟨_, h⟩, fee⟩, ?_, rfl⟩
    simp only [sending, if_neg hy, hfee, bind_eq_ok, pure_eq_ok, Word.fit_eq_ok]
    exact ⟨_, hsum.symm, rfl⟩

theorem sending_fails (hf : f.Bounded) (h : Nat.pow 2 64 ≤ f.least y.val) :
    sending (some f) y = .error (.arithmetic .transferFee) := by
  have hy : y ≠ 0 := by
    rintro rfl
    rw [Word.val_zero, TransferFee.least_zero hf] at h
    exact absurd h (by decide)
  simp only [sending, if_neg hy]
  split
  · rfl
  · rename_i fee hfee
    have hexceeds : Nat.pow 2 64 ≤ y.val + fee.val := by
      split at hfee
      · rename_i hfull
        cases hfee
        rwa [TransferFee.least_full hfull hy] at h
      · rename_i hrate
        rw [TransferFee.onGross?, f.gross?_eq (Nat.lt_of_le_of_ne hf hrate), Word.ofNat?,
          dif_neg (Nat.not_lt.2 h)] at hfee
        cases hfee
    rw [Word.fit_eq_error.2 ⟨hexceeds, rfl⟩]
    rfl

theorem sending_amount (hf : f.Bounded) (h : sending (some f) y = .ok u) :
    u.amount.val = f.least y.val := by
  rcases Nat.lt_or_ge (f.least y.val) (Nat.pow 2 64) with hlt | hexceeds
  · obtain ⟨u', h', hleast⟩ := exists_sending hf hlt
    cases h.symm.trans h'
    exact hleast
  · cases h.symm.trans (sending_fails hf hexceeds)

theorem sending_fails_iff (hf : f.Bounded) {e : Fault} : sending (some f) y = .error e ↔
    Nat.pow 2 64 ≤ f.least y.val ∧ e = .arithmetic .transferFee := by
  refine eq_error_iff (fun h => ?_) (sending_fails hf)
  obtain ⟨u, hu, -⟩ := exists_sending hf (Nat.lt_of_not_le h)
  exact ⟨u, hu⟩

end

def ArrivesAs (t : Option TransferFee) (x y : Amount) : Prop := ∃ fee, arriving t x = .ok ⟨y, fee⟩

def Delivers (t : Option TransferFee) (x y : Amount) : Prop :=
  ∃ u, arriving t x = .ok u ∧ y ≤ u.amount

theorem delivers_iff {f : TransferFee} (hf : f.Bounded) {x y : Amount} :
    Delivers (some f) x y ↔ f.least y.val ≤ x.val := by
  obtain ⟨u, hu⟩ := exists_arriving (t := some f) (by simpa using hf) x
  simp [Delivers, hu, Word.le_iff, le_arriving_iff hf hu]

/-- To take no fee is to take a fee of nothing. -/
theorem exists_fee {t : Option TransferFee} (ht : ∀ f ∈ t, f.Bounded) :
    ∃ f : TransferFee, f.Bounded ∧ arriving t = arriving (some f) ∧ sending t = sending (some f) := by
  cases t with
  | some f => exact ⟨f, ht f rfl, rfl, rfl⟩
  | none =>
    refine ⟨{}, by decide, funext fun x => ?_, funext fun y => ?_⟩
    · simp [arriving, TransferFee.on?]
    · have hrate : ¬({} : TransferFee).basisPoints.val = 10000 := by decide
      by_cases hy : y = 0
      · simp only [sending, if_pos hy]
      · have hgross : TransferFee.onGross? {} y = some 0 := by
          simp [TransferFee.onGross?, TransferFee.gross?, TransferFee.on?, hy]
        symm
        simp only [sending, if_neg hy, if_neg hrate, hgross]
        rw [bind_eq_ok]
        exact ⟨y, Word.fit_eq_ok.2 rfl, rfl⟩

theorem sending_arrives {t : Option TransferFee} (ht : ∀ f ∈ t, f.Bounded) {y : Amount} {u : Transfer}
    (h : sending t y = .ok u) : arriving t u.amount = .ok ⟨y, u.fee⟩ := by
  obtain ⟨v, hv⟩ := exists_arriving ht u.amount
  obtain ⟨f, hf, harriving, hsending⟩ := exists_fee ht
  rw [harriving] at hv ⊢
  rw [hsending] at h
  have hsent := sending_ok h
  have hsum := arriving_ok hv
  have hfee := arriving_fee hf hv
  have hroom := TransferFee.least_eq hf y.val
  rw [sending_amount hf h] at hfee hsum hsent
  have hamount : v.amount = y := Word.ext (by omega)
  have hsame : v.fee = u.fee := Word.ext (by omega)
  rw [hv, ← hamount, ← hsame]

/-- What is asked for is the least that delivers `y`, and it delivers no more. To ask fails just when no amount
delivers `y`. -/
theorem sending_is_least {t : Option TransferFee} (ht : ∀ f ∈ t, f.Bounded) :
    (∀ x, ∃ u, arriving t x = .ok u) ∧
    (∀ x x' u u', x ≤ x' → arriving t x = .ok u → arriving t x' = .ok u' → u.amount ≤ u'.amount) ∧
    ∀ y, (∀ u, sending t y = .ok u →
        (∀ x, Delivers t x y ↔ u.amount ≤ x) ∧
        u.amount.val = y.val + u.fee.val ∧ arriving t u.amount = .ok ⟨y, u.fee⟩) ∧
      ∀ e, sending t y = .error e ↔ (∀ x, ¬Delivers t x y) ∧ e = .arithmetic .transferFee := by
  have hall := exists_arriving ht
  obtain ⟨f, hf, harriving, hsending⟩ := exists_fee ht
  have hdelivers : Delivers t = Delivers (some f) := by simp [funext_iff, Delivers, harriving]
  simp only [harriving, hsending, hdelivers, delivers_iff hf] at hall ⊢
  refine ⟨hall, ?_, fun y => ⟨?_, ?_⟩⟩
  · intro x x' u u' hx h h'
    have hle := (le_arriving_iff hf h).1 (Nat.le_refl _)
    exact (le_arriving_iff hf h').2 (Nat.le_trans hle hx)
  · intro u h
    refine ⟨fun x => ?_, sending_ok h, ?_⟩
    · rw [Word.le_iff, sending_amount hf h]
    · rw [← harriving, sending_arrives ht (hsending ▸ h)]
  · intro e
    rw [sending_fails_iff hf]
    refine and_congr_left fun _ => ⟨fun h x => ?_, fun h => ?_⟩
    · have hx := x.isLt
      omega
    · exact Nat.not_lt.1 fun hlt => h ⟨_, hlt⟩ (Nat.le_refl _)

def capped : TransferFee := { basisPoints := .lit 16 250, maximum := .lit 64 3000 }

theorem sending_is_least_capped : (∀ f ∈ some capped, f.Bounded) ∧
    (∀ x, Delivers (some capped) x (.lit 64 117000) ↔ .lit 64 120000 ≤ x) ∧
    ∀ x, ¬Delivers (some capped) x .top := by
  have hb : ∀ f ∈ some capped, f.Bounded := by
    simp only [Option.mem_some_iff, forall_eq']
    decide
  have hasked : sending (some capped) (.lit 64 117000) = .ok ⟨.lit 64 120000, .lit 64 3000⟩ :=
    toOption_eq_some.1 (by decide +kernel)
  have hfails : sending (some capped) .top = .error (.arithmetic .transferFee) :=
    (sending_fails_iff (by decide)).2 ⟨by decide +kernel, rfl⟩
  obtain ⟨-, -, hleast⟩ := sending_is_least hb
  exact ⟨hb, ((hleast _).1 _ hasked).1, (((hleast _).2 _).1 hfails).1⟩

end Transfer

end RangePool
