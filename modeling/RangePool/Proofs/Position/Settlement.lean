import Mathlib.Algebra.Order.Floor.Semifield
import Mathlib.Data.Nat.Cast.Order.Field
import Mathlib.Data.Rat.Cast.Order
import Mathlib.Data.Rat.Floor
import Mathlib.Tactic.Ring
import RangePool.Position
/-!
What settling a position does. Its liquidity stays, its checkpoints move to the accruals, and what is pending
grows by the rounded earnings of its liquidity.
-/
set_option autoImplicit false

namespace RangePool

theorem Rounding.lt_down_add_one (n d : Nat) : (n / d : ℚ) < down.quotient n d + 1 := by
  have h := Nat.lt_floor_add_one ((n : ℚ) / d)
  rwa [Nat.floor_div_eq_div] at h

namespace Accrual

def earned (w stored since n : Nat) : Nat := w * (stored - since) / Nat.pow 2 n

theorem earned_zero (stored since n : Nat) : earned 0 stored since n = 0 := by
  simp [earned]

theorem gain_eq_ok {stored since : Accrual} {L : Liquidity} {n : Nat} {g : Word 256} :
    Accrual.gain stored since L n = .ok g ↔
      since.val ≤ stored.val ∧ n < 512 ∧ earned L.val stored.val since.val n = g.val := by
  simp only [gain, bind_eq_ok, Word.sub_eq_ok, Word.wideMulShr, Word.kept_eq_ok,
    Word.mulShr?_eq_some, Word.val_widen, earned, Rounding.quotient]
  constructor
  · rintro ⟨d, hd, a, ⟨hn, ha⟩, hag⟩
    have : stored.val - since.val = d.val := by omega
    exact ⟨by omega, hn, by rw [this, ha, hag]⟩
  · rintro ⟨hle, hn, hg⟩
    exact ⟨⟨stored.val - since.val, Nat.lt_of_le_of_lt (Nat.sub_le _ _) stored.isLt⟩,
      by show stored.val = since.val + (stored.val - since.val); omega, g, ⟨hn, hg⟩, rfl⟩

theorem earned_le {w stored since n : Nat} (h : w ≠ 0 → since ≤ stored) :
    (earned w stored since n : ℚ) ≤ w * (stored / 2 ^ n) - w * (since / 2 ^ n) := by
  by_cases hw : w = 0
  · simp [hw, earned_zero]
  · have hle : (earned w stored since n : ℚ) ≤ (w * (stored - since) : Nat) / (2 ^ n : Nat) :=
      Nat.cast_div_le
    push_cast [Nat.cast_sub (h hw)] at hle
    calc (earned w stored since n : ℚ) ≤ w * (stored - since) / 2 ^ n := hle
      _ = w * (stored / 2 ^ n) - w * (since / 2 ^ n) := by ring

theorem lt_earned_add_one {w stored since n : Nat} (h : w ≠ 0 → since ≤ stored) :
    (w * (stored / 2 ^ n) - w * (since / 2 ^ n) : ℚ) < earned w stored since n + 1 := by
  by_cases hw : w = 0
  · simp [hw, earned_zero]
  · have hlt : ((w * (stored - since) : Nat) / (2 ^ n : Nat) : ℚ) < earned w stored since n + 1 :=
      Rounding.lt_down_add_one _ _
    push_cast [Nat.cast_sub (h hw)] at hlt
    calc (w * (stored / 2 ^ n) - w * (since / 2 ^ n) : ℚ) = w * (stored - since) / 2 ^ n := by ring
      _ < earned w stored since n + 1 := hlt

end Accrual

namespace Position

/-- All liquidity of a position. It earns as a whole, locked or not. -/
def weight (x : Position) : Nat := x.unlocked.val + x.vested.val + x.permanent.val

theorem total_eq_ok {x : Position} {L : Liquidity} : x.total = .ok L ↔ x.weight = L.val := by
  simp only [total, bind_eq_ok, Word.add_eq_ok, weight]
  constructor
  · rintro ⟨a, ha, h⟩; omega
  · intro h
    have := L.isLt
    exact ⟨⟨x.unlocked.val + x.vested.val, by omega⟩, rfl, h⟩

/-- What a position would be credited if it were settled now. -/
def unsettled (x : Position) (stored : Pair Accrual) (t : Side) : Nat :=
  Accrual.earned x.weight (stored.get t).val (x.checkpoints.get t).val 128

structure FeesSettled (x : Position) (stored : Pair Accrual) (y : Position) : Prop where
  frame : y = { x with pending := y.pending, checkpoints := stored }
  pending : ∀ t, (y.pending.get t).val = (x.pending.get t).val + x.unsettled stored t
  reached : x.weight ≠ 0 → ∀ t, (x.checkpoints.get t).val ≤ (stored.get t).val

theorem settleFees_ok {x y : Position} {stored : Pair Accrual}
    (h : x.settleFees stored = .ok y) : x.FeesSettled stored y := by
  simp only [settleFees, bind_eq_ok, total_eq_ok] at h
  obtain ⟨L, hL, h⟩ := h
  by_cases h0 : L = 0
  · have hw : x.weight = 0 := by rw [hL, h0]; rfl
    simp only [h0, if_true, pure_eq_ok] at h
    subst h
    refine ⟨rfl, ?_, fun hn => absurd hw hn⟩
    intro t
    simp [unsettled, hw, Accrual.earned_zero]
  · simp only [h0, if_false, bind_eq_ok, pure_eq_ok, Accrual.gain_eq_ok, Word.narrow_eq_ok,
      Word.add_eq_ok] at h
    obtain ⟨ga, ⟨hle, -, hga⟩, gb, ⟨hle', -, hgb⟩, na, hna, a, ha, nb, hnb, b, hb, rfl⟩ := h
    refine ⟨rfl, ?_, ?_⟩
    · intro t
      cases t
      · show a.val = x.pending.a.val + Accrual.earned x.weight stored.a.val x.checkpoints.a.val 128
        rw [hL]; omega
      · show b.val = x.pending.b.val + Accrual.earned x.weight stored.b.val x.checkpoints.b.val 128
        rw [hL]; omega
    · intro _ t
      cases t
      · exact hle
      · exact hle'

/-- Settling fails for no other reason than that what is pending would be no amount. -/
theorem exists_settleFees {x : Position} {stored : Pair Accrual} {L : Liquidity}
    (hL : x.weight = L.val) (hreached : ∀ t, (x.checkpoints.get t).val ≤ (stored.get t).val)
    (hfits : ∀ t, (x.pending.get t).val + x.unsettled stored t < Nat.pow 2 64) :
    ∃ y, x.settleFees stored = .ok y := by
  simp only [settleFees, bind_eq_ok, total_eq_ok]
  by_cases h0 : L = 0
  · exact ⟨_, L, hL, by rw [if_pos h0]; rfl⟩
  · have credit : ∀ t, ∃ g n s, Accrual.gain (stored.get t) (x.checkpoints.get t) L 128 = .ok g ∧
        g.narrow 64 = .ok n ∧ (x.pending.get t).add n = .ok s := by
      intro t
      have hs := hfits t
      rw [unsettled, hL] at hs
      have hn := Nat.lt_of_le_of_lt (Nat.le_add_left _ _) hs
      have hg : _ < Nat.pow 2 256 := Nat.lt_of_lt_of_le hn (by decide)
      exact ⟨⟨_, hg⟩, ⟨_, hn⟩, ⟨_, hs⟩, Accrual.gain_eq_ok.2 ⟨hreached t, by decide, rfl⟩,
        Word.narrow_eq_ok.2 rfl, Word.add_eq_ok.2 rfl⟩
    obtain ⟨ga, na, a, hga, hna, ha⟩ := credit .a
    obtain ⟨gb, nb, b, hgb, hnb, hb⟩ := credit .b
    refine ⟨{ x with pending := ⟨a, b⟩, checkpoints := stored }, L, hL, ?_⟩
    rw [if_neg h0]
    simp only [bind_eq_ok, pure_eq_ok]
    exact ⟨ga, hga, gb, hgb, na, hna, a, ha, nb, hnb, b, hb, rfl⟩

theorem FeesSettled.weight {x y : Position} {stored : Pair Accrual}
    (h : x.FeesSettled stored y) : y.weight = x.weight := by
  rw [h.frame]; rfl

theorem FeesSettled.checkpoints {x y : Position} {stored : Pair Accrual}
    (h : x.FeesSettled stored y) : y.checkpoints = stored := by
  rw [h.frame]

theorem FeesSettled.unique {x y z : Position} {stored : Pair Accrual}
    (h : x.FeesSettled stored y) (h' : x.FeesSettled stored z) : y = z := by
  have hpending : y.pending = z.pending :=
    Pair.ext_get fun t => Word.ext ((h.pending t).trans (h'.pending t).symm)
  rw [h.frame, h'.frame, hpending]

theorem takeUnlocked_ok {x y : Position} {L : Liquidity} {r : Requirement}
    (h : x.takeUnlocked L r = .ok y) :
    y = { x with unlocked := y.unlocked } ∧ x.unlocked.val = y.unlocked.val + L.val := by
  unfold takeUnlocked at h
  split at h
  · rename_i hle
    cases h
    exact ⟨rfl, by show _ = x.unlocked.val - L.val + L.val; omega⟩
  · cases h

theorem deposit_ok {x y : Position} {L : Liquidity} (h : x.deposit L = .ok y) :
    y = { x with unlocked := y.unlocked } ∧ y.unlocked.val = x.unlocked.val + L.val := by
  simp only [deposit, bind_eq_ok, pure_eq_ok, Word.add_eq_ok] at h
  obtain ⟨a, ha, rfl⟩ := h
  exact ⟨rfl, ha.symm⟩

/-- Locking and releasing only relabel liquidity. -/
structure Relabelled (x y : Position) : Prop where
  frame : y = { x with unlocked := y.unlocked, vested := y.vested, permanent := y.permanent }
  weight : y.weight = x.weight

theorem Relabelled.refl (x : Position) : Relabelled x x := ⟨rfl, rfl⟩

theorem Relabelled.trans {x y z : Position} (h : Relabelled x y) (h' : Relabelled y z) :
    Relabelled x z := by
  refine ⟨?_, h'.weight.trans h.weight⟩
  rw [h'.frame, h.frame]

theorem vest_parts {x y : Position} {L : Liquidity} (h : x.vest L = .ok y) :
    y = { x with unlocked := y.unlocked, vested := y.vested } ∧
      x.unlocked.val = y.unlocked.val + L.val ∧ y.vested.val = x.vested.val + L.val := by
  simp only [vest, bind_eq_ok, pure_eq_ok, Word.add_eq_ok] at h
  obtain ⟨q, hq, v, hv, rfl⟩ := h
  obtain ⟨hf, hu⟩ := takeUnlocked_ok hq
  rw [hf] at hv ⊢
  exact ⟨rfl, hu, hv.symm⟩

theorem vest_ok {x y : Position} {L : Liquidity} (h : x.vest L = .ok y) : Relabelled x y := by
  obtain ⟨hf, hu, hv⟩ := vest_parts h
  have hp : y.permanent = x.permanent := by rw [hf]
  refine ⟨by rw [hf], ?_⟩
  rw [weight, weight, hp]
  omega

theorem release_eq_ok {x y : Position} {L : Liquidity} :
    x.release L = .ok y ↔ y = { x with unlocked := y.unlocked, vested := y.vested } ∧
      x.vested.val = y.vested.val + L.val ∧ y.unlocked.val = x.unlocked.val + L.val := by
  simp only [release, bind_eq_ok, pure_eq_ok, Word.add_eq_ok, Word.sub_eq_ok]
  constructor
  · rintro ⟨v, hv, u, hu, rfl⟩
    exact ⟨rfl, hv.trans (Nat.add_comm _ _), hu.symm⟩
  · rintro ⟨hf, hv, hu⟩
    exact ⟨y.vested, by omega, y.unlocked, hu.symm, hf.symm⟩

theorem release_ok {x y : Position} {L : Liquidity} (h : x.release L = .ok y) :
    Relabelled x y := by
  obtain ⟨hf, hv, hu⟩ := release_eq_ok.1 h
  have hp : y.permanent = x.permanent := by rw [hf]
  refine ⟨by rw [hf], ?_⟩
  rw [weight, weight, hp]
  omega

theorem lockForever_parts {x y : Position} {L : Liquidity} (h : x.lockForever L = .ok y) :
    y = { x with unlocked := y.unlocked, permanent := y.permanent } ∧
      x.unlocked.val = y.unlocked.val + L.val ∧ y.permanent.val = x.permanent.val + L.val := by
  simp only [lockForever, bind_eq_ok, pure_eq_ok, Word.add_eq_ok] at h
  obtain ⟨q, hq, v, hv, rfl⟩ := h
  obtain ⟨hf, hu⟩ := takeUnlocked_ok hq
  rw [hf] at hv ⊢
  exact ⟨rfl, hu, hv.symm⟩

theorem lockForever_ok {x y : Position} {L : Liquidity} (h : x.lockForever L = .ok y) :
    Relabelled x y := by
  obtain ⟨hf, hu, hp⟩ := lockForever_parts h
  have hv : y.vested = x.vested := by rw [hf]
  refine ⟨by rw [hf], ?_⟩
  rw [weight, weight, hv]
  omega

end Position

end RangePool
