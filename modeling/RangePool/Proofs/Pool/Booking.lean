import RangePool.Proofs.Fee.Tracker
import RangePool.Proofs.Pool.Trade
/-!
When a quote can be booked. Booking adds to balances, to an accrual and to totals, and moves the volatility tracker
on. Where the totals count all that a pool holds, nothing but the totals can run out of room.
-/
set_option autoImplicit false

namespace RangePool

structure Shares.Fits (u : Shares) (protocol partner : Amount) : Prop where
  protocol : protocol.val + u.protocol.val < 2 ^ 64 + u.referral.val
  partner : partner.val + u.partner.val < 2 ^ 64

instance (u : Shares) (protocol partner : Amount) : Decidable (u.Fits protocol partner) :=
  decidable_of_iff (protocol.val + u.protocol.val < 2 ^ 64 + u.referral.val ∧
    partner.val + u.partner.val < 2 ^ 64) ⟨fun h => ⟨h.1, h.2⟩, fun h => ⟨h.1, h.2⟩⟩

theorem Shares.Fits.mono {u : Shares} {protocol protocol' partner partner' : Amount}
    (h : u.Fits protocol partner) (hprotocol : protocol'.val ≤ protocol.val)
    (hpartner : partner'.val ≤ partner.val) : u.Fits protocol' partner' := by
  obtain ⟨h, h'⟩ := h
  constructor <;> omega

namespace Metrics

section
variable {m m' : Metrics} {s : Side} {u : Shares} {lp protocol partner : Amount}

structure HasRoom (m : Metrics) (s : Side) (u : Shares) : Prop where
  lp : (m.lp.get s).val + u.lp.val < 2 ^ 128
  fits : u.Fits (m.protocol.get s) (m.partner.get s)

instance (m : Metrics) (s : Side) (u : Shares) : Decidable (m.HasRoom s u) :=
  decidable_of_iff ((m.lp.get s).val + u.lp.val < 2 ^ 128 ∧ u.Fits (m.protocol.get s) (m.partner.get s))
    ⟨fun h => ⟨h.1, h.2⟩, fun h => ⟨h.1, h.2⟩⟩

/-- The totals count a fee in full, but for the referral. -/
structure Added (m : Metrics) (s : Side) (u : Shares) (m' : Metrics) : Prop where
  lp : ∀ t, (m'.lp.get t).val = (m.lp.get t).val + s.part u.lp.val t
  protocol : ∀ t, (m'.protocol.get t).val + s.part u.referral.val t =
    (m.protocol.get t).val + s.part u.protocol.val t
  partner : ∀ t, (m'.partner.get t).val = (m.partner.get t).val + s.part u.partner.val t

theorem exists_addFee : (∃ m', m.addFee s lp protocol partner = .ok m') ↔
    (m.lp.get s).val + lp.val < 2 ^ 128 ∧ (m.protocol.get s).val + protocol.val < 2 ^ 64 ∧
      (m.partner.get s).val + partner.val < 2 ^ 64 := by
  simp only [addFee, bind_eq_ok, pure_eq_ok]
  constructor
  · rintro ⟨_, lps, hlp, protocols, hprotocol, partners, hpartner, -⟩
    exact ⟨Pair.exists_update_add.1 ⟨lps, hlp⟩, Pair.exists_update_add.1 ⟨protocols, hprotocol⟩,
      Pair.exists_update_add.1 ⟨partners, hpartner⟩⟩
  · rintro ⟨hlp, hprotocol, hpartner⟩
    obtain ⟨lps, hlp⟩ := Pair.exists_update_add (x := lp.widen 128).2 hlp
    obtain ⟨protocols, hprotocol⟩ := Pair.exists_update_add.2 hprotocol
    obtain ⟨partners, hpartner⟩ := Pair.exists_update_add.2 hpartner
    exact ⟨_, lps, hlp, protocols, hprotocol, partners, hpartner, rfl⟩

theorem addFee_ok (hu : u.protocol.val = u.referral.val + protocol.val)
    (h : m.addFee s u.lp protocol u.partner = .ok m') : m.Added s u m' := by
  simp only [addFee, bind_eq_ok, pure_eq_ok] at h
  obtain ⟨lps, hlp, protocols, hprotocol, partners, hpartner, rfl⟩ := h
  refine ⟨Pair.update_add_ok hlp, fun t => ?_, Pair.update_add_ok hpartner⟩
  rw [Pair.update_add_ok hprotocol t, hu, Side.part_add]
  omega

end

end Metrics

namespace Pool

structure Counted (p : Pool) : Prop where
  protocol : ∀ t, (p.protocolFees.get t).val ≤ (p.metrics.protocol.get t).val
  partner : ∀ t, (p.partnerFees.get t).val ≤ (p.metrics.partner.get t).val
  accrual : ∀ t, (p.feePerLiquidity.get t).val ≤ (p.metrics.lp.get t).val * 2 ^ 128

def Tracked (p : Pool) : Prop := p.fees.tracker.enabled = true → p.fees.tracker.Sound

section
variable {p p' : Pool} {q : Quote} {fee : Placement} {now : Point}

theorem Tracked.rebase (h : p.Tracked) (hP : Curve.Admits p.price) (hq : p.rebase now = .ok p') :
    p'.Tracked := by
  unfold Pool.rebase at hq
  split at hq
  · rename_i hon
    simp only [bind_eq_ok, pure_eq_ok] at hq
    obtain ⟨t, ht, rfl⟩ := hq
    exact fun _ => (h hon).rebase hP ht
  · cases hq
    exact h

theorem Tracked.track {old : Price} (h : p.Tracked) (hq : p.track old now = .ok p') :
    p'.Tracked := by
  unfold Pool.track at hq
  split at hq
  · rename_i hon
    simp only [bind_eq_ok, pure_eq_ok] at hq
    obtain ⟨t, ht, crossed, _, rfl⟩ := hq
    have ht := (h hon).accumulate ht
    intro _
    show (if crossed = 0 then t else { t with lastUpdate := now }).Sound
    split
    · exact ht
    · exact ⟨ht.step, ht.reduction, ht.accumulator, ht.reference, ht.price⟩
  · cases hq
    exact h

theorem exists_track {old : Price} (h : p.Tracked) (hP : Curve.Admits p.price)
    (hold : Curve.Admits old) (now : Point) : ∃ p', p.track old now = .ok p' := by
  unfold track
  split
  · rename_i hon
    obtain ⟨t, ht⟩ := Tracker.exists_accumulate (h hon) hP
    obtain ⟨n, hn, -⟩ := Tracker.exists_bins ((h hon).accumulate ht).step hold hP
    simp only [bind_eq_ok, pure_eq_ok]
    exact ⟨_, t, ht, n, hn, rfl⟩
  · exact ⟨p, rfl⟩

theorem apply_added (h : p.apply q fee now = .ok p') :
    p.metrics.Added fee.side q.shares p'.metrics := by
  simp only [apply, bind_eq_ok, Word.sub_eq_ok] at h
  obtain ⟨_, _, protocol, hprotocol, _, _, _, _, _, _, metrics, hmetrics, h⟩ := h
  rw [track_ok h]
  exact Metrics.addFee_ok hprotocol hmetrics

theorem exists_gain (hL : 0 < p.liquidity.val) (lp : Amount) :
    ∃ gain, Word.wideShlDiv (lp.widen 128) p.liquidity 128 = .ok gain ∧
      gain.val ≤ lp.val * 2 ^ 128 := by
  have hle : lp.val * 2 ^ 128 / p.liquidity.val ≤ lp.val * 2 ^ 128 := Nat.div_le_self _ _
  have hlp : lp.val < 2 ^ 64 := lp.isLt
  have hfits : lp.val * 2 ^ 128 / p.liquidity.val < 2 ^ 256 := by omega
  refine ⟨⟨_, hfits⟩, ?_, hle⟩
  simp only [Word.wideShlDiv, Word.kept_eq_ok, Word.shlDiv?_eq_some]
  exact ⟨⟨_, hfits⟩, ⟨hL.ne', Nat.le_refl _, rfl⟩, rfl⟩

theorem SameButTracker.counted (h : p.SameButTracker p') (hp : p.Counted) : p'.Counted := by
  rw [h]
  exact ⟨hp.protocol, hp.partner, hp.accrual⟩

theorem Counted.apply (hp : p.Counted) (h : p.apply q fee now = .ok p') : p'.Counted := by
  have ha := apply_ok h
  have hm := apply_added h
  obtain ⟨-, hlp⟩ := apply_accrues h
  refine ⟨fun t => ?_, fun t => ?_, fun t => ?_⟩
  · have hheld := ha.protocol t
    have htotal := hm.protocol t
    have hle := hp.protocol t
    omega
  · have hle := hp.partner t
    rw [ha.partner, hm.partner]
    omega
  · have hle := hp.accrual t
    have hcredit : fee.side.part (q.shares.lp.val * 2 ^ 128 / p.liquidity.val) t ≤
        fee.side.part q.shares.lp.val t * 2 ^ 128 := by
      rw [← Side.part_mul]
      exact Side.part_le (Nat.div_le_self _ _) fee.side t
    rw [(hlp t).1, (hlp t).2, Nat.add_mul]
    exact Nat.add_le_add hle hcredit

theorem Tracked.apply (hp : p.Tracked) (h : p.apply q fee now = .ok p') : p'.Tracked := by
  simp only [Pool.apply, bind_eq_ok] at h
  obtain ⟨_, _, _, _, partners, _, protocols, _, accruals, _, metrics, _, h⟩ := h
  refine Tracked.track ?_ h
  exact hp

/-- What pools keep, and what leaves nothing but their totals to run out of room. -/
structure Bookable (p : Pool) : Prop where
  ranged : p.Ranged
  low : Curve.minPrice ≤ p.minPrice
  high : p.maxPrice ≤ Curve.maxPrice
  percents : p.fees.percents.validate = .ok ()
  tracked : p.Tracked
  counted : p.Counted

/-- What a quote promises to the one who books it. -/
structure Promised (p : Pool) (q : Quote) : Prop where
  liquid : 0 < p.liquidity.val
  low : p.minPrice.val ≤ q.nextPrice.val
  high : q.nextPrice.val ≤ p.maxPrice.val
  referral : q.shares.referral.val ≤ q.shares.protocol.val

section
variable {exact : Curve.Exact} {dir : Direction} {point : Point} {x : Amount}

theorem Bookable.promised (h : p.Bookable) (hq : p.quote exact dir fee point x = .ok q) :
    p.Promised q := by
  obtain ⟨-, y, other, z, c, hm, hcharge, hs, -⟩ := quote_parts hq
  obtain ⟨-, into, out, hmoves, -⟩ := quote_balance hq
  obtain ⟨total, hsplit⟩ := FeePlan.charge_split hcharge
  refine ⟨hmoves.liquid, hmoves.low h.ranged.low, hmoves.high h.ranged.high, ?_⟩
  rw [hs]
  exact Percents.referral_le h.percents hsplit

theorem Bookable.admits (h : p.Bookable) : Curve.Admits p.price :=
  ⟨Nat.le_trans h.low h.ranged.low, Nat.le_trans h.ranged.high h.high⟩

theorem Bookable.rebase (h : p.Bookable) (hq : p.rebase now = .ok p') : p'.Bookable := by
  have hsame := rebase_ok hq
  have htracked := h.tracked.rebase h.admits hq
  have hcounted := hsame.counted h.counted
  obtain ⟨hpos, hlow, hhigh⟩ := h.ranged
  rw [hsame] at htracked hcounted ⊢
  exact ⟨⟨hpos, hlow, hhigh⟩, h.low, h.high, h.percents, htracked, hcounted⟩

theorem Bookable.apply (h : p.Bookable) (hq : p.Promised q) (hp : p.apply q fee now = .ok p') :
    p'.Bookable := by
  have ha := apply_ok hp
  have htracked := h.tracked.apply hp
  have hcounted := h.counted.apply hp
  rw [ha.frame] at htracked hcounted ⊢
  exact ⟨⟨h.ranged.pos, hq.low, hq.high⟩, h.low, h.high, h.percents, htracked, hcounted⟩

/-- Balances and accruals have room as long as the totals do, and the tracker always goes along. -/
theorem Bookable.exists_apply (h : p.Bookable) (hq : p.Promised q) :
    (∃ p', p.apply q fee now = .ok p') ↔ p.metrics.HasRoom fee.side q.shares := by
  constructor
  · rintro ⟨p', h⟩
    simp only [Pool.apply, bind_eq_ok, Word.sub_eq_ok] at h
    obtain ⟨_, _, protocol, hprotocol, _, _, _, _, _, _, metrics, hmetrics, -⟩ := h
    obtain ⟨hlp, hp, hpartner⟩ := Metrics.exists_addFee.1 ⟨metrics, hmetrics⟩
    exact ⟨hlp, by omega, hpartner⟩
  · rintro ⟨hlp, htotals⟩
    -- what is held is part of the totals, so that it has room as long as they do
    have hheld := htotals.mono (h.counted.protocol fee.side) (h.counted.partner fee.side)
    obtain ⟨gain, hgain, hle⟩ := exists_gain hq.liquid q.shares.lp
    obtain ⟨protocol, hprotocol, -⟩ := Word.exists_sub hq.referral
    have hnet (x : Amount) (hx : x.val + q.shares.protocol.val < 2 ^ 64 + q.shares.referral.val) :
        x.val + protocol.val < 2 ^ 64 := by
      rw [Word.sub_eq_ok.1 hprotocol] at hx
      omega
    have haccrual : (p.feePerLiquidity.get fee.side).val + gain.val < 2 ^ 256 := by
      have := h.counted.accrual fee.side
      omega
    obtain ⟨partners, hpartners⟩ := Pair.exists_update_add.2 hheld.partner
    obtain ⟨protocols, hprotocols⟩ := Pair.exists_update_add.2 (hnet _ hheld.protocol)
    obtain ⟨accruals, haccruals⟩ := Pair.exists_update_add.2 haccrual
    obtain ⟨metrics, hmetrics⟩ := Metrics.exists_addFee.2
      ⟨hlp, hnet _ htotals.protocol, htotals.partner⟩
    have hnext : Curve.Admits q.nextPrice :=
      ⟨Nat.le_trans h.low hq.low, Nat.le_trans hq.high h.high⟩
    obtain ⟨p', hp'⟩ := exists_track (p := { p with
      price := q.nextPrice
      partnerFees := partners
      protocolFees := protocols
      feePerLiquidity := accruals
      metrics }) h.tracked hnext h.admits now
    simp only [Pool.apply, bind_eq_ok]
    exact ⟨p', gain, hgain, protocol, hprotocol, partners, hpartners, protocols, hprotocols,
      accruals, haccruals, metrics, hmetrics, hp'⟩

end

end

end Pool

end RangePool
