import RangePool.Proofs.Curve.Monotone
import RangePool.Proofs.Pool.Matching
/-!
A trade of less is there whenever a trade of more is. It costs or buys no more, pays no larger fee, and takes the
price no farther. Curve and charge have this property each, so that it does not matter which of them comes first.
-/
set_option autoImplicit false

namespace RangePool

theorem Quote.exists_sides (exact : Curve.Exact) (given counter : Amount) (next : Price) (s : Shares) :
    ∃ q : Quote, q.given exact = given ∧ q.counter exact = counter ∧ q.nextPrice = next ∧
      q.shares = s := by
  cases exact with
  | input => exact ⟨⟨given, counter, next, s⟩, rfl, rfl, rfl, rfl⟩
  | output => exact ⟨⟨counter, given, next, s⟩, rfl, rfl, rfl, rfl⟩

namespace Pool

section
variable {p : Pool} {exact : Curve.Exact} {dir : Direction} {fee : Placement} {now : Point}
  {next : Price} {x x' other : Amount} {q : Quote}

theorem move_leads (h : p.move exact dir x = .ok (next, other)) : dir.Leads p.price next := by
  obtain ⟨hn, -, -⟩ := move_eq_ok.1 h
  exact Curve.nextPrice_leads hn

theorem quote_leads (h : p.quote exact dir fee now x = .ok q) : dir.Leads p.price q.nextPrice := by
  obtain ⟨-, y, other, z, c, hm, -⟩ := quote_parts h
  exact move_leads hm

theorem Keeps.mono {next' : Price} (h : p.Keeps dir next) (hnear : dir.Leads next' next) :
    p.Keeps dir next' := by
  cases dir with
  | aToB => exact Nat.le_trans h hnear
  | bToA => exact Nat.le_trans hnear h

theorem exists_counterAt_le {next' : Price} (h : p.counterAt next exact dir = .ok other)
    (hback : dir.Leads p.price next') (hnear : dir.Leads next' next) :
    ∃ other', p.counterAt next' exact dir = .ok other' ∧ other'.val ≤ other.val := by
  cases exact <;> cases dir
  case input.aToB => exact Curve.exists_deltaB_le h hnear hback (Nat.le_refl _)
  case input.bToA => exact Curve.exists_deltaA_le h (Nat.le_refl _) hback hnear
  case output.aToB => exact Curve.exists_deltaA_le h hnear hback (Nat.le_refl _)
  case output.bToA => exact Curve.exists_deltaB_le h (Nat.le_refl _) hback hnear

theorem exists_move_le (h : p.move exact dir x = .ok (next, other)) (hx : x'.val ≤ x.val) :
    ∃ next' other', p.move exact dir x' = .ok (next', other') ∧ dir.Leads next' next ∧
      other'.val ≤ other.val := by
  obtain ⟨hn, hrange, hother⟩ := move_eq_ok.1 h
  obtain ⟨next', hn', hback, hnear⟩ := Curve.exists_nextPrice_le hn hx
  obtain ⟨other', hother', hle⟩ := exists_counterAt_le hother hback hnear
  exact ⟨next', other', move_eq_ok.2 ⟨hn', hrange.mono hnear, hother'⟩, hnear, hle⟩

/-- A quote for less is there, and nothing about it is more: not what comes of it, not the fee, and not the way that
the price goes. -/
theorem quotes_monotone (hv : p.fees.percents.validate = .ok ())
    (h : p.quote exact dir fee now x = .ok q) (hx : x' ≤ x) :
    ∃ q', p.quote exact dir fee now x' = .ok q' ∧ q'.counter exact ≤ q.counter exact ∧
      q'.shares.sum ≤ q.shares.sum ∧ dir.Leads p.price q'.nextPrice ∧
      dir.Leads q'.nextPrice q.nextPrice := by
  suffices h' : ∃ q', p.quote exact dir fee now x' = .ok q' ∧ q'.counter exact ≤ q.counter exact ∧
      q'.shares.sum ≤ q.shares.sum ∧ dir.Leads q'.nextPrice q.nextPrice by
    obtain ⟨q', hq', hcounter, hfee, hnear⟩ := h'
    exact ⟨q', hq', hcounter, hfee, quote_leads hq', hnear⟩
  cases hc : chargesGiven exact fee with
  | true =>
    obtain ⟨-, c, hcharge, hm, hs⟩ := (quote_charged hc).1 h
    obtain ⟨c', hcharge', hamount, hsum⟩ := FeePlan.exists_charge_le hv hcharge hx
    obtain ⟨next', other', hm', hnear, hother⟩ := exists_move_le hm hamount
    obtain ⟨q', hgiven, rfl, rfl, hs'⟩ := Quote.exists_sides exact x' other' next' c'.shares
    refine ⟨q', (quote_charged hc).2 ⟨hgiven, c', hcharge', hm', hs'⟩, hother, ?_, hnear⟩
    rw [hs, hs']
    exact hsum
  | false =>
    obtain ⟨-, other, c, hm, hcharge, hcounter, hs⟩ := (quote_uncharged hc).1 h
    obtain ⟨next', other', hm', hnear, hother⟩ := exists_move_le hm hx
    obtain ⟨c', hcharge', hamount, hsum⟩ := FeePlan.exists_charge_le hv hcharge hother
    obtain ⟨q', hgiven, hcounter', rfl, hs'⟩ :=
      Quote.exists_sides exact x' c'.amount next' c'.shares
    refine ⟨q', (quote_uncharged hc).2 ⟨hgiven, other', c', hm', hcharge', hcounter', hs'⟩, ?_, ?_, hnear⟩
    · rw [hcounter, hcounter']
      exact hamount
    · rw [hs, hs']
      exact hsum

end

def purchaseFee : Placement := .of (.of .onlyB) .bToA true

theorem quotes_monotone_purchase : ∃ q q',
    widePool.quote .output .bToA purchaseFee 0 (.lit 64 249999) = .ok q ∧
    q.input.val = 250751253762 ∧
    widePool.quote .output .bToA purchaseFee 0 (.lit 64 249998) = .ok q' ∧ q'.input ≤ q.input ∧
      q'.shares.sum ≤ q.shares.sum ∧ widePool.price ≤ q'.nextPrice ∧ q'.nextPrice ≤ q.nextPrice := by
  have hq : widePool.quote .output .bToA purchaseFee 0 (.lit 64 249999) = .ok {
      input := .lit 64 250751253762
      output := .lit 64 249999
      nextPrice := .lit 128 9223372036854775808000000
      shares := {
        lp := .lit 64 564190322, protocol := .lit 64 188063440, referral := .lit 64 75225376 } } := by
    decide +kernel
  have hless : (.lit 64 249998 : Amount) ≤ .lit 64 249999 := by decide
  obtain ⟨q', h⟩ := quotes_monotone (by decide) hq hless
  exact ⟨_, q', hq, rfl, h⟩

end Pool

end RangePool
