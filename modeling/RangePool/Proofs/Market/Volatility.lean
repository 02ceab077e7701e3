import RangePool.Proofs.Market.Totals
/-!
The volatility of a pool. Only a trade touches the tracker, and it does so at its own time: before the trade the tracker
forgets, after it the tracker counts. What it remembers stays within the range of the pool and within the most that it
may count, and so at no later time can it hold up a trade.
-/
set_option autoImplicit false

namespace RangePool

/-- Where an enabled tracker stands in a range of prices: its bins are one basis point wide, the price it measures from
lies in the range, and it has seen no trade after `now`. -/
structure Tracker.Placed (t : Tracker) (lo hi : Price) (now : Point) : Prop where
  enabled : t.enabled = true
  binStep : t.binStep.val = 1
  low : lo ≤ t.priceReference
  high : t.priceReference ≤ hi
  last : t.lastUpdate ≤ now

namespace Tracker

section
variable {t t' : Tracker} {lo hi P : Price} {now time : Point}

theorem Placed.rebase (h : t.Placed lo hi now) (hlow : lo ≤ P) (hhigh : P ≤ hi)
    (ht : t.rebase P time = .ok t') : t'.Placed lo hi now := by
  simp only [Tracker.rebase, bind_eq_ok] at ht
  obtain ⟨elapsed, -, ht⟩ := ht
  split at ht
  · cases ht
    exact h
  split at ht
  · simp only [bind_eq_ok, pure_eq_ok] at ht
    obtain ⟨part, -, rfl⟩ := ht
    exact ⟨h.enabled, h.binStep, hlow, hhigh, h.last⟩
  · cases ht
    exact ⟨h.enabled, h.binStep, hlow, hhigh, h.last⟩

theorem Placed.accumulate (h : t.Placed lo hi now) (ht : t.accumulate P = .ok t') :
    t'.Placed lo hi now := by
  simp only [Tracker.accumulate, bind_eq_ok, pure_eq_ok] at ht
  obtain ⟨_, _, _, _, _, _, rfl⟩ := ht
  exact ⟨h.enabled, h.binStep, h.low, h.high, h.last⟩

end

end Tracker

namespace Pool

def Watched (p : Pool) (now : Point) : Prop :=
  p.fees.tracker.Placed p.minPrice p.maxPrice now

section
variable {p q : Pool} {u : Quote} {fee : Placement} {now time : Point}

theorem Watched.rebase (h : p.Watched now) (hp : p.Ranged) (hq : p.rebase time = .ok q) :
    q.Watched now := by
  unfold Pool.rebase at hq
  rw [if_pos h.enabled] at hq
  simp only [bind_eq_ok, pure_eq_ok] at hq
  obtain ⟨t, ht, rfl⟩ := hq
  exact Tracker.Placed.rebase h hp.low hp.high ht

theorem Watched.track {old : Price} (h : p.Watched now) (htime : time ≤ now)
    (hq : p.track old time = .ok q) : q.Watched now := by
  unfold Pool.track at hq
  rw [if_pos h.enabled] at hq
  simp only [bind_eq_ok, pure_eq_ok] at hq
  obtain ⟨t, ht, crossed, -, rfl⟩ := hq
  have ht := Tracker.Placed.accumulate h ht
  show (if crossed = 0 then t else { t with lastUpdate := time }).Placed p.minPrice p.maxPrice now
  split
  · exact ht
  · exact ⟨ht.enabled, ht.binStep, ht.low, ht.high, htime⟩

theorem Watched.apply (h : p.Watched now) (htime : time ≤ now) (hq : p.apply u fee time = .ok q) :
    q.Watched now := by
  simp only [Pool.apply, bind_eq_ok] at hq
  obtain ⟨_, _, _, _, partners, _, protocols, _, accruals, _, metrics, _, hq⟩ := hq
  refine Watched.track ?_ htime hq
  exact h

end

structure Tempered (p : Pool) : Prop where
  enabled : p.fees.tracker.enabled = true
  accumulator : p.fees.tracker.accumulator.val ≤ p.fees.tracker.maxAccumulator.val
  reference : p.fees.tracker.reference.val ≤ p.fees.tracker.maxAccumulator.val
  low : p.minPrice ≤ p.fees.tracker.priceReference
  high : p.fees.tracker.priceReference ≤ p.maxPrice

/-- Nothing about the tracker can hold up a trade at `time`: it has a fee, the fee of the pool is within the limits, and
wherever in the range a trade takes the price, the tracker follows it. -/
structure Unhindered (p : Pool) (time : Point) : Prop where
  fee : ∃ v, p.fees.tracker.fee = .ok v
  numerator : ∀ now, ∃ n, p.fees.numerator now p.activationPoint = .ok n ∧
    Fee.minNumerator ≤ n.val ∧ n.val ≤ Fee.maxNumerator
  track : ∀ old next, p.minPrice ≤ old → old ≤ p.maxPrice → p.minPrice ≤ next → next ≤ p.maxPrice →
    ∃ q, Pool.track { p with price := next } old time = .ok q

section
variable {p q : Pool} {now time : Point}

theorem Watched.tempered (h : p.Watched now) (hp : p.Tracked) : p.Tempered where
  enabled := h.enabled
  accumulator := (hp h.enabled).accumulator
  reference := (hp h.enabled).reference
  low := h.low
  high := h.high

theorem Watched.exists_rebase (h : p.Watched now) (hp : p.Tracked) : ∃ q, p.rebase now = .ok q := by
  obtain ⟨t, ht⟩ := (hp h.enabled).exists_rebase h.last p.price
  unfold Pool.rebase
  rw [if_pos h.enabled]
  exact ⟨_, bind_eq_ok.2 ⟨t, ht, rfl⟩⟩

theorem Watched.unhindered (h : p.Watched now) (hp : p.Bookable) (hbase : p.fees.base.validate = .ok ())
    (time : Point) : p.Unhindered time := by
  obtain ⟨v, hv⟩ := (hp.tracked h.enabled).exists_fee h.binStep
  refine ⟨⟨v, hv⟩, fun now => FeePlan.exists_numerator hbase hv now p.activationPoint, ?_⟩
  intro old next holdlow holdhigh hlow hhigh
  exact exists_track (p := { p with price := next }) hp.tracked
    ⟨Nat.le_trans hp.low hlow, Nat.le_trans hhigh hp.high⟩
    ⟨Nat.le_trans hp.low holdlow, Nat.le_trans holdhigh hp.high⟩ time

end

end Pool

namespace Market

theorem Book.traded_at {b b' : Book} {c : Call} {r : Receipt} {t : Curve.Exact × Direction}
    (hc : c.trade? = some t) (h : b.perform c = .ok (b', r)) :
    ∃ clock, c.clock? = some clock ∧ ∃ q u fee, b.pool.rebase clock.time = .ok q ∧
      q.apply u fee clock.time = .ok b'.pool := by
  cases c <;> simp only [Call.trade?, reduceCtorEq] at hc
  case swap dir amount least sender referred clock fees =>
    simp only [perform, swap, bind_eq_ok, pure_eq_ok, Prod.mk.injEq, Prod.exists] at h
    obtain ⟨p, _, ⟨_, _, _, _, _, _, _, _, q, hq, _, _, quote, _, _, _, _, hp, rfl, _⟩, rfl, _⟩ := h
    exact ⟨clock, rfl, q, quote, _, hq, hp⟩
  case swapExactOut dir wanted most sender referred clock fees =>
    simp only [perform, swapExactOut, bind_eq_ok, pure_eq_ok, Prod.mk.injEq, Prod.exists] at h
    obtain ⟨p, _, ⟨_, _, _, _, _, _, _, _, q, hq, _, _, quote, _, _, _, _, _, _, hp, rfl, _⟩, rfl, _⟩ := h
    exact ⟨clock, rfl, q, quote, _, hq, hp⟩

theorem Untraded.watched {p q : Pool} {now : Point} (h : Untraded p q) (hp : p.Watched now) :
    q.Watched now := by
  rw [h.frame]
  exact hp

theorem Ledger.Step.watched {l m : Ledger} {o : Order} {r : Receipt} {now : Point} (h : l.Step o r m)
    (hp : l.pool.Ranged) (hl : l.pool.Watched now) (htime : ∀ c ∈ o.call.clock?, c.time ≤ now) :
    m.pool.Watched now := by
  obtain ⟨b, b', -, hb, hb', hperform⟩ := h.exists_book
  rw [← hb] at hp hl
  rw [← hb']
  cases hc : o.call.trade? with
  | none => exact (Book.untraded_of_perform hc hperform).watched hl
  | some t =>
    obtain ⟨clock, hclock, q, u, fee, hq, happly⟩ := Book.traded_at hc hperform
    exact (hl.rebase hp hq).apply (htime clock hclock) happly

section
variable {o : Opened} {es : List Event} {m : Ledger} {now : Point}

theorem Opening.watched (h : Opening o) (hon : o.pool.fees.tracker.enabled = true) (now : Point) :
    o.pool.Watched now := by
  obtain ⟨-, t, hv, hfees⟩ := h.checked
  obtain ⟨-, -, htracker⟩ := validate_parts hv
  obtain ⟨-, hlow, hhigh⟩ := h.founded.untouched.ranged
  unfold Pool.Watched
  rw [hfees] at hon ⊢
  cases ht : t.tracker with
  | none => simp [FeeTerms.plan, FeePlan.startAt, ht] at hon
  | some tracker =>
    obtain ⟨hbin, -⟩ := TrackerTerms.validate_ok (htracker tracker ht)
    simp only [FeeTerms.plan, FeePlan.startAt, ht]
    exact ⟨rfl, hbin, hlow, hhigh, Nat.zero_le _⟩

/-- By induction on the run: whatever `now` is, if no call was made after it the tracker has seen no trade after it. -/
theorem Opening.reaches_watched (h : Opening o) (hon : o.pool.fees.tracker.enabled = true)
    (hr : Run (Ledger.opened o) es m) (htimes : ∀ e ∈ es, ∀ c ∈ e.order.call.clock?, c.time ≤ now) :
    m.pool.Watched now := by
  induction hr with
  | nil => exact h.watched hon now
  | @snoc es l n x r hr hp ih =>
    have hlast := htimes ⟨l, x, r⟩ (by simp)
    have hbefore := ih fun e he => htimes e (List.mem_append_left _ he)
    exact (Ledger.step_of_perform hp).watched (h.reaches hr).pool.ranged hbefore hlast

/-- In every state that a pool with a volatility tracker can reach, what the tracker remembers is within its limits. At
every later time the tracker can forget, and before and after that it has a fee and follows every trade within the
range: nothing that it computes can fail. -/
theorem tracker_never_blocks (ho : Opening o) (hon : o.pool.fees.tracker.enabled = true)
    (hr : Run (Ledger.opened o) es m) :
    m.pool.Tempered ∧ ∀ time : Point, (∀ e ∈ es, ∀ c ∈ e.order.call.clock?, c.time ≤ time) →
      m.pool.Unhindered time ∧ ∃ q, m.pool.rebase time = .ok q ∧ q.Tempered ∧ q.Unhindered time := by
  have hm := ho.reaches_bookable hr
  have hbase := (ho.reaches hr).pool.base
  constructor
  · have hwatched : m.pool.Watched .top :=
      ho.reaches_watched hon hr fun e _ c _ => Nat.le_sub_one_of_lt c.time.isLt
    exact hwatched.tempered hm.tracked
  · intro time htimes
    have hwatched := ho.reaches_watched hon hr htimes
    obtain ⟨q, hq⟩ := hwatched.exists_rebase hm.tracked
    have hq' := hm.rebase hq
    have hqwatched := hwatched.rebase hm.ranged hq
    have hqbase : q.fees.base.validate = .ok () := by
      rw [Pool.rebase_ok hq]
      exact hbase
    exact ⟨hwatched.unhindered hm hbase time, q, hq, hqwatched.tempered hq'.tracked,
      hqwatched.unhindered hq' hqbase time⟩

def volatileTerms : CustomTerms where
  fees := {
    base := sampleTerms.fees.base
    percents := sampleTerms.fees.percents
    tracker := some {
      filterPeriod := .lit 16 10
      decayPeriod := .lit 16 120
      reduction := .lit 16 5000
      maxAccumulator := .lit 32 14460000
      control := .lit 32 956 } }
  minPrice := Curve.minPrice
  maxPrice := Curve.maxPrice
  liquidity := sampleTerms.liquidity
  price := sampleTerms.price

/-- The second trade comes when a part of the first is forgotten, the third before anything of the second is. -/
def swings : List Order :=
  let sell (dir : Direction) (x : Amount) (time : Point) : Order :=
    { call := .swap dir x 0 .none false { time } (.both none) }
  [sell .aToB (.lit 64 40000) (.lit 64 1010), sell .bToA (.lit 64 91000) (.lit 64 1070),
    sell .aToB (.lit 64 20000) (.lit 64 1075)]

theorem tracker_never_blocks_swings : ∃ o es m, Opening o ∧ o.pool.fees.tracker.enabled = true ∧
    Run (Ledger.opened o) es m ∧ es.map Event.order = swings ∧ InOrder swings ∧ m.pool.Tempered ∧
    m.pool.fees.tracker.accumulator = .lit 128 14460000 ∧
    ∃ q, m.pool.rebase (.lit 64 1100) = .ok q ∧ q.fees.tracker.reference = .lit 128 7230000 ∧
      q.Tempered ∧ q.Unhindered (.lit 64 1100) := by
  have h : ((session volatileTerms swings).map fun s =>
      decide (s.1.pool.fees.tracker.enabled = true ∧ s.2.1.map Event.order = swings ∧
        s.2.2.pool.fees.tracker.accumulator = .lit 128 14460000 ∧
        (s.2.2.pool.rebase (.lit 64 1100)).toOption.map (fun q => q.fees.tracker.reference) =
          some (.lit 128 7230000))) = some true := by decide +kernel
  obtain ⟨⟨o, es, m⟩, hs, h⟩ := Option.map_eq_some_iff.1 h
  obtain ⟨hon, hes, hmost, hkept⟩ := of_decide_eq_true h
  obtain ⟨q, hq, hkept⟩ := Option.map_eq_some_iff.1 hkept
  obtain ⟨ho, hr⟩ := session_eq_some hs
  have hpast : ∀ x ∈ swings, ∀ c ∈ x.call.clock?, c.time ≤ (.lit 64 1100 : Point) := by decide +kernel
  have htimes : ∀ e ∈ es, ∀ c ∈ e.order.call.clock?, c.time ≤ (.lit 64 1100 : Point) := fun e he =>
    hpast e.order (hes ▸ List.mem_map_of_mem he)
  obtain ⟨hm, hlater⟩ := tracker_never_blocks ho hon hr
  obtain ⟨-, q', hq', htempered, hunhindered⟩ := hlater _ htimes
  obtain rfl : q' = q := eq_of_ok hq' (toOption_eq_some.1 hq)
  exact ⟨o, es, m, ho, hon, hr, hes, by decide +kernel, hm, hmost, q', hq', hkept, htempered, hunhindered⟩

end

end Market

end RangePool
