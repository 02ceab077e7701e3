import RangePool.Proofs.Market.Frame
import RangePool.Proofs.Market.Reachable
import RangePool.Proofs.Pool.Monotone
/-!
The price of a pool stays in its range. Only trades move it: a sale of token A never raises it, a sale of token B
never lowers it, and a trade for an exact output always moves it.
-/
set_option autoImplicit false

namespace RangePool

namespace Pool

section
variable {p : Pool} {dir : Direction} {fee : Placement} {now : Point} {next : Price} {x : Amount}
  {q : Quote}

theorem MovesTo.ne_price {into out : Nat} (h : p.MovesTo dir next into out) (hout : 0 < out) :
    next ≠ p.price := by
  rintro rfl
  have hlost := h.lost
  rw [density, sub_self, mul_zero] at hlost
  have : out ≤ 0 := by exact_mod_cast hlost
  omega

theorem quote_output_ne (hx : 0 < x.val) (h : p.quote .output dir fee now x = .ok q) :
    q.nextPrice ≠ p.price := by
  obtain ⟨hgiven, into, out, hq⟩ := quote_ok hx h
  have hgiven : q.output = x := hgiven
  have hout := hq.output
  rw [hgiven] at hout
  exact hq.moved.ne_price (by omega)

end

end Pool

namespace Market

def Call.Shifts : Call → Price → Price → Prop
  | .swap .aToB .., P, Q => Q ≤ P
  | .swap .bToA .., P, Q => P ≤ Q
  | .swapExactOut .aToB .., P, Q => Q < P
  | .swapExactOut .bToA .., P, Q => P < Q
  | _, P, Q => Q = P

section
variable {p p' : Pool} {exact : Curve.Exact} {dir : Direction} {u : Traded}

theorem Executed.leads (h : Executed p exact dir u p') : dir.Leads p.price p'.price := by
  obtain ⟨q, fee, now, time, hq, hquote, hp, -⟩ := h.steps
  have hprice : q.price = p.price := by rw [Pool.rebase_ok hq]
  rw [(Pool.apply_ok hp).frame, ← hprice]
  exact Pool.quote_leads hquote

theorem Executed.ne_price (h : Executed p .output dir u p') : p'.price ≠ p.price := by
  obtain ⟨q, fee, now, time, hq, hquote, hp, -⟩ := h.steps
  have hprice : q.price = p.price := by rw [Pool.rebase_ok hq]
  rw [(Pool.apply_ok hp).frame, ← hprice]
  exact Pool.quote_output_ne h.given_pos hquote

theorem Untraded.shifts {c : Call} (hc : c.trade? = none) (h : Untraded p p') :
    c.Shifts p.price p'.price := by
  have hprice : p'.price = p.price := by rw [h.frame]
  cases c <;> simp only [Call.trade?, reduceCtorEq] at hc <;> exact hprice

theorem Executed.shifts {c : Call} (hc : c.trade? = some (exact, dir))
    (h : Executed p exact dir u p') : c.Shifts p.price p'.price := by
  cases c <;> simp only [Call.trade?, Option.some.injEq, Prod.mk.injEq, reduceCtorEq] at hc
  case swap =>
    obtain ⟨rfl, rfl⟩ := hc
    have hle := h.leads
    rename_i dir _ _ _ _ _ _
    cases dir <;> exact hle
  case swapExactOut =>
    obtain ⟨rfl, rfl⟩ := hc
    have hle := h.leads
    have hne := mt Word.ext h.ne_price
    rename_i dir _ _ _ _ _ _
    cases dir
    · exact Nat.lt_of_le_of_ne hle hne
    · exact Nat.lt_of_le_of_ne hle (Ne.symm hne)

end

theorem Book.shifts_of_perform {b b' : Book} {c : Call} {r : Receipt}
    (h : b.perform c = .ok (b', r)) : c.Shifts b.pool.price b'.pool.price := by
  cases hc : c.trade? with
  | none => exact (untraded_of_perform hc h).shifts hc
  | some t =>
    obtain ⟨u, -, hu⟩ := executed_of_perform hc h
    exact hu.shifts hc

theorem Ledger.Step.shifts {l m : Ledger} {o : Order} {r : Receipt} (h : l.Step o r m) :
    o.call.Shifts l.pool.price m.pool.price := by
  cases h with
  | pool _ hb => exact Book.shifts_of_perform hb
  | opening _ hb => exact Book.shifts_of_perform hb
  | position _ _ _ hb => exact Book.shifts_of_perform hb

theorem Opening.within {o : Opened} (h : Opening o) :
    Curve.minPrice ≤ o.pool.minPrice ∧ o.pool.maxPrice ≤ Curve.maxPrice := by
  cases h with
  | ofConfig hc h =>
    simp only [openPool, PoolTerms.check, checkRange, bind_eq_ok] at h
    obtain ⟨_, ⟨_, ⟨_, hrange, _⟩, _⟩, h⟩ := h
    rw [(openDraft_ok h).1]
    exact require_eq_ok.1 hrange
  | custom h =>
    simp only [openCustomPool, CustomTerms.check, checkRange, bind_eq_ok] at h
    obtain ⟨_, ⟨_, ⟨_, hrange, _⟩, _⟩, h⟩ := h
    rw [(openDraft_ok h).1]
    exact require_eq_ok.1 hrange

section
variable {o : Opened} {es : List Event} {m : Ledger}

/-- In every state that a pool can reach its price lies in its range, the range lies in the widest one, and the terms
it was opened with are in force; and every request that succeeds there moves the price as it may. -/
theorem price_stays_in_range (ho : Opening o) (hr : Run (Ledger.opened o) es m) :
    (Curve.minPrice ≤ m.pool.minPrice ∧ m.pool.minPrice ≤ m.pool.price ∧
      m.pool.price ≤ m.pool.maxPrice ∧ m.pool.maxPrice ≤ Curve.maxPrice) ∧
    (m.pool.minPrice = o.pool.minPrice ∧ m.pool.maxPrice = o.pool.maxPrice ∧
      m.pool.collection = o.pool.collection ∧ m.pool.activationPoint = o.pool.activationPoint ∧
      m.pool.partner = o.pool.partner) ∧
    ∀ c n r, m.perform c = some (n, r) → c.call.Shifts m.pool.price n.pool.price := by
  obtain ⟨hmin, hmax⟩ := ho.within
  obtain ⟨-, hlow, hhigh⟩ := (ho.reaches hr).pool.ranged
  have hterms : SameTerms o.pool m.pool := hr.sameTerms
  have hsame : m.pool.minPrice = o.pool.minPrice ∧ m.pool.maxPrice = o.pool.maxPrice ∧
      m.pool.collection = o.pool.collection ∧ m.pool.activationPoint = o.pool.activationPoint ∧
      m.pool.partner = o.pool.partner := by
    rw [hterms.frame]
    exact ⟨rfl, rfl, rfl, rfl, rfl⟩
  refine ⟨⟨?_, hlow, hhigh, ?_⟩, hsame, fun c n r hp => (Ledger.step_of_perform hp).shifts⟩
  · rw [hsame.1]
    exact hmin
  · rw [hsame.2.1]
    exact hmax

def priceTour : List Order := [
  { call := .swap .aToB (.lit 64 950000) 0 .none false {} (.both none) },
  { call := .addLiquidity sampleTerms.liquidity (.both .top) {} (.both none) },
  { call := .swapExactOut .bToA (.lit 64 55000) .top .none true {} (.both none) }]

theorem price_stays_in_range_priceTour : ∃ o es m, Opening o ∧ Run (Ledger.opened o) es m ∧
    es.map Event.order = priceTour ∧
    (Curve.minPrice ≤ m.pool.minPrice ∧ m.pool.minPrice ≤ m.pool.price ∧
      m.pool.price ≤ m.pool.maxPrice ∧ m.pool.maxPrice ≤ Curve.maxPrice) ∧
    (m.pool.minPrice = o.pool.minPrice ∧ m.pool.maxPrice = o.pool.maxPrice ∧
      m.pool.collection = o.pool.collection ∧ m.pool.activationPoint = o.pool.activationPoint ∧
      m.pool.partner = o.pool.partner) ∧
    ∀ c n r, m.perform c = some (n, r) → c.call.Shifts m.pool.price n.pool.price := by
  have h : ((sampleSession priceTour).map fun s => s.2.1.map Event.order) = some priceTour := by
    decide +kernel
  obtain ⟨⟨o, es, m⟩, hs, hes⟩ := Option.map_eq_some_iff.1 h
  obtain ⟨ho, hr⟩ := sampleSession_eq_some hs
  exact ⟨o, es, m, ho, hr, hes, price_stays_in_range ho hr⟩

end

end Market

end RangePool
