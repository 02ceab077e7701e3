import RangePool.Proofs.Market.Reachable
/-!
The limits of requests, and the transfer fees between a user and the vaults. The limit of a sale is held against what
the vault sends, so that a transfer fee on the token bought comes off afterwards: the seller receives the least amount
asked for exactly as long as that fee leaves room for it. Every other limit is held against what the user sends or
receives, and what the vaults are to get is what arrives there.
-/
set_option autoImplicit false

namespace RangePool.Market

section
variable {p p' : Pool} {dir : Direction} {amount least : Amount} {sender : Key} {referred : Bool}
  {clock : Clock} {fees : TransferFees} {t : Traded}

/-- The limit decides whether a sale goes through and nothing else. -/
theorem swap_eq_ok_iff (h : swap p dir amount least sender referred clock fees = .ok (p', t))
    {least' : Amount} :
    swap p dir amount least' sender referred clock fees = .ok (p', t) ↔ least' ≤ t.paid := by
  constructor
  · intro h'
    obtain ⟨_, _, _, _, _, _, _, hpaid, hle⟩ := swap_ok h'
    rwa [hpaid]
  · intro hle
    simp only [swap, bind_eq_ok, pure_eq_ok, Prod.mk.injEq] at h ⊢
    obtain ⟨a, ha, ok, hok, u, hu, ok', hok', q, hq, now, hnow, quote, hquote, -, -, p'', hp, rfl,
      rfl⟩ := h
    exact ⟨a, ha, ok, hok, u, hu, ok', hok', q, hq, now, hnow, quote, hquote, (),
      Operation.demand_eq_ok.2 hle, p'', hp, rfl, rfl⟩

/-- What arrives of a sale keeps the limit just when the limit and the transfer fee fit together into what is
sent. The sale keeps every limit it could have been made with just when the token bought takes no fee. -/
theorem swap_received_iff (hb : ∀ f ∈ fees.get dir.output, f.Bounded)
    (h : swap p dir amount least sender referred clock fees = .ok (p', t)) :
    ∃ u, Transfer.arriving (fees.get dir.output) t.paid = .ok u ∧
      (least ≤ u.amount ↔ least.val + u.fee.val ≤ t.paid.val) ∧
      ((∀ least', swap p dir amount least' sender referred clock fees = .ok (p', t) →
        least' ≤ u.amount) ↔ ∀ f ∈ fees.get dir.output, f.Spares t.paid) := by
  obtain ⟨u, hu⟩ := Transfer.exists_arriving hb t.paid
  have hsum := Transfer.arriving_ok hu
  refine ⟨u, hu, ?_, ?_⟩
  · rw [Word.le_iff]
    omega
  · rw [← Transfer.arriving_fee_eq_zero_iff hu]
    constructor
    · intro hall
      have hle := hall t.paid ((swap_eq_ok_iff h).2 (Nat.le_refl _))
      rw [Word.le_iff] at hle
      exact Word.ext (by show u.fee.val = 0; omega)
    · intro h0 least' h'
      have hle := (swap_eq_ok_iff h).1 h'
      rw [Word.le_iff] at hle ⊢
      rw [h0, Word.val_zero] at hsum
      omega

end

def taxedB : TransferFees := ⟨none, some { basisPoints := .lit 16 100, maximum := .top }⟩

def taxedSale (least : Amount) : Except Fault (Opened × Pool × Traded × Transfer) := do
  let o ← openCustomPool sampleTerms {} {} (.both none)
  let (p, t) ← swap o.pool .aToB (.lit 64 100000) least .none false {} taxedB
  let u ← Transfer.arriving taxedB.b t.paid
  return (o, p, t, u)

theorem taxedSale_ok {least : Amount} {o : Opened} {p : Pool} {t : Traded} {u : Transfer}
    (h : taxedSale least = .ok (o, p, t, u)) : Opening o ∧
      swap o.pool .aToB (.lit 64 100000) least .none false {} taxedB = .ok (p, t) ∧
        Transfer.arriving taxedB.b t.paid = .ok u := by
  simp only [taxedSale, bind_eq_ok, pure_eq_ok, Prod.mk.injEq, Prod.exists] at h
  obtain ⟨o, ho, p, t, ht, u, hu, rfl, rfl, rfl, rfl⟩ := h
  exact ⟨.custom ho, ht, hu⟩

theorem taxedB_bounded : ∀ f ∈ taxedB.get Direction.aToB.output, f.Bounded := by
  intro f hf
  cases hf
  decide

theorem swap_received_iff_taxed : ∃ o p' t, Opening o ∧
    swap o.pool .aToB (.lit 64 100000) (.lit 64 80000) .none false {} taxedB = .ok (p', t) ∧
    ∃ u, Transfer.arriving (taxedB.get Direction.aToB.output) t.paid = .ok u ∧
      (.lit 64 80000 ≤ u.amount ↔ (Word.lit 64 80000).val + u.fee.val ≤ t.paid.val) ∧
      ((∀ least', swap o.pool .aToB (.lit 64 100000) least' .none false {} taxedB = .ok (p', t) →
        least' ≤ u.amount) ↔ ∀ f ∈ taxedB.get Direction.aToB.output, f.Spares t.paid) := by
  have h : (taxedSale (.lit 64 80000)).toOption.isSome = true := by decide +kernel
  obtain ⟨⟨o, p, t, u⟩, h⟩ := Option.isSome_iff_exists.1 h
  obtain ⟨ho, ht, -⟩ := taxedSale_ok (toOption_eq_some.1 h)
  exact ⟨o, p, t, ho, ht, swap_received_iff taxedB_bounded ht⟩

/-- The sale goes through with the least amount of 90681, and 89774 arrive. -/
theorem swap_received_below_least : ∃ o p' t u, Opening o ∧
    swap o.pool .aToB (.lit 64 100000) (.lit 64 90681) .none false {} taxedB = .ok (p', t) ∧
    (∀ f ∈ taxedB.get Direction.aToB.output, f.Bounded) ∧
    Transfer.arriving (taxedB.get Direction.aToB.output) t.paid = .ok u ∧
    u.amount < .lit 64 90681 := by
  have h : ((taxedSale (.lit 64 90681)).toOption.map fun s => s.2.2.2.amount.val) = some 89774 := by
    decide +kernel
  obtain ⟨⟨o, p, t, u⟩, h, hamount⟩ := Option.map_eq_some_iff.1 h
  obtain ⟨ho, ht, hu⟩ := taxedSale_ok (toOption_eq_some.1 h)
  refine ⟨o, p, t, u, ho, ht, taxedB_bounded, hu, ?_⟩
  rw [Word.lt_iff]
  show u.amount.val < 90681
  have hamount : u.amount.val = 89774 := hamount
  omega

section
variable {fees : TransferFees} {limits vault x y : Pair Amount} {m : Moved} {draft : Pool}
  {accounts : Accounts} {o : Opened}

theorem sendingPair_arrives (hb : ∀ s, ∀ f ∈ fees.get s, f.Bounded)
    (h : Transfer.sendingPair fees y = .ok x) (s : Side) :
    Transfer.ArrivesAs (fees.get s) (x.get s) (y.get s) := by
  simp only [Transfer.sendingPair, bind_eq_ok, pure_eq_ok] at h
  obtain ⟨a, ha, b, hb', rfl⟩ := h
  cases s with
  | a => exact ⟨_, Transfer.sending_arrives (hb .a) ha⟩
  | b => exact ⟨_, Transfer.sending_arrives (hb .b) hb'⟩

theorem arrivingPair_arrives (h : Transfer.arrivingPair fees x = .ok y) (s : Side) :
    Transfer.ArrivesAs (fees.get s) (x.get s) (y.get s) := by
  simp only [Transfer.arrivingPair, bind_eq_ok, pure_eq_ok] at h
  obtain ⟨a, ha, b, hb, rfl⟩ := h
  cases s with
  | a => exact ⟨_, ha⟩
  | b => exact ⟨_, hb⟩

theorem payDeposit_ok (h : payDeposit vault limits fees = .ok m) :
    Transfer.sendingPair fees vault = .ok m.user ∧ ∀ s, m.user.get s ≤ limits.get s := by
  simp only [payDeposit, bind_eq_ok, pure_eq_ok] at h
  obtain ⟨user, huser, _, ha, _, hb, rfl⟩ := h
  rw [Operation.demand_eq_ok] at ha hb
  refine ⟨huser, fun s => ?_⟩
  cases s with
  | a => exact ha
  | b => exact hb

theorem payWithdrawal_ok (h : payWithdrawal vault limits fees = .ok m) :
    Transfer.arrivingPair fees vault = .ok m.user ∧ ∀ s, limits.get s ≤ m.user.get s := by
  simp only [payWithdrawal, bind_eq_ok, pure_eq_ok] at h
  obtain ⟨user, huser, _, ha, _, hb, rfl⟩ := h
  rw [Operation.demand_eq_ok] at ha hb
  refine ⟨huser, fun s => ?_⟩
  cases s with
  | a => exact ha
  | b => exact hb

theorem openDraft_arrives (hb : ∀ s, ∀ f ∈ fees.get s, f.Bounded)
    (h : openDraft draft accounts fees = .ok o) :
    ∃ due, draft.amountsFor .up draft.liquidity = .ok due ∧
      ∀ s, Transfer.ArrivesAs (fees.get s) (o.deposit.get s) (due.get s) := by
  simp only [openDraft, bind_eq_ok, pure_eq_ok] at h
  obtain ⟨due, hdue, _, _, _, _, _, _, deposit, hdeposit, rfl⟩ := h
  exact ⟨due, hdue, sendingPair_arrives hb hdeposit⟩

/-- Every limit but that of a sale holds for the user, after the transfer fee of the token that it is about: a buyer
receives what was wanted and sends no more than allowed, and so do those who provide and withdraw. The vaults receive
what the pool counts on, also when it is opened. -/
theorem limits_hold_net (hb : ∀ s, ∀ f ∈ fees.get s, f.Bounded) (clock : Clock) :
    (∀ p p' dir wanted most sender referred t,
      swapExactOut p dir wanted most sender referred clock fees = .ok (p', t) →
        Transfer.ArrivesAs (fees.get dir.output) t.paid wanted ∧ t.sent ≤ most ∧
        Transfer.ArrivesAs (fees.get dir.input) t.sent t.quote.input) ∧
    (∀ p p' x x' L limits m, addLiquidity p x L limits clock fees = .ok (p', x', m) →
      p.amountsFor .up L = .ok m.vault ∧ ∀ s, m.user.get s ≤ limits.get s ∧
        Transfer.ArrivesAs (fees.get s) (m.user.get s) (m.vault.get s)) ∧
    (∀ p p' x x' L limits m, removeLiquidity p x L limits clock fees = .ok (p', x', m) →
      p.amountsFor .down L = .ok m.vault ∧ ∀ s, limits.get s ≤ m.user.get s ∧
        Transfer.ArrivesAs (fees.get s) (m.vault.get s) (m.user.get s)) ∧
    (∀ c t accounts o, openPool c t accounts clock fees = .ok o →
      ∃ due, Curve.reserves .up c.minPrice c.maxPrice t.price t.liquidity = .ok due ∧
        ∀ s, Transfer.ArrivesAs (fees.get s) (o.deposit.get s) (due.get s)) ∧
    ∀ t accounts o, openCustomPool t accounts clock fees = .ok o →
      ∃ due, Curve.reserves .up t.minPrice t.maxPrice t.price t.liquidity = .ok due ∧
        ∀ s, Transfer.ArrivesAs (fees.get s) (o.deposit.get s) (due.get s) := by
  refine ⟨?_, ?_, ?_, ?_, ?_⟩
  · intro p p' dir wanted most sender referred t h
    obtain ⟨_, _, u, v, -, hu, -, hpaid, hv, hsent, hmost⟩ := swapExactOut_ok h
    rw [hpaid, hsent]
    exact ⟨⟨_, Transfer.sending_arrives (hb _) hu⟩, hmost, ⟨_, Transfer.sending_arrives (hb _) hv⟩⟩
  · intro p p' x x' L limits m h
    obtain ⟨_, _, _, -, -, -, hvault, hm, -⟩ := addLiquidity_parts h
    obtain ⟨huser, hlimits⟩ := payDeposit_ok hm
    exact ⟨hvault, fun s => ⟨hlimits s, sendingPair_arrives hb huser s⟩⟩
  · intro p p' x x' L limits m h
    obtain ⟨_, _, _, -, -, -, hvault, hm, -⟩ := removeLiquidity_parts h
    obtain ⟨huser, hlimits⟩ := payWithdrawal_ok hm
    exact ⟨hvault, fun s => ⟨hlimits s, arrivingPair_arrives huser s⟩⟩
  · intro c t accounts o h
    simp only [openPool, bind_eq_ok] at h
    obtain ⟨_, -, h⟩ := h
    exact openDraft_arrives hb h
  · intro t accounts o h
    simp only [openCustomPool, bind_eq_ok] at h
    obtain ⟨_, -, h⟩ := h
    exact openDraft_arrives hb h

end

def taxedBoth : TransferFees := ⟨some Transfer.capped, taxedB.b⟩

def mostAdded : Pair Amount := ⟨.lit 64 1057459, .lit 64 957934⟩
def leastRemoved : Pair Amount := ⟨.lit 64 1051458, .lit 64 938869⟩

/-- A purchase in the sample pool, and liquidity that is added to it and taken out again, each with limits that leave
nothing to spare. -/
def taxedRequests : Except Fault (Opened × (Pool × Traded) × (Pool × Position × Moved) ×
    Pool × Position × Moved) := do
  let o ← openCustomPool sampleTerms {} {} taxedBoth
  let (p, t) ← swapExactOut o.pool .aToB (.lit 64 51000) (.lit 64 55856) .none false {} taxedBoth
  let (q, x, m) ← addLiquidity p o.position sampleTerms.liquidity mostAdded {} taxedBoth
  let (r, y, n) ← removeLiquidity q x sampleTerms.liquidity leastRemoved {} taxedBoth
  return (o, (p, t), (q, x, m), r, y, n)

theorem limits_hold_net_taxed : (∀ s, ∀ f ∈ taxedBoth.get s, f.Bounded) ∧
    ∃ o p t q x m r y n, openCustomPool sampleTerms {} {} taxedBoth = .ok o ∧
      swapExactOut o.pool .aToB (.lit 64 51000) (.lit 64 55856) .none false {} taxedBoth = .ok (p, t) ∧
      addLiquidity p o.position sampleTerms.liquidity mostAdded {} taxedBoth = .ok (q, x, m) ∧
      removeLiquidity q x sampleTerms.liquidity leastRemoved {} taxedBoth = .ok (r, y, n) ∧
      Transfer.ArrivesAs taxedBoth.b t.paid (.lit 64 51000) ∧ t.sent ≤ .lit 64 55856 ∧
      Transfer.ArrivesAs taxedBoth.a t.sent t.quote.input ∧
      (∀ s, m.user.get s ≤ mostAdded.get s ∧
        Transfer.ArrivesAs (taxedBoth.get s) (m.user.get s) (m.vault.get s)) ∧
      (∀ s, leastRemoved.get s ≤ n.user.get s ∧
        Transfer.ArrivesAs (taxedBoth.get s) (n.vault.get s) (n.user.get s)) ∧
      ∃ due, Curve.reserves .up sampleTerms.minPrice sampleTerms.maxPrice sampleTerms.price
          sampleTerms.liquidity = .ok due ∧
        ∀ s, Transfer.ArrivesAs (taxedBoth.get s) (o.deposit.get s) (due.get s) := by
  have hb : ∀ s, ∀ f ∈ taxedBoth.get s, f.Bounded := by
    intro s f hf
    cases s <;> cases hf <;> decide
  have h : taxedRequests.toOption.isSome = true := by decide +kernel
  obtain ⟨⟨o, ⟨p, t⟩, ⟨q, x, m⟩, r, y, n⟩, h⟩ := Option.isSome_iff_exists.1 h
  simp only [taxedRequests, toOption_eq_some, bind_eq_ok, pure_eq_ok, Prod.mk.injEq,
    Prod.exists] at h
  obtain ⟨o, ho, p, t, ht, q, x, m, hm, r, y, n, hn, rfl, ⟨rfl, rfl⟩, ⟨rfl, rfl, rfl⟩, rfl, rfl,
    rfl⟩ := h
  obtain ⟨hbought, hadded, hremoved, -, hopened⟩ := limits_hold_net hb {}
  obtain ⟨hreceived, hmost, hsold⟩ := hbought _ _ _ _ _ _ _ _ ht
  exact ⟨hb, o, p, t, q, x, m, r, y, n, ho, ht, hm, hn, hreceived, hmost, hsold,
    (hadded _ _ _ _ _ _ _ hm).2, (hremoved _ _ _ _ _ _ _ hn).2, hopened _ _ _ ho⟩

end RangePool.Market
