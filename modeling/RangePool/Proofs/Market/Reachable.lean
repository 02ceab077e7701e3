import RangePool.Proofs.Market.Money
/-!
What holds of every pool that can come about. A pool is opened from a checked config or from parameters of its
own; from then on its range holds its price, its collection is a known one, and no position is ahead of it.
-/
set_option autoImplicit false

namespace RangePool.Market

inductive Opening (o : Opened) : Prop
  | ofConfig {c : ConfigTerms} {config : Config} {t : PoolTerms} {accounts : Accounts}
      {clock : Clock} {fees : TransferFees} : c.check = .ok config →
      openPool config t accounts clock fees = .ok o → Opening o
  | custom {t : CustomTerms} {accounts : Accounts} {clock : Clock} {fees : TransferFees} :
      openCustomPool t accounts clock fees = .ok o → Opening o

/-- A pool as requests open it, its config checked or not. -/
inductive Founded (o : Opened) : Prop
  | ofConfig {config : Config} {t : PoolTerms} {accounts : Accounts} {clock : Clock}
      {fees : TransferFees} : openPool config t accounts clock fees = .ok o → Founded o
  | custom {t : CustomTerms} {accounts : Accounts} {clock : Clock} {fees : TransferFees} :
      openCustomPool t accounts clock fees = .ok o → Founded o

theorem Opening.founded {o : Opened} (h : Opening o) : Founded o := by
  cases h with
  | ofConfig _ h => exact .ofConfig h
  | custom h => exact .custom h

structure Sound (p : Pool) : Prop where
  ranged : p.Ranged
  collection : ∃ k, p.collection = .of k
  base : p.fees.base.validate = .ok ()

/-- Whatever the fees of a pool are, this is enough for its vaults to cover what it owes. -/
structure Backed (p : Pool) : Prop where
  ranged : p.Ranged
  collection : ∃ k, p.collection = .of k

theorem SameMoney.ranged {p q : Pool} (h : SameMoney p q) (hp : p.Ranged) : q.Ranged := by
  rw [h.frame]
  exact ⟨hp.pos, hp.low, hp.high⟩

structure Opened.New (o : Opened) : Prop where
  sound : Sound o.pool
  due : ∃ due, o.pool.amountsFor .up o.pool.liquidity = .ok due
  position : ∃ k owner, o.position = { pool := k, owner, unlocked := o.pool.liquidity }
  protocolFees : o.pool.protocolFees = .both 0
  partnerFees : o.pool.partnerFees = .both 0
  feePerLiquidity : o.pool.feePerLiquidity = .both 0
  rewards : o.pool.rewards = .both {}

theorem openDraft_ok {draft : Pool} {accounts : Accounts} {fees : TransferFees} {o : Opened}
    (h : openDraft draft accounts fees = .ok o) :
    o.pool = { draft with
      metrics := { draft.metrics with positions := o.pool.metrics.positions } } ∧
      (∃ due, draft.amountsFor .up draft.liquidity = .ok due) ∧
      ∃ k owner, o.position = { pool := k, owner, unlocked := draft.liquidity } := by
  simp only [openDraft, Metrics.addPosition, bind_eq_ok, pure_eq_ok] at h
  obtain ⟨due, hdue, _, _, x, hx, _, ⟨_, _, rfl⟩, d, _, rfl⟩ := h
  obtain ⟨hf, hu⟩ := Position.deposit_ok hx
  refine ⟨rfl, ⟨due, hdue⟩, accounts.pool, accounts.creator, ?_⟩
  have hu : x.unlocked = draft.liquidity := Word.ext (by simpa using hu)
  rw [hu] at hf
  exact hf

theorem checkRange_ok {lo hi P : Price} (h : checkRange lo hi P = .ok ()) :
    0 < lo.val ∧ lo.val ≤ P.val ∧ P.val ≤ hi.val := by
  simp only [checkRange, bind_eq_ok] at h
  obtain ⟨_, hg, _, _, hP⟩ := h
  rw [require_eq_ok, Word.le_iff, Word.le_iff] at hg hP
  have : 0 < Curve.minPrice.val := by decide
  omega

theorem activation_ok {u : Coded TimeUnit} {wanted : Option Point} {clock : Clock} {point : Point}
    (h : u.activation wanted clock = .ok point) : ∃ v, u = .of v := by
  simp only [Coded.activation, Coded.now, bind_eq_ok, pure_eq_ok, Coded.member_eq_ok] at h
  obtain ⟨_, ⟨v, hv, _⟩, _⟩ := h
  exact ⟨v, hv⟩

structure Opened.Untouched (o : Opened) : Prop where
  ranged : o.pool.Ranged
  due : ∃ due, o.pool.amountsFor .up o.pool.liquidity = .ok due
  position : ∃ k owner, o.position = { pool := k, owner, unlocked := o.pool.liquidity }
  protocolFees : o.pool.protocolFees = .both 0
  partnerFees : o.pool.partnerFees = .both 0
  feePerLiquidity : o.pool.feePerLiquidity = .both 0
  lpFees : o.pool.metrics.lp = .both 0
  rewards : o.pool.rewards = .both {}
  timeUnit : ∃ u, o.pool.timeUnit = .of u
  origin : ∃ g, o.pool.origin = .of g

theorem Founded.untouched {o : Opened} (h : Founded o) : o.Untouched := by
  cases h with
  | ofConfig h =>
    simp only [openPool, PoolTerms.check, bind_eq_ok] at h
    obtain ⟨_, ⟨_, hr, _, _, ht⟩, h⟩ := h
    obtain ⟨hpos, hlow, hhigh⟩ := checkRange_ok hr
    obtain ⟨hp, hdue, hx⟩ := openDraft_ok h
    constructor <;> rw [hp]
    case ranged => exact ⟨hpos, hlow, hhigh⟩
    case due => exact hdue
    case position => exact hx
    case timeUnit => exact activation_ok ht
    case origin => exact ⟨_, rfl⟩
  | custom h =>
    simp only [openCustomPool, CustomTerms.check, bind_eq_ok] at h
    obtain ⟨_, ⟨_, hr, _, _, _, _, _, _, _, _, ht⟩, h⟩ := h
    obtain ⟨hpos, hlow, hhigh⟩ := checkRange_ok hr
    obtain ⟨hp, hdue, hx⟩ := openDraft_ok h
    constructor <;> rw [hp]
    case ranged => exact ⟨hpos, hlow, hhigh⟩
    case due => exact hdue
    case position => exact hx
    case timeUnit => exact activation_ok ht
    case origin => exact ⟨_, rfl⟩

theorem validate_parts {t : FeeTerms} (h : t.validate = .ok ()) :
    t.base.validate = .ok () ∧ t.percents.validate = .ok () ∧
      ∀ tracker ∈ t.tracker, tracker.validate = .ok () := by
  simp only [FeeTerms.validate, bind_eq_ok] at h
  obtain ⟨_, hbase, _, hpercents, htracker⟩ := h
  refine ⟨hbase, hpercents, fun tracker ht => ?_⟩
  rw [Option.mem_def] at ht
  rw [ht] at htracker
  exact htracker

theorem check_ok {t : ConfigTerms} {c : Config} (h : t.check = .ok c) :
    (∃ k, c.collection = .of k) ∧ c.fees.validate = .ok () := by
  unfold ConfigTerms.check at h
  simp only [bind_eq_ok] at h
  obtain ⟨_, _, k, hk, u, _, _, hv, h⟩ := h
  rw [Coded.check_eq_ok] at hk
  split at h <;> simp only [bind_eq_ok, pure_eq_ok] at h
  · obtain ⟨_, _, rfl⟩ := h
    exact ⟨hk.1 ▸ hk.2, hv⟩
  · subst h
    exact ⟨hk.1 ▸ hk.2, hv⟩

theorem Opening.checked {o : Opened} (h : Opening o) :
    (∃ k, o.pool.collection = .of k) ∧
      ∃ t : FeeTerms, t.validate = .ok () ∧ o.pool.fees = t.plan.startAt o.pool.price := by
  cases h with
  | ofConfig hc h =>
    simp only [openPool, bind_eq_ok] at h
    obtain ⟨_, _, h⟩ := h
    rw [(openDraft_ok h).1]
    obtain ⟨hk, hv⟩ := check_ok hc
    exact ⟨hk, _, hv, rfl⟩
  | custom h =>
    simp only [openCustomPool, CustomTerms.check, bind_eq_ok] at h
    obtain ⟨_, ⟨_, _, _, _, k, hk, _, hv, _⟩, h⟩ := h
    rw [Coded.member_eq_ok] at hk
    rw [(openDraft_ok h).1]
    exact ⟨⟨k, hk⟩, _, hv, rfl⟩

theorem Opening.new {o : Opened} (h : Opening o) : o.New := by
  obtain ⟨hk, t, hv, hfees⟩ := h.checked
  have hb : o.pool.fees.base.validate = .ok () := by
    rw [hfees]
    exact (validate_parts hv).1
  have hu := h.founded.untouched
  exact ⟨⟨hu.ranged, hk, hb⟩, hu.due, hu.position, hu.protocolFees, hu.partnerFees,
    hu.feePerLiquidity, hu.rewards⟩

def Behind (p : Pool) (x : Position) : Prop :=
  ∀ t, (x.checkpoints.get t).val ≤ (p.feePerLiquidity.get t).val

section
variable {b b' : Book} {i o : Side → Nat}

theorem SameMoney.feePerLiquidity {p q : Pool} (h : SameMoney p q) :
    q.feePerLiquidity = p.feePerLiquidity := by
  rw [h.frame]

theorem Book.Moves.ranged (h : b.Moves b' i o) (hb : b.pool.Ranged) : b'.pool.Ranged := by
  cases h with
  | rest hp _ => exact hp.ranged hb
  | opened hp _ _ => exact hp.ranged hb
  | relabelled hp _ _ _ => exact hp.ranged hb
  | deposited hp _ _ _ hq _ _ _ =>
    have hr := hp.ranged hb
    rw [hq]
    exact ⟨hr.pos, hr.low, hr.high⟩
  | withdrawn hp _ _ _ hq _ _ _ =>
    have hr := hp.ranged hb
    rw [hq]
    exact ⟨hr.pos, hr.low, hr.high⟩
  | traded ht _ =>
    have hm := ht.quoted.moved
    rw [ht.applied.frame]
    exact ⟨hb.pos, hm.low hb.low, hm.high hb.high⟩
  | claimed hp _ _ => exact hp ▸ hb
  | protocolClaimed hp _ =>
    rw [hp]
    exact ⟨hb.pos, hb.low, hb.high⟩
  | partnerClaimed hp _ _ =>
    rw [hp]
    exact ⟨hb.pos, hb.low, hb.high⟩

theorem Book.Moves.terms (h : b.Moves b' i o) :
    b'.pool.collection = b.pool.collection ∧ b'.pool.fees.base = b.pool.fees.base := by
  cases h with
  | rest hp _ => rw [hp.frame]; exact ⟨rfl, rfl⟩
  | opened hp _ _ => rw [hp.frame]; exact ⟨rfl, rfl⟩
  | relabelled hp _ _ _ => rw [hp.frame]; exact ⟨rfl, rfl⟩
  | deposited hp _ _ _ hq _ _ _ => rw [hq, hp.frame]; exact ⟨rfl, rfl⟩
  | withdrawn hp _ _ _ hq _ _ _ => rw [hq, hp.frame]; exact ⟨rfl, rfl⟩
  | traded ht _ => rw [ht.applied.frame]; exact ⟨rfl, rfl⟩
  | claimed hp _ _ => rw [hp]; exact ⟨rfl, rfl⟩
  | protocolClaimed hp _ => rw [hp]; exact ⟨rfl, rfl⟩
  | partnerClaimed hp _ _ => rw [hp]; exact ⟨rfl, rfl⟩

theorem Book.Moves.backed (h : b.Moves b' i o) (hb : Backed b.pool) : Backed b'.pool := by
  refine ⟨h.ranged hb.ranged, ?_⟩
  rw [h.terms.1]
  exact hb.collection

theorem Book.Moves.sound (h : b.Moves b' i o) (hb : Sound b.pool) : Sound b'.pool := by
  refine ⟨h.ranged hb.ranged, ?_, ?_⟩
  · rw [h.terms.1]
    exact hb.collection
  · rw [h.terms.2]
    exact hb.base

theorem Book.Moves.accrues (h : b.Moves b' i o) (t : Side) :
    (b.pool.feePerLiquidity.get t).val ≤ (b'.pool.feePerLiquidity.get t).val := by
  cases h with
  | rest hp _ => rw [hp.feePerLiquidity]
  | opened hp _ _ => rw [hp.feePerLiquidity]
  | relabelled hp _ _ _ => rw [hp.feePerLiquidity]
  | deposited hp _ _ _ hq _ _ _ => rw [hq, ← hp.feePerLiquidity]
  | withdrawn hp _ _ _ hq _ _ _ => rw [hq, ← hp.feePerLiquidity]
  | traded ht _ =>
    obtain ⟨gain, hg, -⟩ := ht.applied.accrual t
    omega
  | claimed hp _ _ => rw [hp]
  | protocolClaimed hp _ => rw [hp]
  | partnerClaimed hp _ _ => rw [hp]

theorem Book.Moves.behind (h : b.Moves b' i o) (hb : Behind b.pool b.position) :
    Behind b'.pool b'.position := by
  intro t
  refine Nat.le_trans ?_ (h.accrues t)
  cases h with
  | rest _ hx => rw [hx]; exact hb t
  | opened _ _ hx => rw [hx]
  | relabelled _ _ hf hr => rw [hr.frame, hf.checkpoints]
  | deposited _ _ hf _ _ _ hx _ => rw [hx, hf.checkpoints]
  | withdrawn _ _ hf _ _ _ hx _ => rw [hx, hf.checkpoints]
  | traded _ hx => rw [hx]; exact hb t
  | claimed _ hf hx => rw [hx, hf.checkpoints]
  | protocolClaimed _ hx => rw [hx]; exact hb t
  | partnerClaimed _ hx _ => rw [hx]; exact hb t

theorem Book.Moves.liquidity (h : b.Moves b' i o) :
    b'.pool.liquidity.val + b.position.weight = b.pool.liquidity.val + b'.position.weight := by
  cases h with
  | rest hp hx => rw [hp.frame, hx]; rfl
  | opened hp hb hx => rw [hp.frame, hx, hb]; rfl
  | relabelled hp hy hf hr => rw [hp.frame, hr.weight, hf.weight, hy]; rfl
  | deposited _ hy hf _ _ hL hx hu =>
    have hw := hf.weight
    rw [hy] at hw
    rw [hx]
    simp only [Position.weight] at hw ⊢
    omega
  | withdrawn _ hy hf _ _ hL hx hu =>
    have hw := hf.weight
    rw [hy] at hw
    rw [hx]
    simp only [Position.weight] at hw ⊢
    omega
  | traded ht hx => rw [ht.applied.frame, hx]
  | claimed hp hf hx =>
    have hw := hf.weight
    rw [hp, hx]
    simp only [Position.weight] at hw ⊢
    omega
  | protocolClaimed hp hx => rw [hp, hx]
  | partnerClaimed hp hx _ => rw [hp, hx]

end

/-- Whatever requests keep of the pool, positions stay behind it. -/
theorem Behind.law {J : Pool → Prop} (hJ : ∀ {b b' : Book} {c : Call} {r : Receipt}, b.Fits c →
    J b.pool → b.perform c = .ok (b', r) → J b'.pool) : Law J Behind where
  pool := hJ
  here hf _ hx h := (Book.moves_of_perform hf h).behind hx
  others hf _ hx h t := Nat.le_trans (hx t) ((Book.moves_of_perform hf h).accrues t)
  blank _ _ t := by cases t <;> exact Nat.zero_le _

theorem Sound.law : Law Sound Behind :=
  Behind.law fun hf hp h => (Book.moves_of_perform hf h).sound hp

theorem Backed.law : Law Backed Behind :=
  Behind.law fun hf hp h => (Book.moves_of_perform hf h).backed hp

theorem Behind.always : Law (fun _ => True) Behind := Behind.law fun _ _ _ => trivial

section
variable {o : Opened} {es : List Event} {m : Ledger}

theorem Founded.obeys (h : Founded o) {J : Pool → Prop} (hJ : J o.pool) :
    (Ledger.opened o).Obeys J Behind := by
  refine ⟨hJ, ?_⟩
  intro x hx t
  obtain ⟨_, _, hp⟩ := h.untouched.position
  rw [List.mem_singleton.1 hx, hp]
  cases t <;> exact Nat.zero_le _

theorem Opening.obeys (h : Opening o) : (Ledger.opened o).Obeys Sound Behind :=
  h.founded.obeys h.new.sound

theorem Opening.reaches (h : Opening o) (hr : Run (Ledger.opened o) es m) :
    m.Obeys Sound Behind :=
  Sound.law.run h.obeys hr

theorem Founded.behind (h : Founded o) (hr : Run (Ledger.opened o) es m) :
    m.Obeys (fun _ => True) Behind :=
  Behind.always.run (h.obeys trivial) hr

theorem Founded.liquidity_eq (h : Founded o) (hr : Run (Ledger.opened o) es m) :
    m.pool.liquidity.val = m.total Position.weight := by
  obtain ⟨k, owner, hp⟩ := h.untouched.position
  have hconst := Behind.always.measure_const (P := fun p => (p.liquidity.val : Int))
    (X := fun x => -(x.weight : Int)) rfl
    (fun hf _ _ hp => by have := (Book.moves_of_perform hf hp).liquidity; omega)
    (h.obeys trivial) hr
  rw [Ledger.total_neg, Ledger.total_neg, ← Ledger.total_cast, ← Ledger.total_cast] at hconst
  have h0 : (Ledger.opened o).total Position.weight = o.pool.liquidity.val := by
    simp [Ledger.total, Ledger.opened, hp, Position.weight]
  have : (Ledger.opened o).pool.liquidity.val = o.pool.liquidity.val := rfl
  omega

/-- What liquidity a position has is part of the pool's, so that it is a liquidity itself. -/
theorem Founded.exists_weight (h : Founded o) (hr : Run (Ledger.opened o) es m) {x : Holding}
    (hx : x ∈ m.holdings) :
    ∃ W : Liquidity, x.position.weight = W.val ∧ W.val ≤ m.pool.liquidity.val := by
  have hle : x.position.weight ≤ m.pool.liquidity.val := by
    rw [h.liquidity_eq hr]
    exact Ledger.le_total hx Position.weight
  exact ⟨⟨_, Nat.lt_of_le_of_lt hle m.pool.liquidity.isLt⟩, rfl, hle⟩

theorem Opening.liquidity_eq (h : Opening o) (hr : Run (Ledger.opened o) es m) :
    m.pool.liquidity.val = m.total Position.weight :=
  h.founded.liquidity_eq hr

end

def sampleTerms : CustomTerms where
  fees := {
    base := { cliff := .lit 64 2500000 }
    percents := { protocol := .lit 8 20, referral := .lit 8 20 } }
  minPrice := Curve.minPrice
  maxPrice := Curve.maxPrice
  liquidity := .lit 128 18446744073709551616000000
  price := .lit 128 18446744073709551616

def session (t : CustomTerms) (os : List Order) : Option (Opened × List Event × Ledger) := do
  let o ← (openCustomPool t {} {} (.both none)).toOption
  let (es, m) ← (Ledger.opened o).replay os
  return (o, es, m)

theorem session_eq_some {t : CustomTerms} {os : List Order} {o : Opened} {es : List Event}
    {m : Ledger} (h : session t os = some (o, es, m)) : Opening o ∧ Run (Ledger.opened o) es m := by
  simp only [session, Option.pure_def, Option.bind_eq_bind, Option.bind_eq_some_iff,
    toOption_eq_some, Prod.exists, Option.some.injEq, Prod.mk.injEq] at h
  obtain ⟨o', ho, es', m', hr, rfl, rfl, rfl⟩ := h
  exact ⟨.custom ho, .of_replay hr⟩

def sampleSession (os : List Order) : Option (Opened × List Event × Ledger) :=
  session sampleTerms os

theorem sampleSession_eq_some {os : List Order} {o : Opened} {es : List Event} {m : Ledger}
    (h : sampleSession os = some (o, es, m)) : Opening o ∧ Run (Ledger.opened o) es m :=
  session_eq_some h

end RangePool.Market
