import RangePool.Proofs.Market.Parts
/-!
Nobody trades too early, and nobody trades or moves liquidity while the pool is switched off. Requests may fail here,
and then they leave everything as it is: whatever is tried before the activation, the pool stays as it was opened in all
that trades change.
-/
set_option autoImplicit false

namespace RangePool

/-- The pool is not activated yet, and whoever asks is not the early trader in the window before. -/
def Pool.TooEarly (p : Pool) (clock : Clock) (sender : Key) : Prop :=
  ∀ u, p.timeUnit = .of u → u.now clock < p.activationPoint ∧
    (p.earlyTrader ≠ Key.none → sender = p.earlyTrader →
      (u.now clock).val < p.activationPoint.val - u.headStart.val)

instance (p : Pool) (clock : Clock) (sender : Key) : Decidable (p.TooEarly clock sender) :=
  decidable_of_iff (∀ u ∈ p.timeUnit.member?, u.now clock < p.activationPoint ∧
    (p.earlyTrader ≠ Key.none → sender = p.earlyTrader →
      (u.now clock).val < p.activationPoint.val - u.headStart.val))
    (by simp only [Pool.TooEarly, Option.mem_def, Coded.member?_eq_some])

section
variable {p : Pool} {clock : Clock} {a : Access}

theorem Access.enabled_of_maySwap {sender : Key} (h : a.maySwap sender = true) : a.enabled = true :=
  ((Bool.and_eq_true _ _).mp h).1

theorem Pool.TooEarly.refused {sender : Key} (h : p.TooEarly clock sender)
    (ha : p.access clock = .ok a) : a.maySwap sender = false := by
  simp only [access, bind_eq_ok, pure_eq_ok, Coded.member_eq_ok] at ha
  obtain ⟨u, hu, _, _, rfl⟩ := ha
  obtain ⟨hnow, hearly⟩ := h u hu
  have hwaiting : ¬p.activationPoint ≤ u.now clock := Nat.not_le.2 hnow
  have hshut : ¬(p.earlyTrader ≠ Key.none ∧ sender = p.earlyTrader ∧
      p.activationPoint.val - u.headStart.val ≤ (u.now clock).val ∧ u.now clock < p.activationPoint) := by
    rintro ⟨hkey, hsender, hopen, -⟩
    exact Nat.not_lt.2 hopen (hearly hkey hsender)
  rw [Access.maySwap, Window.isActivated, decide_eq_false hwaiting, Bool.false_or,
    Bool.and_eq_false_iff]
  exact .inr (decide_eq_false hshut)

end

namespace Market

def Call.Early (p : Pool) : Call → Prop
  | .swap _ _ _ sender _ clock _ | .swapExactOut _ _ _ sender _ clock _ => p.TooEarly clock sender
  | _ => True

instance (p : Pool) : (c : Call) → Decidable (c.Early p)
  | .swap _ _ _ sender _ clock _ | .swapExactOut _ _ _ sender _ clock _ =>
    inferInstanceAs (Decidable (p.TooEarly clock sender))
  | .openPosition .. | .closePosition | .addLiquidity .. | .removeLiquidity .. | .removeAll ..
  | .claimFees | .lock .. | .refresh .. | .lockForever .. | .openReward .. | .fundReward ..
  | .claimReward .. | .withdrawIdleReward .. | .changeRewardDuration .. | .changeRewardFunder ..
  | .claimProtocolFees .. | .claimPartnerFees .. | .changeStatus .. => .isTrue trivial

/-- Carries out an order; one that fails changes nothing. -/
def Ledger.attempt (l : Ledger) (o : Order) : Ledger := (l.perform o).elim l Prod.fst

/-- Nothing of what only trades change has changed. -/
structure Dormant (p q : Pool) : Prop where
  frame : q = { p with
    liquidity := q.liquidity
    status := q.status
    permanent := q.permanent
    metrics := { p.metrics with positions := q.metrics.positions }
    rewards := q.rewards }

section
variable {p q q' : Pool} {l m : Ledger} {es : List Event} {o : Order} {r : Receipt}

theorem Pair.eq_of_le_zero {x y : Pair Amount} (hx : x = .both 0)
    (h : ∀ t, (y.get t).val ≤ (x.get t).val) : y = x := by
  refine Pair.ext_get fun t => Word.ext (Nat.le_antisymm (h t) ?_)
  rw [hx, Pair.get_both]
  exact Nat.zero_le _

theorem Dormant.refl (p : Pool) : Dormant p p := ⟨rfl⟩

theorem Dormant.step (hprotocol : p.protocolFees = .both 0) (hpartner : p.partnerFees = .both 0)
    (h : Dormant p q) (h' : Untraded q q') : Dormant p q' := by
  have hq : q.protocolFees = p.protocolFees := by rw [h.frame]
  have hq' : q.partnerFees = p.partnerFees := by rw [h.frame]
  have hnone := (Pair.eq_of_le_zero (hq.trans hprotocol) h'.protocolFees).trans hq
  have hnone' := (Pair.eq_of_le_zero (hq'.trans hpartner) h'.partnerFees).trans hq'
  constructor
  rw [h'.frame, hnone, hnone', h.frame]

theorem Dormant.early {c : Call} (h : Dormant p q) (hc : c.Early p) : c.Early q := by
  rw [h.frame]
  exact hc

theorem Book.trade?_of_early {b b' : Book} {c : Call} {r : Receipt} (hc : c.Early b.pool)
    (h : b.perform c = .ok (b', r)) : c.trade? = none := by
  cases c <;> try rfl
  all_goals simp only [perform, bind_eq_ok, Prod.exists] at h
  case swap =>
    obtain ⟨_, _, ht, -⟩ := h
    obtain ⟨a, ha, hmay⟩ := swap_allowed ht
    rw [hc.refused ha] at hmay
    cases hmay
  case swapExactOut =>
    obtain ⟨_, _, ht, -⟩ := h
    obtain ⟨a, ha, hmay⟩ := swapExactOut_allowed ht
    rw [hc.refused ha] at hmay
    cases hmay

theorem Ledger.Step.dormant (hs : l.Step o r m) (hprotocol : p.protocolFees = .both 0)
    (hpartner : p.partnerFees = .both 0) (h : Dormant p l.pool) (hc : o.call.Early p) :
    Dormant p m.pool := by
  obtain ⟨b, b', -, hb, hb', hperform⟩ := hs.exists_book
  rw [← hb] at h
  rw [← hb']
  have htrade := Book.trade?_of_early (h.early hc) hperform
  exact h.step hprotocol hpartner (Book.untraded_of_perform htrade hperform)

theorem Run.dormant (hr : Run l es m) (hprotocol : p.protocolFees = .both 0)
    (hpartner : p.partnerFees = .both 0) (h : Dormant p l.pool)
    (hes : ∀ e ∈ es, e.order.call.Early p) : Dormant p m.pool := by
  induction hr with
  | nil => exact h
  | snoc _ hp ih =>
    obtain ⟨hes, ho⟩ := List.forall_mem_append.1 hes
    exact (Ledger.step_of_perform hp).dormant hprotocol hpartner (ih hes)
      (ho _ (List.mem_singleton_self _))

/-- Whatever is tried, what happens is a run of those orders that do not fail. -/
theorem Ledger.exists_run (l : Ledger) (os : List Order) :
    ∃ es, Run l es (os.foldl attempt l) ∧ (es.map Event.order).Sublist os := by
  induction os using List.reverseRecOn with
  | nil => exact ⟨[], .nil, .slnil⟩
  | append_singleton os o ih =>
    obtain ⟨es, hr, hes⟩ := ih
    rw [List.foldl_append, List.foldl_cons, List.foldl_nil]
    generalize os.foldl attempt l = k at hr
    rw [attempt]
    cases hp : k.perform o with
    | none => exact ⟨es, hr, hes.trans (List.sublist_append_left os [o])⟩
    | some t =>
      refine ⟨es ++ [⟨k, o, t.2⟩], hr.snoc hp, ?_⟩
      rw [List.map_append]
      exact hes.append (List.Sublist.refl [o])

end

/-! The pool switched off. -/

def Call.gated : Call → Bool
  | .openPosition .. | .addLiquidity .. | .removeLiquidity .. | .removeAll .. | .swap ..
  | .swapExactOut .. => true
  | _ => false

def Call.statusAfter (p : Pool) : Call → Coded Status
  | .changeStatus _ _ status => status
  | _ => p.status

section
variable {b b' : Book} {c : Call} {r : Receipt}

theorem Book.enabled_of_perform (hc : c.gated = true) (h : b.perform c = .ok (b', r)) :
    b.pool.isEnabled = true := by
  cases c <;> simp only [Call.gated, Bool.false_eq_true] at hc <;>
    simp only [perform, bind_eq_ok, Prod.exists] at h
  case openPosition =>
    obtain ⟨_, _, hx, -⟩ := h
    exact openPosition_enabled hx
  case addLiquidity =>
    obtain ⟨_, _, _, hm, -⟩ := h
    obtain ⟨_, _, _, hon, -⟩ := addLiquidity_parts hm
    exact hon
  case removeLiquidity =>
    obtain ⟨_, _, _, hm, -⟩ := h
    obtain ⟨_, _, _, hon, -⟩ := removeLiquidity_parts hm
    exact hon
  case removeAll =>
    obtain ⟨_, _, _, hm, -⟩ := h
    obtain ⟨_, _, _, hon, -⟩ := removeLiquidity_parts hm
    exact hon
  case swap =>
    obtain ⟨_, _, ht, -⟩ := h
    obtain ⟨a, ha, hmay⟩ := swap_allowed ht
    exact Pool.access_enabled ha ▸ Access.enabled_of_maySwap hmay
  case swapExactOut =>
    obtain ⟨_, _, ht, -⟩ := h
    obtain ⟨a, ha, hmay⟩ := swapExactOut_allowed ht
    exact Pool.access_enabled ha ▸ Access.enabled_of_maySwap hmay

structure Attended (c : Call) (p q : Pool) : Prop where
  frame : q = { p with
    protocolFees := q.protocolFees
    partnerFees := q.partnerFees
    status := c.statusAfter p
    permanent := q.permanent
    metrics := { p.metrics with positions := q.metrics.positions }
    rewards := q.rewards }

theorem Book.attended_of_perform (hc : c.gated = false) (h : b.perform c = .ok (b', r)) :
    Attended c b.pool b'.pool := by
  cases c <;> simp only [Call.gated, Bool.true_eq_false] at hc <;>
    simp only [perform, bind_eq_ok, pure_eq_ok, Prod.mk.injEq, Prod.exists] at h <;> constructor
  case closePosition =>
    obtain ⟨p, hp, rfl, rfl⟩ := h
    rw [(closePosition_ok hp).1]
    rfl
  case claimFees =>
    obtain ⟨x, paid, -, rfl, rfl⟩ := h
    rfl
  case lock =>
    obtain ⟨l, hl, rfl, rfl⟩ := h
    obtain ⟨y, z, hs, -⟩ := lock_ok hl
    rw [hs.updated.frame]
    rfl
  case refresh =>
    obtain ⟨p, x, v, L, hx, rfl, rfl⟩ := h
    obtain ⟨y, z, hs, -⟩ := refresh_ok hx
    rw [hs.updated.frame]
    rfl
  case lockForever =>
    obtain ⟨p, x, hx, rfl, rfl⟩ := h
    obtain ⟨q, y, z, hs, -, -, hp⟩ := lockForever_ok hx
    rw [hp, hs.updated.frame]
    rfl
  case openReward =>
    obtain ⟨p, hp, rfl, rfl⟩ := h
    obtain ⟨i, -, -, hp⟩ := openReward_ok hp
    rw [hp]
    rfl
  case fundReward =>
    obtain ⟨p, f, hp, rfl, rfl⟩ := h
    obtain ⟨i, q, u, r₀, r, -, -, hq, -, -, -, -, hp⟩ := fundReward_ok hp
    rw [hp, hq.frame]
    rfl
  case claimReward =>
    obtain ⟨p, x, reward, hx, rfl, rfl⟩ := h
    obtain ⟨i, y, c, -, hs, -⟩ := claimReward_ok hx
    rw [hs.updated.frame]
    rfl
  case withdrawIdleReward =>
    obtain ⟨p, x, hp, rfl, rfl⟩ := h
    obtain ⟨i, q, -, hq, -, hp⟩ := withdrawIdleReward_ok hp
    rw [hp, hq.frame]
    rfl
  case changeRewardDuration =>
    obtain ⟨p, hp, rfl, rfl⟩ := h
    obtain ⟨i, hp⟩ := changeRewardDuration_ok hp
    rw [hp]
    rfl
  case changeRewardFunder =>
    obtain ⟨p, hp, rfl, rfl⟩ := h
    obtain ⟨i, q, hq, hp⟩ := changeRewardFunder_ok hp
    rw [hp, hq.frame]
    rfl
  case claimProtocolFees =>
    obtain ⟨p, x, hp, rfl, rfl⟩ := h
    rw [(claimProtocolFees_ok hp).1]
    rfl
  case claimPartnerFees =>
    obtain ⟨p, x, hp, rfl, rfl⟩ := h
    rw [(claimPartnerFees_ok hp).1]
    rfl
  case changeStatus =>
    obtain ⟨p, hp, rfl, rfl⟩ := h
    rw [changeStatus_ok hp]
    rfl

end

def Order.switchesOn (o : Order) : Bool :=
  match o.call with
  | .changeStatus _ _ status => decide (status = .of .enabled)
  | _ => false

def closings (es : List Event) : Nat := es.countP fun e => decide (e.order.call = .closePosition)

section
variable {l m : Ledger} {es : List Event} {o : Order} {r : Receipt}

theorem Order.off_of_statusAfter {p : Pool} (ho : o.switchesOn = false) (hoff : p.isEnabled = false) :
    decide (o.call.statusAfter p = .of .enabled) = false := by
  unfold switchesOn at ho
  cases hc : o.call <;> simp only [hc] at ho
  case changeStatus => exact ho
  all_goals exact hoff

theorem Ledger.Step.attended (hs : l.Step o r m) (ho : o.call.gated = false) :
    m.pool.isEnabled = decide (o.call.statusAfter l.pool = .of .enabled) ∧
      m.pool.price = l.pool.price ∧ m.pool.liquidity = l.pool.liquidity ∧
      m.pool.metrics.positions.val + closings [⟨l, o, r⟩] = l.pool.metrics.positions.val := by
  have hcount := hs.positions_eq
  have hopens : o.call.subject ≠ .newPosition := by
    intro hnew
    cases hc : o.call <;> simp only [hc, Call.subject, Call.gated, reduceCtorEq] at hnew ho
  rw [if_neg hopens, Nat.add_zero] at hcount
  obtain ⟨b, b', -, hb, hb', hperform⟩ := hs.exists_book
  have hframe := (Book.attended_of_perform ho hperform).frame
  rw [hb, hb'] at hframe
  refine ⟨by rw [hframe]; rfl, by rw [hframe], by rw [hframe], ?_⟩
  rw [closings, List.countP_singleton, ← hcount]
  simp only [decide_eq_true_eq]

theorem Ledger.Step.off (hs : l.Step o r m) (hoff : l.pool.isEnabled = false)
    (ho : o.switchesOn = false) : m.pool.isEnabled = false ∧ m.pool.price = l.pool.price ∧
      m.pool.liquidity = l.pool.liquidity ∧
      m.pool.metrics.positions.val + closings [⟨l, o, r⟩] = l.pool.metrics.positions.val := by
  have hungated : o.call.gated = false := by
    rw [← Bool.not_eq_true]
    intro hgated
    obtain ⟨b, b', -, hb, -, hperform⟩ := hs.exists_book
    rw [← hb, Book.enabled_of_perform hgated hperform] at hoff
    cases hoff
  obtain ⟨hstatus, hkept⟩ := hs.attended hungated
  exact ⟨hstatus.trans (Order.off_of_statusAfter ho hoff), hkept⟩

theorem Run.off (hr : Run l es m) (hoff : l.pool.isEnabled = false)
    (hes : ∀ e ∈ es, e.order.switchesOn = false) : m.pool.isEnabled = false ∧
      m.pool.price = l.pool.price ∧ m.pool.liquidity = l.pool.liquidity ∧
      m.pool.metrics.positions.val + closings es = l.pool.metrics.positions.val := by
  induction hr with
  | nil => exact ⟨hoff, rfl, rfl, rfl⟩
  | snoc _ hp ih =>
    obtain ⟨hes, ho⟩ := List.forall_mem_append.1 hes
    obtain ⟨hoff, hprice, hL, hn⟩ := ih hes
    obtain ⟨hoff', hprice', hL', hn'⟩ :=
      (Ledger.step_of_perform hp).off hoff (ho _ (List.mem_singleton_self _))
    refine ⟨hoff', hprice'.trans hprice, hL'.trans hL, ?_⟩
    rw [closings, List.countP_append]
    unfold closings at hn hn'
    omega

end

/-- Nobody trades too early: whatever is tried, and be it that it fails, as long as every trade comes too early the pool
keeps the price, the accruals, the balances and the volatility tracker that it was opened with. And nobody trades or
moves liquidity while the pool is switched off: from then until it is switched on again price and liquidity stay, and
positions are closed but none is opened. -/
theorem no_early_and_no_disabled_trading {o : Opened} (h : Founded o) :
    (∀ os : List Order, (∀ a ∈ os, a.call.Early o.pool) →
      let m := os.foldl Ledger.attempt (Ledger.opened o)
      m.pool.price = o.pool.price ∧ m.pool.feePerLiquidity = o.pool.feePerLiquidity ∧
        m.pool.protocolFees = o.pool.protocolFees ∧ m.pool.partnerFees = o.pool.partnerFees ∧
        m.pool.fees.tracker = o.pool.fees.tracker ∧
        m.pool.metrics = { o.pool.metrics with positions := m.pool.metrics.positions }) ∧
    ∀ (l m n : Ledger) (off : Order) (r : Receipt) (fs : List Event) (auth : Authority) (signer : Key),
      off.call = .changeStatus auth signer (.of .disabled) → l.perform off = some (n, r) →
      Run n fs m → (∀ e ∈ fs, e.order.switchesOn = false) →
      m.pool.price = l.pool.price ∧ m.pool.liquidity = l.pool.liquidity ∧
        m.pool.metrics.positions.val + closings fs = l.pool.metrics.positions.val := by
  constructor
  · intro os hos m
    have hu := h.untouched
    obtain ⟨es, hr, hes⟩ := Ledger.exists_run (.opened o) os
    have hm : Dormant o.pool m.pool := hr.dormant hu.protocolFees hu.partnerFees (.refl _)
      fun e he => hos _ (hes.subset (List.mem_map_of_mem he))
    rw [hm.frame]
    exact ⟨rfl, rfl, rfl, rfl, rfl, rfl⟩
  · intro l m n off r fs auth signer hoff hp hr hfs
    obtain ⟨hstatus, hprice, hL, hn⟩ :=
      (Ledger.step_of_perform hp).attended (by rw [hoff]; rfl)
    rw [hoff] at hstatus
    obtain ⟨-, hprice', hL', hn'⟩ := hr.off hstatus hfs
    refine ⟨hprice'.trans hprice, hL'.trans hL, ?_⟩
    rw [hn', ← hn, closings, List.countP_singleton, hoff]
    rfl

/-- May trade from slot 41000 on in a pool that is activated at slot 50000. -/
def firstComer : Key := ⟨.lit 256 21⟩

def waitingTerms : CustomTerms :=
  { sampleTerms with hasVault := true, activation := some (.lit 64 50000) }

def saleAt (slot : Point) (sender : Key) : Order where
  call := .swap .aToB (.lit 64 6500000) 0 sender false { slot } (.both none)

/-- The first comer is one slot too early and everybody else is before the activation; liquidity comes in between. -/
def waitingTour : List Order := [
  { call := .openPosition .none firstComer {} },
  { call := .swapExactOut .bToA (.lit 64 510) .top firstComer true { slot := .lit 64 40999 } (.both none) },
  saleAt (.lit 64 40999) firstComer,
  { call := .addLiquidity (.lit 128 (2 ^ 72)) (.both .top) { slot := .lit 64 41000 } (.both none)
    holder := 1 },
  saleAt (.lit 64 49999) .none,
  { call := .openPosition .none .none { slot := .lit 64 49999 } }]

def switchOff : Order where
  call := .changeStatus { admins := [firstComer] } firstComer (.of .disabled)

def standstillTour : List Order := [
  { call := .claimFees, holder := 1 },
  { call := .lockForever (.lit 128 1010) { slot := .lit 64 61000 } },
  { call := .closePosition, holder := 2 }]

theorem no_early_and_no_disabled_trading_waiting : ∃ o k n m r s fs, Founded o ∧
    (∀ a ∈ waitingTour, a.call.Early o.pool) ∧
    let l := waitingTour.foldl Ledger.attempt (Ledger.opened o)
    l.pool.liquidity ≠ o.pool.liquidity ∧
    l.perform (saleAt (.lit 64 41000) firstComer) = some (k, s) ∧ k.pool.price ≠ o.pool.price ∧
    l.perform switchOff = some (n, r) ∧ Run n fs m ∧ fs.map Event.order = standstillTour ∧
    (l.pool.price = o.pool.price ∧ l.pool.feePerLiquidity = o.pool.feePerLiquidity ∧
      l.pool.protocolFees = o.pool.protocolFees ∧ l.pool.partnerFees = o.pool.partnerFees ∧
      l.pool.fees.tracker = o.pool.fees.tracker ∧
      l.pool.metrics = { o.pool.metrics with positions := l.pool.metrics.positions }) ∧
    m.pool.price = l.pool.price ∧ m.pool.liquidity = l.pool.liquidity ∧
      m.pool.metrics.positions.val + 1 = l.pool.metrics.positions.val := by
  have h : ((openCustomPool waitingTerms { creator := firstComer } {} (.both none)).toOption.bind fun o =>
      let l := waitingTour.foldl Ledger.attempt (Ledger.opened o)
      (l.perform (saleAt (.lit 64 41000) firstComer)).bind fun k => (l.perform switchOff).bind fun n =>
        (n.1.replay standstillTour).map fun f =>
          (decide ((∀ a ∈ waitingTour, a.call.Early o.pool) ∧ l.pool.liquidity ≠ o.pool.liquidity ∧
            k.1.pool.price ≠ o.pool.price ∧ ∀ e ∈ f.1, e.order.switchesOn = false),
            f.1.map Event.order, closings f.1)) =
      some (true, standstillTour, 1) := by decide +kernel
  obtain ⟨o, ho, h⟩ := Option.bind_eq_some_iff.1 h
  obtain ⟨⟨k, s⟩, hk, h⟩ := Option.bind_eq_some_iff.1 h
  obtain ⟨⟨n, r⟩, hn, h⟩ := Option.bind_eq_some_iff.1 h
  obtain ⟨⟨fs, m⟩, hr, h⟩ := Option.map_eq_some_iff.1 h
  simp only [Prod.mk.injEq, decide_eq_true_eq] at h
  obtain ⟨⟨hearly, hmoved, htraded, hon⟩, hfs, hclosings⟩ := h
  have ho : Founded o := .custom (toOption_eq_some.1 ho)
  obtain ⟨hwaiting, hoff⟩ := no_early_and_no_disabled_trading ho
  have hrun := Run.of_replay hr
  have hstill := hoff _ m n switchOff r fs _ _ rfl hn hrun hon
  rw [hclosings] at hstill
  exact ⟨o, k, n, m, r, s, fs, ho, hearly, hmoved, hk, htraded, hn, hrun, hfs,
    hwaiting waitingTour hearly, hstill⟩

end Market

end RangePool
