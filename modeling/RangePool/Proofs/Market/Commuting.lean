import RangePool.Proofs.Market.Parts
/-!
Requests about different positions at the same time commute. All that they share of the pool are its counts and its
reward slots. The counts only add up, and the slots are brought to the present by whichever request comes first, so
that the other one finds nothing to accrue.
-/
set_option autoImplicit false

namespace RangePool.Market

/-- What the caller of a request gets back. The total that is locked for good is only for the journal. -/
def Receipt.reply : Receipt → Receipt
  | .lockedForever L _ => .lockedForever L 0
  | r => r

/-- A state of the pool that requests about positions may lead to: counts and slots may differ. -/
def Kin (p q : Pool) : Prop :=
  ∃ L permanent positions rewards, q = { p with
    liquidity := L
    permanent := permanent
    metrics := { p.metrics with positions := positions }
    rewards := rewards }

/-- A request with a clock brings the slots to the present, at the liquidity that was there before; one without leaves
slots and liquidity as they are. -/
def Accrues (p q : Pool) : Option Clock → Prop
  | some clock => p.rewards.mapM (fun r => r.update p.liquidity clock.time) = .ok q.rewards
  | none => q.rewards = p.rewards ∧ q.liquidity = p.liquidity

section
variable {p q q' : Pool}

theorem Kin.refl (p : Pool) : Kin p p := ⟨_, _, _, _, rfl⟩

theorem Kin.trans {r : Pool} (h : Kin p q) (h' : Kin q r) : Kin p r := by
  obtain ⟨_, _, _, _, rfl⟩ := h
  obtain ⟨_, _, _, _, rfl⟩ := h'
  exact ⟨_, _, _, _, rfl⟩

theorem Kin.ext (h : Kin p q) (h' : Kin p q') (hL : q.liquidity.val = q'.liquidity.val)
    (hk : q.permanent.val = q'.permanent.val)
    (hn : q.metrics.positions.val = q'.metrics.positions.val) (hr : q.rewards = q'.rewards) :
    q = q' := by
  obtain ⟨L, k, n, R, rfl⟩ := h
  obtain ⟨L', k', n', R', rfl⟩ := h'
  obtain rfl : L = L' := Word.ext hL
  obtain rfl : k = k' := Word.ext hk
  obtain rfl : n = n' := Word.ext hn
  obtain rfl : R = R' := hr
  rfl

theorem accrues_of_updated {clock : Clock} (h : p.RewardsUpdated clock.time q) (hk : Kin q q')
    (hr : q'.rewards = q.rewards) : Kin p q' ∧ Accrues p q' (some clock) := by
  have hupdated : Kin p q := ⟨_, _, _, _, h.frame⟩
  refine ⟨hupdated.trans hk, Slots.mapM_eq_ok.2 fun i => ?_⟩
  rw [hr]
  exact h.slots i

theorem Accrues.unique {p' : Pool} {clock : Clock} (h : Accrues p q (some clock))
    (h' : Accrues p' q' (some clock)) (hr : p.rewards = p'.rewards) (hL : p.liquidity = p'.liquidity) :
    q.rewards = q'.rewards := by
  rw [Accrues, ← hr, ← hL] at h'
  exact eq_of_ok h h'

theorem Accrues.again {clock : Clock} (h : Accrues p q (some clock))
    (h' : Accrues q q' (some clock)) : q'.rewards = q.rewards := by
  have hsame : q.rewards.mapM (fun r => r.update q.liquidity clock.time) = .ok q.rewards :=
    Slots.mapM_eq_ok.2 fun i => RewardSlot.update_again
      (fun ho => (RewardSlot.update_ok (Slots.mapM_eq_ok.1 h i)).reached_of_opened ho) _
  exact eq_of_ok h' hsame

/-- Two requests at one time leave the same slots in both orders, and each that has a clock leaves them itself. -/
theorem Accrues.agree {clock : Clock} {k k' : Option Clock} {p₁ p₂ q₁ q₂ : Pool}
    (hk : ∀ c ∈ k, c = clock) (hk' : ∀ c ∈ k', c = clock) (h₁ : Accrues p p₁ k)
    (h₂ : Accrues p₁ p₂ k') (h₁' : Accrues p q₁ k') (h₂' : Accrues q₁ q₂ k) :
    p₂.rewards = q₂.rewards ∧ (k ≠ none → p₁.rewards = q₂.rewards) ∧
      (k' ≠ none → p₂.rewards = q₁.rewards) := by
  cases k with
  | none =>
    cases k' with
    | none => exact ⟨by rw [h₂.1, h₁.1, h₂'.1, h₁'.1], fun h => absurd rfl h, fun h => absurd rfl h⟩
    | some c' =>
      have hone := h₂.unique h₁' h₁.1 h₁.2
      exact ⟨hone.trans h₂'.1.symm, fun h => absurd rfl h, fun _ => hone⟩
  | some c =>
    obtain rfl := hk c rfl
    cases k' with
    | none =>
      have hone := h₁.unique h₂' h₁'.1.symm h₁'.2.symm
      exact ⟨h₂.1.trans hone, fun _ => hone, fun h => absurd rfl h⟩
    | some c' =>
      obtain rfl := hk' c' rfl
      have hone := h₁.unique h₁' rfl rfl
      have htwice := h₁.again h₂
      have htwice' := h₁'.again h₂'
      refine ⟨?_, fun _ => ?_, fun _ => ?_⟩
      · rw [htwice, htwice', hone]
      · rw [htwice', hone]
      · rw [htwice, hone]

end

theorem Book.accrues_of_perform {b b' : Book} {c : Call} {r : Receipt} (hc : c.subject = .position)
    (h : b.perform c = .ok (b', r)) : Kin b.pool b'.pool ∧ Accrues b.pool b'.pool c.clock? := by
  cases c <;> simp only [Call.subject, reduceCtorEq] at hc <;>
    simp only [perform, bind_eq_ok, pure_eq_ok, Prod.mk.injEq, Prod.exists] at h
  case closePosition =>
    obtain ⟨p, hp, rfl, rfl⟩ := h
    have hp := (closePosition_counts hp).1
    exact ⟨⟨_, _, _, _, hp⟩, by rw [hp], by rw [hp]⟩
  case addLiquidity =>
    obtain ⟨p, x, m, hm, rfl, rfl⟩ := h
    obtain ⟨q, y, z, hs, -, -, hp, -⟩ := addLiquidity_ok hm
    exact accrues_of_updated hs.updated ⟨_, _, _, _, hp⟩ (by rw [hp])
  case removeLiquidity =>
    obtain ⟨p, x, m, hm, rfl, rfl⟩ := h
    obtain ⟨q, y, z, hs, -, -, hp, -⟩ := removeLiquidity_ok hm
    exact accrues_of_updated hs.updated ⟨_, _, _, _, hp⟩ (by rw [hp])
  case removeAll =>
    obtain ⟨p, x, m, hm, rfl, rfl⟩ := h
    obtain ⟨q, y, z, hs, -, -, hp, -⟩ := removeLiquidity_ok hm
    exact accrues_of_updated hs.updated ⟨_, _, _, _, hp⟩ (by rw [hp])
  case claimFees =>
    obtain ⟨x, paid, hx, rfl, rfl⟩ := h
    exact ⟨⟨_, _, _, _, rfl⟩, rfl, rfl⟩
  case lock =>
    obtain ⟨l, hl, rfl, rfl⟩ := h
    obtain ⟨y, z, hs, -⟩ := lock_ok hl
    exact accrues_of_updated hs.updated (.refl _) rfl
  case refresh =>
    obtain ⟨p, x, v, L, hx, rfl, rfl⟩ := h
    obtain ⟨y, z, hs, -⟩ := refresh_ok hx
    exact accrues_of_updated hs.updated (.refl _) rfl
  case lockForever =>
    obtain ⟨p, x, hx, rfl, rfl⟩ := h
    obtain ⟨q, y, z, hs, -, -, hp⟩ := lockForever_ok hx
    exact accrues_of_updated hs.updated ⟨_, _, _, _, hp⟩ (by rw [hp])
  case claimReward =>
    obtain ⟨p, x, reward, hx, rfl, rfl⟩ := h
    obtain ⟨i, y, c, -, hs, -⟩ := claimReward_ok hx
    exact accrues_of_updated hs.updated (.refl _) rfl

/-! A request answers alike in two such states, if it finds or leaves the same slots. -/

section
variable {p p' q q' : Pool} {x y y' : Position} {clock : Clock}

theorem addLiquidity_alike {L : Liquidity} {limits : Pair Amount} {fees : TransferFees}
    {m m' : Moved} (hk : Kin p p') (h : addLiquidity p x L limits clock fees = .ok (q, y, m))
    (h' : addLiquidity p' x L limits clock fees = .ok (q', y', m')) (hr : q.rewards = q'.rewards) :
    y = y' ∧ m = m' := by
  obtain ⟨_, _, _, _, rfl⟩ := hk
  obtain ⟨_, z, _, -, hs, hf, hv, hm, hy, hq, -⟩ := addLiquidity_parts h
  obtain ⟨_, z', _, -, hs', hf', hv', hm', hy', hq', -⟩ := addLiquidity_parts h'
  rw [hq, hq'] at hr
  obtain rfl : z = z' := hs.unique hs' hr
  obtain rfl := hf.unique hf'
  have hvault : m.vault = m'.vault := eq_of_ok hv hv'
  rw [← hvault] at hm'
  exact ⟨eq_of_ok hy hy', eq_of_ok hm hm'⟩

theorem removeLiquidity_alike {L : Liquidity} {limits : Pair Amount} {fees : TransferFees}
    {m m' : Moved} (hk : Kin p p') (h : removeLiquidity p x L limits clock fees = .ok (q, y, m))
    (h' : removeLiquidity p' x L limits clock fees = .ok (q', y', m')) (hr : q.rewards = q'.rewards) :
    y = y' ∧ m = m' := by
  obtain ⟨_, _, _, _, rfl⟩ := hk
  obtain ⟨_, z, _, -, hs, hf, hv, hm, hy, hq, -⟩ := removeLiquidity_parts h
  obtain ⟨_, z', _, -, hs', hf', hv', hm', hy', hq', -⟩ := removeLiquidity_parts h'
  rw [hq, hq'] at hr
  obtain rfl : z = z' := hs.unique hs' hr
  obtain rfl := hf.unique hf'
  have hvault : m.vault = m'.vault := eq_of_ok hv hv'
  rw [← hvault] at hm'
  exact ⟨eq_of_ok hy hy', eq_of_ok hm hm'⟩

theorem lock_alike {key : Key} {t : LockTerms} {l l' : Locked} (hk : Kin p p')
    (h : lock p x key t clock = .ok l) (h' : lock p' x key t clock = .ok l')
    (hr : l.pool.rewards = l'.pool.rewards) :
    l.position = l'.position ∧ l.vesting = l'.vesting ∧ l.total = l'.total ∧
      l.released = l'.released := by
  obtain ⟨_, _, _, _, rfl⟩ := hk
  obtain ⟨u, y, z, w, hu, -, hs, hf, hT, hw, hrel⟩ := lock_parts h
  obtain ⟨u', y', z', w', hu', -, hs', hf', hT', hw', hrel'⟩ := lock_parts h'
  obtain rfl : y = y' := hs.unique hs' hr
  obtain rfl := hf.unique hf'
  have htotal := eq_of_ok hT hT'
  rw [← htotal] at hw'
  obtain rfl : w = w' := eq_of_ok hw hw'
  obtain rfl : u = u' := Coded.of_inj (hu.symm.trans hu')
  obtain ⟨hx, hv, hL⟩ := hrel.unique hrel'
  exact ⟨hx, hv, htotal, hL⟩

theorem refresh_alike {v w w' : Vesting} {L L' : Liquidity} (hk : Kin p p')
    (h : refresh p x v clock = .ok (q, y, w, L)) (h' : refresh p' x v clock = .ok (q', y', w', L'))
    (hr : q.rewards = q'.rewards) : y = y' ∧ w = w' ∧ L = L' := by
  obtain ⟨_, _, _, _, rfl⟩ := hk
  obtain ⟨u, z, hu, hz, hrel⟩ := refresh_eq_ok.1 h
  obtain ⟨u', z', hu', hz', hrel'⟩ := refresh_eq_ok.1 h'
  obtain ⟨k, hs, hf⟩ := Pool.settle_ok hz
  obtain ⟨k', hs', hf'⟩ := Pool.settle_ok hz'
  obtain rfl : k = k' := hs.unique hs' hr
  obtain rfl := hf.unique hf'
  obtain rfl : u = u' := Coded.of_inj (hu.symm.trans hu')
  exact hrel.unique hrel'

theorem lockForever_alike {L : Liquidity} (hk : Kin p p')
    (h : lockForever p x L clock = .ok (q, y)) (h' : lockForever p' x L clock = .ok (q', y'))
    (hr : q.rewards = q'.rewards) : y = y' := by
  obtain ⟨_, _, _, _, rfl⟩ := hk
  obtain ⟨_, z, _, hs, hf, hy, hq, -⟩ := lockForever_parts h
  obtain ⟨_, z', _, hs', hf', hy', hq', -⟩ := lockForever_parts h'
  rw [hq, hq'] at hr
  obtain rfl : z = z' := hs.unique hs' hr
  obtain rfl := hf.unique hf'
  exact eq_of_ok hy hy'

theorem claimReward_alike {n : Nat} {reward reward' : Amount}
    (h : claimReward p x n clock = .ok (q, y, reward))
    (h' : claimReward p' x n clock = .ok (q', y', reward')) (hr : q.rewards = q'.rewards) :
    y = y' ∧ reward = reward' := by
  obtain ⟨i, z, hi, hs, hy⟩ := claimReward_parts h
  obtain ⟨i', z', hi', hs', hy'⟩ := claimReward_parts h'
  obtain rfl : i = i' := Option.some.inj (hi.symm.trans hi')
  obtain rfl := hs.unique hs' hr
  cases eq_of_ok hy hy'
  exact ⟨rfl, rfl⟩

end

theorem Book.answers_alike {p q : Pool} (hk : Kin p q) {x : Position} {v : Vesting} {c : Call}
    {b d : Book} {r s : Receipt} (hc : c.subject = .position) (h : perform ⟨p, x, v⟩ c = .ok (b, r))
    (h' : perform ⟨q, x, v⟩ c = .ok (d, s)) (hr : c.clock? ≠ none → b.pool.rewards = d.pool.rewards) :
    b.position = d.position ∧ b.vesting = d.vesting ∧ r.reply = s.reply := by
  -- of the pool a request reads what kin states share, and the slots only if it has a clock
  cases c <;> simp only [Call.subject, reduceCtorEq] at hc <;>
    simp only [perform, bind_eq_ok, pure_eq_ok, Prod.mk.injEq, Prod.exists] at h h'
  case closePosition =>
    obtain ⟨_, -, rfl, rfl⟩ := h
    obtain ⟨_, -, rfl, rfl⟩ := h'
    exact ⟨rfl, rfl, rfl⟩
  case addLiquidity =>
    obtain ⟨_, _, _, hm, rfl, rfl⟩ := h
    obtain ⟨_, _, _, hm', rfl, rfl⟩ := h'
    obtain ⟨rfl, rfl⟩ := addLiquidity_alike hk hm hm' (hr (Option.some_ne_none _))
    exact ⟨rfl, rfl, rfl⟩
  case removeLiquidity =>
    obtain ⟨_, _, _, hm, rfl, rfl⟩ := h
    obtain ⟨_, _, _, hm', rfl, rfl⟩ := h'
    obtain ⟨rfl, rfl⟩ := removeLiquidity_alike hk hm hm' (hr (Option.some_ne_none _))
    exact ⟨rfl, rfl, rfl⟩
  case removeAll =>
    obtain ⟨_, _, _, hm, rfl, rfl⟩ := h
    obtain ⟨_, _, _, hm', rfl, rfl⟩ := h'
    obtain ⟨rfl, rfl⟩ := removeLiquidity_alike hk hm hm' (hr (Option.some_ne_none _))
    exact ⟨rfl, rfl, rfl⟩
  case claimFees =>
    obtain ⟨_, _, hx, rfl, rfl⟩ := h
    obtain ⟨_, _, hx', rfl, rfl⟩ := h'
    obtain ⟨_, _, _, _, rfl⟩ := hk
    cases eq_of_ok hx hx'
    exact ⟨rfl, rfl, rfl⟩
  case lock =>
    obtain ⟨l, hl, rfl, rfl⟩ := h
    obtain ⟨l', hl', rfl, rfl⟩ := h'
    obtain ⟨hx, hv, hT, hL⟩ := lock_alike hk hl hl' (hr (Option.some_ne_none _))
    refine ⟨hx, hv, ?_⟩
    rw [hT, hL]
  case refresh =>
    obtain ⟨_, _, _, _, hx, rfl, rfl⟩ := h
    obtain ⟨_, _, _, _, hx', rfl, rfl⟩ := h'
    obtain ⟨rfl, rfl, rfl⟩ := refresh_alike hk hx hx' (hr (Option.some_ne_none _))
    exact ⟨rfl, rfl, rfl⟩
  case lockForever =>
    obtain ⟨_, _, hx, rfl, rfl⟩ := h
    obtain ⟨_, _, hx', rfl, rfl⟩ := h'
    exact ⟨lockForever_alike hk hx hx' (hr (Option.some_ne_none _)), rfl, rfl⟩
  case claimReward =>
    obtain ⟨_, _, _, hx, rfl, rfl⟩ := h
    obtain ⟨_, _, _, hx', rfl, rfl⟩ := h'
    obtain ⟨rfl, rfl⟩ := claimReward_alike hx hx' (hr (Option.some_ne_none _))
    exact ⟨rfl, rfl, rfl⟩

theorem Book.counts_of_perform {b b' : Book} {c : Call} {r : Receipt} (hc : c.subject = .position)
    (h : b.perform c = .ok (b', r)) :
    b'.pool.liquidity.val + b.position.weight = b.pool.liquidity.val + b'.position.weight ∧
    b'.pool.permanent.val + b.position.permanent.val =
      b.pool.permanent.val + b'.position.permanent.val ∧
    b'.pool.metrics.positions.val + (if c = .closePosition then 1 else 0) =
      b.pool.metrics.positions.val := by
  have hr := relabels_of_perform (.inl hc) h
  have hn := hr.positions_eq
  rw [if_neg (c := c.subject = .newPosition) (by rw [hc]; nofun), Nat.add_zero] at hn
  exact ⟨(moves_of_perform (.inl hc) h).liquidity, hr.permanent_eq, hn⟩

theorem Book.commute {p : Pool} {x y : Position} {v w : Vesting} {c d : Call} {clock : Clock}
    {b b' e e' : Book} {r r' s s' : Receipt} (hc : c.subject = .position) (hd : d.subject = .position)
    (hk : ∀ k ∈ c.clock?, k = clock) (hk' : ∀ k ∈ d.clock?, k = clock)
    (h : perform ⟨p, x, v⟩ c = .ok (b, r)) (h' : perform ⟨b.pool, y, w⟩ d = .ok (b', s))
    (g : perform ⟨p, y, w⟩ d = .ok (e, s')) (g' : perform ⟨e.pool, x, v⟩ c = .ok (e', r')) :
    b'.pool = e'.pool ∧ (b.position = e'.position ∧ b.vesting = e'.vesting ∧ r.reply = r'.reply) ∧
      b'.position = e.position ∧ b'.vesting = e.vesting ∧ s.reply = s'.reply := by
  obtain ⟨hkin, ha⟩ := accrues_of_perform hc h
  obtain ⟨hkin', ha'⟩ := accrues_of_perform hd h'
  obtain ⟨gkin, ga⟩ := accrues_of_perform hd g
  obtain ⟨gkin', ga'⟩ := accrues_of_perform hc g'
  obtain ⟨hrewards, hfirst, hsecond⟩ := Accrues.agree hk hk' ha ha' ga ga'
  have hx := answers_alike gkin hc h g' hfirst
  have hy := answers_alike hkin hd g h' fun hn => (hsecond hn).symm
  obtain ⟨hL, hp, hn⟩ := counts_of_perform hc h
  obtain ⟨hL', hp', hn'⟩ := counts_of_perform hd h'
  obtain ⟨gL, gp, gn⟩ := counts_of_perform hd g
  obtain ⟨gL', gp', gn'⟩ := counts_of_perform hc g'
  refine ⟨(hkin.trans hkin').ext (gkin.trans gkin') ?_ ?_ ?_ hrewards, hx, hy.1.symm, hy.2.1.symm,
    hy.2.2.symm⟩
  · rw [hx.1] at hL
    rw [hy.1] at gL
    dsimp only at hL hL' gL gL'
    omega
  · rw [hx.1] at hp
    rw [hy.1] at gp
    dsimp only at hp hp' gp gp'
    omega
  · dsimp only at hn hn' gn gn'
    omega

theorem Ledger.perform_position {l m : Ledger} {o : Order} {r : Receipt}
    (hc : o.call.subject = .position) (h : l.perform o = some (m, r)) :
    ∃ x v b, l.holdings[o.holder]? = some x ∧ x.schedule? o.schedule = some v ∧
      Book.perform ⟨l.pool, x.position, v⟩ o.call = .ok (b, r) ∧
      m = ⟨b.pool, l.holdings.set o.holder (x.after o b)⟩ := by
  cases step_of_perform h with
  | pool hp _ => cases hc.symm.trans hp
  | opening hp _ => cases hc.symm.trans hp
  | position _ hx hv hb => exact ⟨_, _, _, hx, hv, hb, rfl⟩

theorem Holding.after_congr {x : Holding} {o : Order} {b b' : Book} (hp : b.position = b'.position)
    (hv : b.vesting = b'.vesting) : x.after o b = x.after o b' := by
  rw [after, after, hp, hv]

/-- Two requests about different positions at the same time commute, be they deposits, withdrawals, claims or locks: in
both orders the pool and all positions end the same, and each request gets the same reply. -/
theorem orders_commute {l m m' n n' : Ledger} {o o' : Order} {clock : Clock} {r r' s s' : Receipt}
    (ho : o.call.subject = .position) (ho' : o'.call.subject = .position)
    (hne : o.holder ≠ o'.holder) (hk : ∀ k ∈ o.call.clock?, k = clock)
    (hk' : ∀ k ∈ o'.call.clock?, k = clock)
    (h : l.perform o = some (m, r)) (h' : m.perform o' = some (n, s))
    (g : l.perform o' = some (m', s')) (g' : m'.perform o = some (n', r')) :
    n = n' ∧ r.reply = r'.reply ∧ s.reply = s'.reply := by
  obtain ⟨x, v, b, hx, hv, hb, rfl⟩ := Ledger.perform_position ho h
  obtain ⟨y, w, e, hy, hw, he, rfl⟩ := Ledger.perform_position ho' g
  obtain ⟨y', w', b', hy', hw', hb', rfl⟩ := Ledger.perform_position ho' h'
  obtain ⟨x', v', e', hx', hv', he', rfl⟩ := Ledger.perform_position ho g'
  -- neither request touches the position of the other one
  dsimp only at hy' hx'
  rw [List.getElem?_set_ne hne] at hy'
  rw [List.getElem?_set_ne hne.symm] at hx'
  obtain rfl : y = y' := Option.some.inj (hy.symm.trans hy')
  obtain rfl : x = x' := Option.some.inj (hx.symm.trans hx')
  obtain rfl : w = w' := Option.some.inj (hw.symm.trans hw')
  obtain rfl : v = v' := Option.some.inj (hv.symm.trans hv')
  obtain ⟨hpool, ⟨hxp, hxv, hreply⟩, hyp, hyv, hreply'⟩ := Book.commute ho ho' hk hk' hb hb' he he'
  refine ⟨?_, hreply, hreply'⟩
  dsimp only
  rw [hpool, Holding.after_congr hxp hxv, Holding.after_congr hyp hyv, List.set_comm _ _ hne]

/-- All liquidity leaves the pool before a campaign is funded. -/
def desertedTour : List Order :=
  let admin : Key := ⟨.lit 256 17⟩
  let auth : Authority := { admins := [admin] }
  [{ call := .openPosition .none admin {} },
    { call := .openReward auth admin 0 (.lit 64 90000) admin .none .none },
    { call := .removeAll (.both 0) {} (.both none) },
    { call := .fundReward auth admin 0 (.lit 64 910000) false {} none }]

def returning (holder : Nat) (L : Liquidity) : Order where
  call := .addLiquidity L (.both .top) { time := .lit 64 45000 } (.both none)
  holder := holder

theorem orders_commute_returning : ∃ o es l m n m' n' r s r' s', Opening o ∧
    Run (Ledger.opened o) es l ∧ es.map Event.order = desertedTour ∧ l.pool.liquidity = 0 ∧
    l.perform (returning 0 (.lit 128 (2 ^ 70))) = some (m, r) ∧
    m.perform (returning 1 (.lit 128 (2 ^ 71))) = some (n, s) ∧
    l.perform (returning 1 (.lit 128 (2 ^ 71))) = some (m', s') ∧
    m'.perform (returning 0 (.lit 128 (2 ^ 70))) = some (n', r') ∧
    m.pool.liquidity ≠ m'.pool.liquidity ∧
    (n.pool.rewards.get .first).idleSeconds.val = 45000 ∧
    n = n' ∧ r.reply = r'.reply ∧ s.reply = s'.reply := by
  have h : ((sampleSession desertedTour).bind fun a =>
      (a.2.2.perform (returning 0 (.lit 128 (2 ^ 70)))).bind fun b =>
      (b.1.perform (returning 1 (.lit 128 (2 ^ 71)))).bind fun c =>
      (a.2.2.perform (returning 1 (.lit 128 (2 ^ 71)))).bind fun d =>
      (d.1.perform (returning 0 (.lit 128 (2 ^ 70)))).map fun _ =>
        (a.2.1.map Event.order, decide (a.2.2.pool.liquidity = 0),
          decide (b.1.pool.liquidity ≠ d.1.pool.liquidity),
          (c.1.pool.rewards.get .first).idleSeconds.val)) =
      some (desertedTour, true, true, 45000) := by decide +kernel
  obtain ⟨⟨o, es, l⟩, hs, h⟩ := Option.bind_eq_some_iff.1 h
  obtain ⟨⟨m, r⟩, hm, h⟩ := Option.bind_eq_some_iff.1 h
  obtain ⟨⟨n, s⟩, hn, h⟩ := Option.bind_eq_some_iff.1 h
  obtain ⟨⟨m', s'⟩, hm', h⟩ := Option.bind_eq_some_iff.1 h
  obtain ⟨⟨n', r'⟩, hn', h⟩ := Option.map_eq_some_iff.1 h
  simp only [Prod.mk.injEq, decide_eq_true_eq] at h
  obtain ⟨hes, hempty, hdiffer, hidle⟩ := h
  obtain ⟨ho, hr⟩ := sampleSession_eq_some hs
  have hclock : ∀ n L, ∀ k ∈ (returning n L).call.clock?, k = { time := .lit 64 45000 } := by
    rintro n L k ⟨⟩
    rfl
  exact ⟨o, es, l, m, n, m', n', r, s, r', s', ho, hr, hes, hempty, hm, hn, hm', hn', hdiffer, hidle,
    orders_commute rfl rfl (by decide) (hclock 0 _) (hclock 1 _) hm hn hm' hn'⟩

end RangePool.Market
