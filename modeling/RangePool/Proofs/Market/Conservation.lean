import RangePool.Proofs.Market.Rewards
/-!
Rewards are neither created nor lost. As long as idle seconds are settled before the rate changes, what a slot has
paid, owes and still has to stream is what it received, but for the dust of the floor divisions on the way, and all
of the dust stays with the slot.
-/
set_option autoImplicit false

namespace RangePool.Market

section
variable {b b' : Book} {c : Call} {r : Receipt} {i : SlotIndex}

/-- A request costs the worth of a slot and its stakes at most four of the smallest amounts in dust. -/
theorem Book.Streams.le_worth {received paid : Nat} {revalued : Int}
    (h : b.Streams i c b' received paid revalued) (hk : (b.pool.rewards.get i).Kept)
    (hb : (b.position.stakes.get i).checkpoint.val ≤ (b.pool.rewards.get i).perLiquidity.val) :
    slotWorth i b.pool + stakeWorth i b.position +
        ((received * 2 ^ 64 - paid * 2 ^ 64 + revalued : Int) : ℚ) ≤
      slotWorth i b'.pool + stakeWorth i b'.position + 4 * 2 ^ 64 := by
  have hle := Nat.le_trans hb h.accrues
  have hk' := h.kept hk
  have hwide : b.pool.liquidity.val ≤ 2 ^ 128 := b.pool.liquidity.isLt.le
  unfold slotWorth stakeWorth
  push_cast
  cases h with
  | rest hL hw hr hs =>
    rw [hL, hw, hs, hr.worth_eq]
    norm_num
  | opened _ hL hx hr =>
    rw [hL, hx, hr.worth_eq]
    norm_num
  | settled hL hr hs =>
    have hslot := hr.le_worth hwide
    have hstake := hs.le_worth
    rw [Stake.worth_moved (hs.checkpoint_eq hk' hle) hL]
    push_cast
    linarith
  | @claimed now s sum hL hw hr hs hc =>
    have hslot := hr.le_worth hwide
    have hstake := hs.le_worth
    rw [hL, hw, hc, Stake.worth_claimed]
    push_cast
    linarith
  | updated hL hx hr hs =>
    have hslot := hr.le_worth hwide
    rw [hL, hx, hs.worth_eq]
    push_cast
    linarith
  | withdrawn hL hx hr hidle hs =>
    have hslot := hr.le_worth hwide
    have hpaid := RewardSlot.le_worth_idle hidle b.pool.liquidity.val
    rw [hL, hx, hs]
    push_cast
    linarith
  | funded hL hx ho hr hs =>
    have hslot := hr.le_worth hwide
    have hends := hr.reached ho
    have hfund := hs.le_worth (L := b.pool.liquidity.val) (by rw [hends, hr.frame])
    rw [hL, hx]
    push_cast
    linarith
  | @carried now r x idle total hL hx ho hr hidle hs ht =>
    have hslot := hr.le_worth hwide
    have hends := hr.reached ho
    have hpaid := RewardSlot.le_worth_idle hidle b.pool.liquidity.val
    have hlast : r.lastUpdate.val = min now.val r.endsAt.val := by rw [hends, hr.frame]
    have hfund := hs.le_worth (L := b.pool.liquidity.val) hlast
    have ht : (total.val : ℚ) = x.val + idle.val := by exact_mod_cast ht
    simp only [Word.val_zero, Nat.cast_zero, zero_mul, add_zero] at hfund
    rw [hL, hx]
    push_cast
    linarith

theorem Book.Streams.silent {received paid : Nat} {revalued : Int}
    (h : b.Streams i c b' received paid revalued) (hb : (b.pool.rewards.get i).Silent) :
    (b'.pool.rewards.get i).Silent := by
  cases h with
  | rest _ _ hr _ => exact hr.silent hb
  | opened _ _ _ hr => exact hr.silent
  | settled _ hr _ => exact hr.silent hb
  | claimed _ _ hr _ _ => exact hr.silent hb
  | updated _ _ hr hs => exact hs.silent (hr.silent hb)
  | withdrawn _ _ hr _ hs =>
    rw [hs]
    exact hr.silent hb
  | funded _ _ ho hr hs => exact hs.silent (hr.opened.trans ho)
  | carried _ _ ho hr _ hs _ => exact hs.silent (hr.opened.trans ho)

end

def RewardsSilent (p : Pool) : Prop := ∀ i, (p.rewards.get i).Silent

theorem RewardsSilent.law : Law RewardsSilent fun _ _ => True where
  pool hf hp h i := (Book.streams_of_perform hf h i).silent (hp i)
  here _ _ _ _ := trivial
  others _ _ _ _ := trivial
  blank _ _ := trivial

/-- Whether a funding of a slot carries its idle seconds forward or finds none. Other requests change no rate. -/
def Event.SettlesIdle (i : SlotIndex) (e : Event) : Prop :=
  match e.order.call with
  | .fundReward _ _ n _ carry clock _ =>
    SlotIndex.find? n = some i → carry = true ∨ e.before.pool.idleAt i clock.time = 0
  | _ => True

instance (i : SlotIndex) (e : Event) : Decidable (e.SettlesIdle i) := by
  unfold Event.SettlesIdle
  split <;> infer_instance

theorem Event.SettlesIdle.revaluation {i : SlotIndex} {e : Event} (h : e.SettlesIdle i) :
    revaluation i e.before.pool e.order.call e.receipt = 0 := by
  obtain ⟨l, ⟨c, n, s⟩, r⟩ := e
  cases c <;> try rfl
  case fundReward auth signer k amount carry clock fee =>
    cases r <;> cases carry <;> try rfl
    case rewardFunded.false =>
      simp only [SettlesIdle, Bool.false_eq_true, false_or] at h
      simp only [Market.revaluation]
      split
      · rename_i hk
        rw [h hk]
        simp
      · rfl

/-! The ledger, brought to the present. -/

def Ledger.synchronise (l : Ledger) (now : Point) : Except Fault Ledger := do
  let pool ← l.pool.updateRewards now
  let holdings ← l.holdings.mapM fun h => do
    return { h with position := ← h.position.settleRewards pool.rewards }
  return { pool, holdings }

structure Ledger.Synchronised (l : Ledger) (now : Point) (m : Ledger) : Prop where
  pool : l.pool.RewardsUpdated now m.pool
  holdings : List.Forall₂
    (fun x y => l.pool.RewardsSettled x.position now m.pool y.position) l.holdings m.holdings

theorem mapM_eq_ok {ε α β : Type} {f : α → Except ε β} {xs : List α} {ys : List β} :
    xs.mapM f = .ok ys ↔ List.Forall₂ (fun x y => f x = .ok y) xs ys := by
  induction xs generalizing ys with
  | nil => rw [List.mapM_nil, pure_eq_ok, List.forall₂_nil_left_iff, eq_comm]
  | cons x xs ih =>
    simp only [List.mapM_cons, bind_eq_ok, pure_eq_ok, ih, List.forall₂_cons_left_iff]
    constructor
    · rintro ⟨y, hy, zs, hzs, h⟩
      exact ⟨y, zs, hy, hzs, h.symm⟩
    · rintro ⟨y, zs, hy, hzs, h⟩
      exact ⟨y, hy, zs, hzs, h.symm⟩

theorem Ledger.synchronise_ok {l m : Ledger} {now : Point} (h : l.synchronise now = .ok m) :
    l.Synchronised now m := by
  simp only [synchronise, bind_eq_ok, pure_eq_ok, mapM_eq_ok] at h
  obtain ⟨p, hp, hs, hhs, rfl⟩ := h
  refine ⟨Pool.updateRewards_ok hp, hhs.imp fun x y hxy => ?_⟩
  obtain ⟨z, hz, rfl⟩ := hxy
  refine Pool.settleRewards_ok ?_
  simp only [Pool.settleRewards, bind_eq_ok, pure_eq_ok]
  exact ⟨p, hp, z, hz, rfl⟩

section
variable {l m : Ledger} {now : Point} {i : SlotIndex}

theorem RewardsSettled.total_weight {p q : Pool} {xs ys : List Holding}
    (h : List.Forall₂ (fun x y => p.RewardsSettled x.position now q y.position) xs ys) :
    (ys.map fun y => y.position.weight).sum = (xs.map fun x => x.position.weight).sum := by
  induction h with
  | nil => rfl
  | cons hx _ ih => rw [List.map_cons, List.map_cons, List.sum_cons, List.sum_cons, ih, hx.weight]

theorem RewardsSettled.total_worth {p q : Pool} {xs ys : List Holding}
    (h : List.Forall₂ (fun x y => p.RewardsSettled x.position now q y.position) xs ys) :
    (ys.map fun y => stakeWorth i y.position).sum ≤ (xs.map fun x => stakeWorth i x.position).sum ∧
      (xs.map fun x => stakeWorth i x.position).sum ≤
        (ys.map fun y => stakeWorth i y.position).sum + xs.length * 2 ^ 64 := by
  induction h with
  | nil => simp
  | @cons x y xs ys hx _ ih =>
    obtain ⟨hle, hge⟩ := ih
    have hw := hx.weight
    have hdown := (hx.stake i).worth_le
    have hup := (hx.stake i).le_worth
    simp only [List.map_cons, List.sum_cons, List.length_cons, Nat.cast_add, Nat.cast_one,
      stakeWorth, hw] at hle hge ⊢
    constructor <;> linarith

/-- At its checkpoint a stake is worth what is pending; all stakes together have the accruals of the pool. -/
theorem RewardsSettled.total_pending {p q : Pool} {xs ys : List Holding}
    (hk : (q.rewards.get i).Kept)
    (hb : ∀ x ∈ xs, (x.position.stakes.get i).checkpoint.val ≤ (q.rewards.get i).perLiquidity.val)
    (h : List.Forall₂ (fun x y => p.RewardsSettled x.position now q y.position) xs ys) :
    (ys.map fun y => stakeWorth i y.position).sum =
      (ys.map fun y => (y.position.stakes.get i).pending.val).sum * 2 ^ 64 -
        (ys.map fun y => y.position.weight).sum * ((q.rewards.get i).perLiquidity.val / 2 ^ 128) := by
  induction h with
  | nil => simp
  | @cons x y xs ys hx _ ih =>
    rw [List.forall_mem_cons] at hb
    have hc : ((y.position.stakes.get i).checkpoint.val : ℚ) = (q.rewards.get i).perLiquidity.val := by
      exact_mod_cast (hx.stake i).checkpoint_eq hk hb.1
    have ih := ih hb.2
    simp only [List.map_cons, List.sum_cons, Nat.cast_add, stakeWorth, Stake.worth, hc] at ih ⊢
    rw [ih]
    ring

/-- What the stakes of a slot are due, what its idle seconds stand for, and what it still has to stream. -/
def Ledger.rewardOwed (i : SlotIndex) (m : Ledger) (now : Point) (idle : Amount) : Nat :=
  (m.total fun x => (x.stakes.get i).pending.val) + idle.val +
    (m.pool.rewards.get i).rate.val * ((m.pool.rewards.get i).endsAt.val - now.val) / 2 ^ 64

theorem floor_bounds (n : Nat) : ((n / 2 ^ 64 : Nat) : ℚ) * 2 ^ 64 ≤ n ∧
    (n : ℚ) < ((n / 2 ^ 64 : Nat) + 1) * 2 ^ 64 := by
  constructor
  · exact_mod_cast Nat.div_mul_le_self n (2 ^ 64)
  · exact_mod_cast Rounding.lt_quotient_down_mul n (Nat.two_pow_pos 64)

theorem toCome_eq {r s : RewardSlot} {L : Nat} (hu : r.Updated L now s) (hs : s.Silent) :
    (s.rate.val : ℚ) * (s.endsAt.val - s.lastUpdate.val) =
      (s.rate.val * (s.endsAt.val - now.val) : Nat) := by
  cases ho : s.opened with
  | false =>
    rw [hs ho]
    simp
  | true =>
    have hlast := hu.reached_of_opened ho
    have hcome : s.endsAt.val - now.val = s.endsAt.val - s.lastUpdate.val := by omega
    rw [hcome, Nat.cast_mul, Nat.cast_sub (by omega)]

/-- Of the worth of a slot and its stakes what is owed in full is all but dust: one for each position, and two for
the idle seconds and for those to come. -/
theorem Ledger.Synchronised.worth_bounds (h : l.Synchronised now m)
    (hl : l.Obeys RewardsKept StakesBehind) (hs : RewardsSilent l.pool)
    (hL : l.pool.liquidity.val = l.total Position.weight) {idle : Amount}
    (hidle : (m.pool.rewards.get i).idleReward = .ok idle) :
    (m.rewardOwed i now idle * 2 ^ 64 : ℚ) ≤ slotWorth i l.pool + l.total (stakeWorth i) ∧
      slotWorth i l.pool + l.total (stakeWorth i) <
        (m.rewardOwed i now idle + l.holdings.length + 2 : ℚ) * 2 ^ 64 + 1 := by
  have hu := h.pool.slot i
  have hkept := hu.kept (hl.pool i)
  have hbehind : ∀ x ∈ l.holdings, (x.position.stakes.get i).checkpoint.val ≤
      (m.pool.rewards.get i).perLiquidity.val :=
    fun x hx => Nat.le_trans (hl.holdings x hx i) hu.accrues
  -- synchronising loses next to nothing
  have hslot := hu.worth_le
  have hslot' := hu.le_worth l.pool.liquidity.isLt.le
  obtain ⟨hstakes, hstakes'⟩ := RewardsSettled.total_worth (i := i) h.holdings
  -- the accruals of the pool are those of its positions
  have hpending := RewardsSettled.total_pending hkept hbehind h.holdings
  have hweight := RewardsSettled.total_weight h.holdings
  have hL : l.pool.liquidity.val = (l.holdings.map fun x => x.position.weight).sum := hL
  rw [hweight, ← hL] at hpending
  -- the stream that is left
  have hcome := toCome_eq hu (hu.silent (hs i))
  have hidle' : (idle.val : ℚ) * 2 ^ 64 ≤ (m.pool.rewards.get i).idleSeconds.val *
      (m.pool.rewards.get i).rate.val := by
    exact_mod_cast RewardSlot.idleReward_ok hidle
  have hidle'' : ((m.pool.rewards.get i).idleSeconds.val : ℚ) * (m.pool.rewards.get i).rate.val <
      (idle.val + 1) * 2 ^ 64 := by
    exact_mod_cast RewardSlot.lt_idleReward hidle
  obtain ⟨hfloor, hfloor'⟩ := floor_bounds
    ((m.pool.rewards.get i).rate.val * ((m.pool.rewards.get i).endsAt.val - now.val))
  unfold RewardSlot.worth at hslot hslot'
  unfold Ledger.rewardOwed slotWorth Ledger.total RewardSlot.worth
  push_cast at hpending hfloor hfloor' hcome ⊢
  constructor
  · linarith
  · linarith

variable {o : Opened} {es : List Event}

theorem Founded.le_rewardWorth (h : Founded o) (hr : Run (Ledger.opened o) es m) (i : SlotIndex) :
    ((rewardsReceived i es * 2 ^ 64 - rewardsPaid i es * 2 ^ 64 + rewardsRevalued i es : Int) : ℚ) ≤
      slotWorth i m.pool + m.total (stakeWorth i) + 4 * es.length * 2 ^ 64 := by
  have hrun := RewardsKept.law.measure_run (P := fun p => -slotWorth i p)
    (X := fun x => -stakeWorth i x)
    (d := fun p c r => ((4 * 2 ^ 64 - (rewardReceived i c * 2 ^ 64 - rewardPaid i c r * 2 ^ 64 +
      revaluation i p c r) : Int) : ℚ))
    (by rw [stakeWorth_blank, neg_zero])
    (fun hf hk hb hp => by
      have hle := (Book.streams_of_perform hf hp i).le_worth (hk i) (hb i)
      push_cast at hle ⊢
      linarith)
    h.rewardsObey hr
  have hstart := h.rewardWorth_opened i
  rw [Ledger.total_neg, Ledger.total_neg, ← flow_intCast, flow_sub, flow_const,
    nsmul_eq_mul, flow_add, flow_sub, flow_mul, flow_mul, ← flow_natCast, ← flow_natCast] at hrun
  unfold rewardsReceived rewardsPaid rewardsRevalued
  push_cast at hrun ⊢
  linarith

theorem Founded.rewardsSilent (h : Founded o) (hr : Run (Ledger.opened o) es m) :
    RewardsSilent m.pool := by
  refine (RewardsSilent.law.run ⟨fun i => ?_, fun _ _ => trivial⟩ hr).pool
  rw [Ledger.opened, h.rewards_get]
  exact fun _ => rfl

/-- Rewards are conserved. As long as every funding of a slot carries its idle seconds forward or finds none, what the
slot has paid and what it owes once everything is brought to date come to no more than it received; and of what it
received all but dust is among them, four of the smallest amounts for each request, one for each position, and two. -/
theorem rewards_are_conserved (h : Founded o) (hr : Run (Ledger.opened o) es m)
    (hes : ∀ e ∈ es, e.SettlesIdle i) {m' : Ledger} (hm : m.synchronise now = .ok m')
    {idle : Amount} (hidle : (m'.pool.rewards.get i).idleReward = .ok idle) :
    rewardsPaid i es + m'.rewardOwed i now idle ≤ rewardsReceived i es ∧
      rewardsReceived i es ≤ rewardsPaid i es + m'.rewardOwed i now idle +
        (4 * es.length + m'.holdings.length + 2) := by
  have hsync := Ledger.synchronise_ok hm
  have hrevalued : rewardsRevalued i es = 0 :=
    List.sum_eq_zero fun x hx => by
      obtain ⟨e, he, rfl⟩ := List.mem_map.1 hx
      exact (hes e he).revaluation
  have hle := h.rewardWorth_le hr i
  have hge := h.le_rewardWorth hr i
  obtain ⟨howed, howed'⟩ := hsync.worth_bounds (RewardsKept.law.run h.rewardsObey hr)
    (h.rewardsSilent hr) (h.liquidity_eq hr) hidle
  rw [hrevalued] at hle hge
  rw [← hsync.holdings.length_eq]
  push_cast at hle hge
  constructor
  · have : ((rewardsPaid i es + m'.rewardOwed i now idle : Nat) : ℚ) * 2 ^ 64 ≤
        (rewardsReceived i es : ℚ) * 2 ^ 64 := by
      push_cast
      linarith
    exact_mod_cast le_of_mul_le_mul_right this (by positivity)
  · have : (rewardsReceived i es : ℚ) * 2 ^ 64 <
        ((rewardsPaid i es + m'.rewardOwed i now idle +
          (4 * es.length + m.holdings.length + 2) : Nat) + 1 : ℚ) * 2 ^ 64 := by
      push_cast
      linarith
    exact Nat.lt_succ_iff.1 (by exact_mod_cast lt_of_mul_lt_mul_right this (by positivity))

end

/-- Half way through the second campaign one of the smallest amounts is missing. -/
theorem rewards_are_conserved_emptySpell : ∃ o es m m' idle, Founded o ∧
    Run (Ledger.opened o) es m ∧ es.map Event.order = (emptySpell true).take 5 ∧
    m.synchronise (.lit 64 129600) = .ok m' ∧ rewardsReceived .first es = 8726400 ∧
    m'.rewardOwed .first (.lit 64 129600) idle = 8726399 ∧
    rewardsPaid .first es + m'.rewardOwed .first (.lit 64 129600) idle ≤
      rewardsReceived .first es ∧
    rewardsReceived .first es ≤ rewardsPaid .first es +
      m'.rewardOwed .first (.lit 64 129600) idle + (4 * es.length + m'.holdings.length + 2) := by
  have h : ((sampleSession ((emptySpell true).take 5)).bind fun s =>
      (s.2.2.synchronise (.lit 64 129600)).toOption.bind fun m =>
        (m.pool.rewards.get .first).idleReward.toOption.map fun idle =>
          decide (s.2.1.map Event.order = (emptySpell true).take 5 ∧
            (∀ e ∈ s.2.1, e.SettlesIdle .first) ∧ rewardsReceived .first s.2.1 = 8726400 ∧
            m.rewardOwed .first (.lit 64 129600) idle = 8726399)) = some true := by
    decide +kernel
  obtain ⟨⟨o, es, m⟩, hs, h⟩ := Option.bind_eq_some_iff.1 h
  obtain ⟨m', hm, h⟩ := Option.bind_eq_some_iff.1 h
  obtain ⟨idle, hidle, h⟩ := Option.map_eq_some_iff.1 h
  simp only [decide_eq_true_eq, toOption_eq_some] at hm hidle h
  obtain ⟨horders, hes, hreceived, howed⟩ := h
  obtain ⟨ho, hr⟩ := sampleSession_eq_some hs
  obtain ⟨hle, hge⟩ := rewards_are_conserved ho.founded hr hes hm hidle
  exact ⟨o, es, m, m', idle, ho.founded, hr, horders, hm, hreceived, howed, hle, hge⟩

end RangePool.Market
