import RangePool.Proofs.Market.Reachable
import RangePool.Proofs.Reward.Stream
/-!
What a reward slot is paid and pays. Claims and withdrawals stay within what the slot received, but for one thing:
idle seconds are paid at the rate of the day, and a funding that does not carry them forward may change it.
-/
set_option autoImplicit false

namespace RangePool

namespace Pool

def idleAt (p : Pool) (i : SlotIndex) (now : Point) : Nat :=
  match (p.rewards.get i).update p.liquidity now with
  | .ok r => r.idleSeconds.val
  | .error _ => 0

theorem RewardsUpdated.slot {p q : Pool} {now : Point} (h : p.RewardsUpdated now q)
    (i : SlotIndex) : (p.rewards.get i).Updated p.liquidity.val now (q.rewards.get i) :=
  RewardSlot.update_ok (h.slots i)

theorem RewardsUpdated.idleAt {p q : Pool} {now : Point} (h : p.RewardsUpdated now q)
    (i : SlotIndex) : p.idleAt i now = (q.rewards.get i).idleSeconds.val := by
  rw [Pool.idleAt, h.slots i]

theorem RewardsSettled.stake {p q : Pool} {x y : Position} {now : Point}
    (h : p.RewardsSettled x now q y) (i : SlotIndex) :
    (x.stakes.get i).Settled x.weight (q.rewards.get i) (y.stakes.get i) := by
  obtain ⟨L, hL, hs⟩ := h.stakes
  rw [hL]
  exact Stake.settle_ok (hs i)

end Pool

theorem RewardSlot.SameStream.refl (r : RewardSlot) : r.SameStream r := ⟨rfl⟩

namespace Market

/-- What arrives of a funding, without what it carries forward. -/
def rewardReceived (i : SlotIndex) : Call → Nat
  | .fundReward _ _ n amount _ _ fee =>
    if SlotIndex.find? n = some i then
      match Transfer.arriving fee amount with
      | .ok u => u.amount.val
      | .error _ => 0
    else 0
  | _ => 0

def rewardPaid (i : SlotIndex) : Call → Receipt → Nat
  | .claimReward n _, .rewardClaimed _ x => if SlotIndex.find? n = some i then x.val else 0
  | .withdrawIdleReward _ _ n _, .idleRewardWithdrawn _ x =>
    if SlotIndex.find? n = some i then x.val else 0
  | _, _ => 0

/-- What the idle seconds gain in rate by a funding that leaves them where they are. -/
def revaluation (i : SlotIndex) : Pool → Call → Receipt → Int
  | p, .fundReward _ _ n _ false clock _, .rewardFunded _ f =>
    if SlotIndex.find? n = some i then
      p.idleAt i clock.time * ((f.rate.val : Int) - (p.rewards.get i).rate.val)
    else 0
  | _, _, _ => 0

def Call.opensReward : Call → Bool
  | .openReward .. => true
  | _ => false

/-- What a request does to a slot and to the stake of its position: with what the slot receives, what it pays,
and what its idle seconds gain. -/
inductive Book.Streams (b : Book) (i : SlotIndex) (c : Call) (b' : Book) :
    Nat → Nat → Int → Prop
  | rest : b'.pool.liquidity = b.pool.liquidity → b'.position.weight = b.position.weight →
      (b.pool.rewards.get i).SameStream (b'.pool.rewards.get i) →
      b'.position.stakes = b.position.stakes → Streams b i c b' 0 0 0
  | opened : c.opensReward = true → b'.pool.liquidity = b.pool.liquidity →
      b'.position = b.position → (b.pool.rewards.get i).SetUp (b'.pool.rewards.get i) →
      Streams b i c b' 0 0 0
  | settled {now : Point} :
      b'.pool.liquidity.val + b.position.weight = b.pool.liquidity.val + b'.position.weight →
      (b.pool.rewards.get i).Updated b.pool.liquidity.val now (b'.pool.rewards.get i) →
      (b.position.stakes.get i).Settled b.position.weight (b'.pool.rewards.get i)
        (b'.position.stakes.get i) → Streams b i c b' 0 0 0
  | claimed {now : Point} {s : Stake} {sum : Amount} :
      b'.pool.liquidity = b.pool.liquidity → b'.position.weight = b.position.weight →
      (b.pool.rewards.get i).Updated b.pool.liquidity.val now (b'.pool.rewards.get i) →
      (b.position.stakes.get i).Settled b.position.weight (b'.pool.rewards.get i) s →
      b'.position.stakes.get i = { s with claimed := sum, pending := 0 } →
      Streams b i c b' 0 s.pending.val 0
  | updated {now : Point} {r : RewardSlot} : b'.pool.liquidity = b.pool.liquidity →
      b'.position = b.position → (b.pool.rewards.get i).Updated b.pool.liquidity.val now r →
      r.SameStream (b'.pool.rewards.get i) → Streams b i c b' 0 0 0
  | withdrawn {now : Point} {r : RewardSlot} {x : Amount} :
      b'.pool.liquidity = b.pool.liquidity → b'.position = b.position →
      (b.pool.rewards.get i).Updated b.pool.liquidity.val now r → r.idleReward = .ok x →
      b'.pool.rewards.get i = { r with idleSeconds := 0 } → Streams b i c b' 0 x.val 0
  | funded {now : Point} {r : RewardSlot} {x : Amount} :
      b'.pool.liquidity = b.pool.liquidity → b'.position = b.position →
      (b.pool.rewards.get i).opened = true →
      (b.pool.rewards.get i).Updated b.pool.liquidity.val now r →
      r.Funded now x (b'.pool.rewards.get i) →
      Streams b i c b' x.val 0
        (r.idleSeconds.val * ((b'.pool.rewards.get i).rate.val - r.rate.val : Int))
  | carried {now : Point} {r : RewardSlot} {x idle total : Amount} :
      b'.pool.liquidity = b.pool.liquidity → b'.position = b.position →
      (b.pool.rewards.get i).opened = true →
      (b.pool.rewards.get i).Updated b.pool.liquidity.val now r → r.idleReward = .ok idle →
      RewardSlot.Funded { r with idleSeconds := 0 } now total (b'.pool.rewards.get i) →
      total.val = x.val + idle.val → Streams b i c b' x.val 0 0

section
variable {b b' : Book} {c : Call} {r : Receipt} {i : SlotIndex}

theorem Book.Streams.of_settled {q : Pool} {y : Position} {now : Point}
    (hs : b.pool.RewardsSettled b.position now q y) (hq : b'.pool.rewards = q.rewards)
    (hy : b'.position.stakes = y.stakes)
    (hL : b'.pool.liquidity.val + b.position.weight =
      b.pool.liquidity.val + b'.position.weight) : b.Streams i c b' 0 0 0 := by
  have hslot := hs.updated.slot i
  have hstake := hs.stake i
  rw [← hq] at hslot hstake
  rw [← hy] at hstake
  exact .settled hL hslot hstake

theorem Book.Streams.of_rest (hr : b'.pool.rewards = b.pool.rewards)
    (hL : b'.pool.liquidity = b.pool.liquidity)
    (hw : b'.position.weight = b.position.weight)
    (hs : b'.position.stakes = b.position.stakes) : b.Streams i c b' 0 0 0 :=
  .rest hL hw (by rw [hr]; exact .refl _) hs

theorem SameStream.set {p : Pool} {j : SlotIndex} {s : RewardSlot}
    (h : (p.rewards.get j).SameStream s) (i : SlotIndex) :
    (p.rewards.get i).SameStream ((p.rewards.set j s).get i) :=
  Slots.get_set_of (P := fun i s => (p.rewards.get i).SameStream s) (fun _ => .refl _) h i

theorem Book.streams_of_perform (hc : b.Fits c) (h : b.perform c = .ok (b', r)) (i : SlotIndex) :
    b.Streams i c b' (rewardReceived i c) (rewardPaid i c r) (revaluation i b.pool c r) := by
  have hL := (moves_of_perform hc h).liquidity
  cases c <;> simp only [perform, bind_eq_ok, pure_eq_ok, Prod.mk.injEq, Prod.exists] at h
  case openPosition =>
    obtain ⟨p, x, hx, rfl, rfl⟩ := h
    obtain ⟨hp, hx⟩ := openPosition_ok hx
    have hb : b.position = {} := hc.blank (by simp [Call.subject])
    exact .of_rest (by rw [hp]) (by rw [hp]) (by rw [hx, hb]; rfl) (by rw [hx, hb])
  case closePosition =>
    obtain ⟨p, hp, rfl, rfl⟩ := h
    obtain ⟨hp, -⟩ := closePosition_ok hp
    exact .of_rest (by rw [hp]) (by rw [hp]) rfl rfl
  case addLiquidity =>
    obtain ⟨p, x, m, hm, rfl, rfl⟩ := h
    obtain ⟨q, y, z, hs, hf, -, hp, -, hx, -⟩ := addLiquidity_ok hm
    exact .of_settled hs (by rw [hp]) (by rw [hx, hf.frame]) hL
  case removeLiquidity =>
    obtain ⟨p, x, m, hm, rfl, rfl⟩ := h
    obtain ⟨q, y, z, hs, hf, -, hp, -, hx, -⟩ := removeLiquidity_ok hm
    exact .of_settled hs (by rw [hp]) (by rw [hx, hf.frame]) hL
  case removeAll =>
    obtain ⟨p, x, m, hm, rfl, rfl⟩ := h
    obtain ⟨q, y, z, hs, hf, -, hp, -, hx, -⟩ := removeLiquidity_ok hm
    exact .of_settled hs (by rw [hp]) (by rw [hx, hf.frame]) hL
  case swap =>
    obtain ⟨p, t, ht, rfl, rfl⟩ := h
    obtain ⟨into, out, u, ht, -⟩ := swap_ok ht
    exact .of_rest (by rw [ht.applied.frame]) (by rw [ht.applied.frame]) rfl rfl
  case swapExactOut =>
    obtain ⟨p, t, ht, rfl, rfl⟩ := h
    obtain ⟨into, out, u, v, ht, -⟩ := swapExactOut_ok ht
    exact .of_rest (by rw [ht.applied.frame]) (by rw [ht.applied.frame]) rfl rfl
  case claimFees =>
    obtain ⟨x, paid, hx, rfl, rfl⟩ := h
    obtain ⟨y, hy, -, hx⟩ := claimFees_ok hx
    exact .of_rest rfl rfl (by rw [hx, hy.frame]; rfl) (by rw [hx, hy.frame])
  case lock =>
    obtain ⟨l, hl, rfl, rfl⟩ := h
    obtain ⟨y, z, hs, hf, hr⟩ := lock_ok hl
    exact .of_settled hs rfl (by rw [hr.frame, hf.frame]) hL
  case refresh =>
    obtain ⟨p, x, v, L, hx, rfl, rfl⟩ := h
    obtain ⟨y, z, hs, hf, hr⟩ := refresh_ok hx
    exact .of_settled hs rfl (by rw [hr.frame, hf.frame]) hL
  case lockForever =>
    obtain ⟨p, x, hx, rfl, rfl⟩ := h
    obtain ⟨q, y, z, hs, hf, hr, hp⟩ := lockForever_ok hx
    exact .of_settled hs (by rw [hp]) (by rw [hr.frame, hf.frame]) hL
  case openReward =>
    obtain ⟨p, hp, rfl, rfl⟩ := h
    obtain ⟨j, -, hshut, hp⟩ := openReward_ok hp
    have hpL : p.liquidity = b.pool.liquidity := by rw [hp]
    by_cases hij : j = i
    · subst hij
      have hslot : (b.pool.rewards.get j).SetUp (p.rewards.get j) := by
        rw [hp, Slots.get_set]
        exact ⟨hshut, rfl⟩
      exact .opened rfl hpL rfl hslot
    · refine .rest hpL rfl ?_ rfl
      rw [hp, Slots.get_set_ne _ hij]
      exact .refl _
  case fundReward auth signer n amount carry clock fee =>
    obtain ⟨p, f, hp, rfl, rfl⟩ := h
    obtain ⟨j, q, u, r₀, s, hj, ho, hq, hu, hcarry, hfund, hrate, hp⟩ := fundReward_ok hp
    have hpL : p.liquidity = b.pool.liquidity := by rw [hp, hq.frame]
    by_cases hij : j = i
    · subst hij
      have hslot : p.rewards.get j = s := by rw [hp, Slots.get_set]
      have hfund := RewardSlot.fund_ok hfund
      rw [← hslot] at hfund
      rcases hcarry with ⟨rfl, rfl, idle, hidle, ht⟩ | ⟨rfl, rfl, ht⟩
      · simp only [rewardReceived, rewardPaid, revaluation, hj, if_true, hu]
        exact .carried hpL rfl ho (hq.slot j) hidle hfund ht
      · have hold : (q.rewards.get j).rate = (b.pool.rewards.get j).rate := by
          rw [(hq.slot j).frame]
        simp only [rewardReceived, rewardPaid, revaluation, hj, if_true, hu, hq.idleAt, ← hold,
          hrate, ← hslot]
        rw [ht] at hfund
        exact .funded hpL rfl ho (hq.slot j) hfund
    · have hrest (c : Call) : b.Streams i c { b with pool := p } 0 0 0 := by
        refine .updated hpL rfl (hq.slot i) ?_
        rw [hp, Slots.get_set_ne _ hij]
        exact .refl _
      cases carry <;>
      · simp only [rewardReceived, rewardPaid, revaluation, hj, Option.some.injEq, hij, if_false]
        exact hrest _
  case claimReward =>
    obtain ⟨p, x, reward, hx, rfl, rfl⟩ := h
    obtain ⟨j, y, a, hj, hs, rfl, hx'⟩ := claimReward_ok hx
    have hw : x.weight = b.position.weight := by rw [hx', hs.frame]; rfl
    by_cases hij : j = i
    · subst hij
      have hp : p.liquidity = b.pool.liquidity := by rw [hs.updated.frame]
      have hstake : x.stakes.get j = { y.stakes.get j with claimed := a, pending := 0 } := by
        rw [hx', Slots.get_set]
      simp only [rewardReceived, rewardPaid, revaluation, hj, if_true]
      exact .claimed hp hw (hs.updated.slot j) (hs.stake j) hstake
    · simp only [rewardReceived, rewardPaid, revaluation, hj, Option.some.injEq, hij, if_false]
      refine .settled hL (hs.updated.slot i) ?_
      rw [hx', Slots.get_set_ne _ hij]
      exact hs.stake i
  case withdrawIdleReward =>
    obtain ⟨p, x, hp, rfl, rfl⟩ := h
    obtain ⟨j, q, hj, hq, hidle, hp⟩ := withdrawIdleReward_ok hp
    have hpL : p.liquidity = b.pool.liquidity := by rw [hp, hq.frame]
    by_cases hij : j = i
    · subst hij
      simp only [rewardReceived, rewardPaid, revaluation, hj, if_true]
      exact .withdrawn hpL rfl (hq.slot j) hidle (by rw [hp, Slots.get_set])
    · simp only [rewardReceived, rewardPaid, revaluation, hj, Option.some.injEq, hij, if_false]
      refine .updated hpL rfl (hq.slot i) ?_
      rw [hp, Slots.get_set_ne _ hij]
      exact .refl _
  case changeRewardDuration =>
    obtain ⟨p, hp, rfl, rfl⟩ := h
    obtain ⟨j, hp⟩ := changeRewardDuration_ok hp
    refine .rest (by rw [hp]) rfl ?_ rfl
    rw [hp]
    refine SameStream.set ?_ i
    exact ⟨rfl⟩
  case changeRewardFunder =>
    obtain ⟨p, hp, rfl, rfl⟩ := h
    obtain ⟨j, q, hq, hp⟩ := changeRewardFunder_ok hp
    refine .updated (by rw [hp, hq.frame]) rfl (hq.slot i) ?_
    rw [hp]
    refine SameStream.set ?_ i
    exact ⟨rfl⟩
  case claimProtocolFees =>
    obtain ⟨p, x, hp, rfl, rfl⟩ := h
    obtain ⟨hp, -⟩ := claimProtocolFees_ok hp
    exact .of_rest (by rw [hp]) (by rw [hp]) rfl rfl
  case claimPartnerFees =>
    obtain ⟨p, x, hp, rfl, rfl⟩ := h
    obtain ⟨hp, -⟩ := claimPartnerFees_ok hp
    exact .of_rest (by rw [hp]) (by rw [hp]) rfl rfl
  case changeStatus =>
    obtain ⟨p, hp, rfl, rfl⟩ := h
    have hp := changeStatus_ok hp
    exact .of_rest (by rw [hp]) (by rw [hp]) rfl rfl

def StakesBehind (p : Pool) (x : Position) : Prop :=
  ∀ i, (x.stakes.get i).checkpoint.val ≤ (p.rewards.get i).perLiquidity.val

def RewardsKept (p : Pool) : Prop := ∀ i, (p.rewards.get i).Kept

theorem Book.Streams.accrues {received paid : Nat} {revalued : Int}
    (h : b.Streams i c b' received paid revalued) :
    (b.pool.rewards.get i).perLiquidity.val ≤ (b'.pool.rewards.get i).perLiquidity.val := by
  cases h with
  | rest _ _ hr _ => rw [hr.frame]
  | opened _ _ _ hr => rw [hr.frame]
  | settled _ hr _ => exact hr.accrues
  | claimed _ _ hr _ _ => exact hr.accrues
  | updated _ _ hr hs => rw [hs.frame]; exact hr.accrues
  | withdrawn _ _ hr _ hs => rw [hs]; exact hr.accrues
  | funded _ _ _ hr hs => rw [hs.frame]; exact hr.accrues
  | carried _ _ _ hr _ hs _ => rw [hs.frame]; exact hr.accrues

theorem Book.Streams.sameToken {received paid : Nat} {revalued : Int}
    (h : b.Streams i c b' received paid revalued)
    (hc : c.opensReward = false ∨ (b.pool.rewards.get i).opened = true) :
    (b.pool.rewards.get i).SameToken (b'.pool.rewards.get i) := by
  cases h with
  | rest _ _ hr _ => exact hr.sameToken
  | opened ho _ _ hr =>
    rw [ho, hr.shut] at hc
    simp at hc
  | settled _ hr _ => exact hr.sameToken
  | claimed _ _ hr _ _ => exact hr.sameToken
  | updated _ _ hr hs => exact hr.sameToken.trans hs.sameToken
  | withdrawn _ _ hr _ hs =>
    rw [hs]
    exact hr.sameToken.trans ⟨rfl, rfl, rfl⟩
  | funded _ _ _ hr hs => exact hr.sameToken.trans hs.sameToken
  | @carried _ r _ _ _ _ _ _ hr _ hs _ =>
    have hforgets : r.SameToken { r with idleSeconds := 0 } := ⟨rfl, rfl, rfl⟩
    exact (hr.sameToken.trans hforgets).trans hs.sameToken

theorem Book.Streams.kept {received paid : Nat} {revalued : Int}
    (h : b.Streams i c b' received paid revalued) (hb : (b.pool.rewards.get i).Kept) :
    (b'.pool.rewards.get i).Kept := by
  cases h with
  | rest _ _ hr _ => exact hr.kept hb
  | opened _ _ _ hr => exact hr.kept hb
  | settled _ hr _ => exact hr.kept hb
  | claimed _ _ hr _ _ => exact hr.kept hb
  | updated _ _ hr hs => exact hs.kept (hr.kept hb)
  | withdrawn _ _ hr _ hs =>
    rw [hs]
    exact ⟨(hr.kept hb).unopened, (hr.kept hb).inTime⟩
  | funded _ _ ho hr hs => exact hs.kept (hr.opened.trans ho)
  | carried _ _ ho hr _ hs _ => exact hs.kept (hr.opened.trans ho)

theorem Book.Streams.behind {received paid : Nat} {revalued : Int}
    (h : b.Streams i c b' received paid revalued) (hk : (b.pool.rewards.get i).Kept)
    (hb : (b.position.stakes.get i).checkpoint.val ≤ (b.pool.rewards.get i).perLiquidity.val) :
    (b'.position.stakes.get i).checkpoint.val ≤ (b'.pool.rewards.get i).perLiquidity.val := by
  have hle := Nat.le_trans hb h.accrues
  have hk' := h.kept hk
  cases h with
  | rest _ _ _ hs => rw [hs]; exact hle
  | opened _ _ hx _ => rw [hx]; exact hle
  | settled _ _ hs => exact (hs.checkpoint_eq hk' hle).le
  | claimed _ _ _ hs hc => rw [hc]; exact (hs.checkpoint_eq hk' hle).le
  | updated _ hx _ _ => rw [hx]; exact hle
  | withdrawn _ hx _ _ _ => rw [hx]; exact hle
  | funded _ hx _ _ _ => rw [hx]; exact hle
  | carried _ hx _ _ _ _ _ => rw [hx]; exact hle

def slotWorth (i : SlotIndex) (p : Pool) : ℚ := (p.rewards.get i).worth p.liquidity.val

def stakeWorth (i : SlotIndex) (x : Position) : ℚ := (x.stakes.get i).worth x.weight

/-- No request raises the worth of a slot and its stakes by more than it receives and gains by revaluation, or
lowers it by less than it pays. -/
theorem Book.Streams.worth {received paid : Nat} {revalued : Int}
    (h : b.Streams i c b' received paid revalued) (hk : (b.pool.rewards.get i).Kept)
    (hb : (b.position.stakes.get i).checkpoint.val ≤ (b.pool.rewards.get i).perLiquidity.val) :
    slotWorth i b'.pool + stakeWorth i b'.position ≤
      slotWorth i b.pool + stakeWorth i b.position +
        ((received * 2 ^ 64 - paid * 2 ^ 64 + revalued : Int) : ℚ) := by
  have hle := Nat.le_trans hb h.accrues
  have hk' := h.kept hk
  unfold slotWorth stakeWorth
  push_cast
  cases h with
  | rest hL hw hr hs =>
    rw [hL, hw, hs, hr.worth_eq]
    simp
  | opened _ hL hx hr =>
    rw [hL, hx, hr.worth_eq]
    simp
  | settled hL hr hs =>
    have hslot := hr.worth_le
    have hstake := hs.worth_le
    rw [Stake.worth_moved (hs.checkpoint_eq hk' hle) hL]
    push_cast
    linarith
  | @claimed now s sum hL hw hr hs hc =>
    have hslot := hr.worth_le
    have hstake := hs.worth_le
    rw [hL, hw, hc, Stake.worth_claimed]
    push_cast
    linarith
  | updated hL hx hr hs =>
    have hslot := hr.worth_le
    rw [hL, hx, hs.worth_eq]
    push_cast
    linarith
  | withdrawn hL hx hr hidle hs =>
    have hslot := hr.worth_le
    have hpaid := RewardSlot.worth_idle hidle b.pool.liquidity.val
    rw [hL, hx, hs]
    push_cast
    linarith
  | funded hL hx ho hr hs =>
    have hslot := hr.worth_le
    have hends := hr.reached ho
    have hfund := hs.worth_le (L := b.pool.liquidity.val) (by rw [hends, hr.frame])
    rw [hL, hx]
    push_cast
    linarith
  | @carried now r x idle total hL hx ho hr hidle hs ht =>
    have hslot := hr.worth_le
    have hends := hr.reached ho
    have hpaid := RewardSlot.worth_idle hidle b.pool.liquidity.val
    have hlast : r.lastUpdate.val = min now.val r.endsAt.val := by rw [hends, hr.frame]
    have hfund := hs.worth_le (L := b.pool.liquidity.val) hlast
    have ht : (total.val : ℚ) = x.val + idle.val := by exact_mod_cast ht
    simp only [Word.val_zero, Nat.cast_zero, zero_mul, add_zero] at hfund
    rw [hL, hx]
    push_cast
    linarith

end

theorem RewardsKept.law : Law RewardsKept StakesBehind where
  pool hf hp h i := (Book.streams_of_perform hf h i).kept (hp i)
  here hf hp hx h i := (Book.streams_of_perform hf h i).behind (hp i) (hx i)
  others hf _ hx h i := Nat.le_trans (hx i) (Book.streams_of_perform hf h i).accrues
  blank _ _ i := by cases i <;> exact Nat.zero_le _

section
variable {o : Opened} {es : List Event} {m : Ledger}

theorem Founded.rewards_get (h : Founded o) (i : SlotIndex) : o.pool.rewards.get i = {} := by
  rw [h.untouched.rewards, Slots.get_both]

theorem Founded.rewardsObey (h : Founded o) :
    (Ledger.opened o).Obeys RewardsKept StakesBehind := by
  refine ⟨fun i => ?_, fun x hx i => ?_⟩
  · show RewardSlot.Kept (o.pool.rewards.get i)
    rw [h.rewards_get]
    exact ⟨fun _ => rfl, Nat.le_refl _⟩
  · obtain ⟨_, _, hp⟩ := h.untouched.position
    rw [List.mem_singleton.1 hx, hp]
    cases i <;> exact Nat.zero_le _

def rewardsReceived (i : SlotIndex) (es : List Event) : Nat := flow es fun _ c _ => rewardReceived i c
def rewardsPaid (i : SlotIndex) (es : List Event) : Nat := flow es fun _ c r => rewardPaid i c r
def rewardsRevalued (i : SlotIndex) (es : List Event) : Int := flow es (revaluation i)

theorem Ledger.rewardWorth_nonneg (h : m.Obeys RewardsKept StakesBehind)
    (hL : m.pool.liquidity.val = m.total Position.weight) (i : SlotIndex) :
    0 ≤ slotWorth i m.pool + m.total (stakeWorth i) := by
  have hx : m.total (fun x => -(x.weight : ℚ) * ((m.pool.rewards.get i).perLiquidity.val / 2 ^ 128)) ≤
      m.total (stakeWorth i) := by
    refine Ledger.total_le fun x hx => ?_
    have hc : ((x.position.stakes.get i).checkpoint.val : ℚ) ≤
        (m.pool.rewards.get i).perLiquidity.val := by
      exact_mod_cast h.holdings x hx i
    have hw : (x.position.weight : ℚ) * ((x.position.stakes.get i).checkpoint.val / 2 ^ 128) ≤
        x.position.weight * ((m.pool.rewards.get i).perLiquidity.val / 2 ^ 128) := by
      gcongr
    have hp : (0 : ℚ) ≤ (x.position.stakes.get i).pending.val * 2 ^ 64 := by positivity
    rw [stakeWorth, Stake.worth]
    linarith
  rw [Ledger.total_mul, Ledger.total_neg, ← Ledger.total_cast, ← hL] at hx
  have htime : ((m.pool.rewards.get i).lastUpdate.val : ℚ) ≤ (m.pool.rewards.get i).endsAt.val := by
    exact_mod_cast (h.pool i).inTime
  have hstream : (0 : ℚ) ≤ (m.pool.rewards.get i).rate.val *
      ((m.pool.rewards.get i).idleSeconds.val + (m.pool.rewards.get i).endsAt.val -
        (m.pool.rewards.get i).lastUpdate.val) := by
    apply mul_nonneg (by positivity)
    linarith [Nat.cast_nonneg (α := ℚ) (m.pool.rewards.get i).idleSeconds.val]
  rw [slotWorth, RewardSlot.worth]
  linarith

theorem Founded.rewardWorth_opened (h : Founded o) (i : SlotIndex) :
    slotWorth i (Ledger.opened o).pool + (Ledger.opened o).total (stakeWorth i) = 0 := by
  obtain ⟨_, _, hp⟩ := h.untouched.position
  have hslot : (Ledger.opened o).pool.rewards.get i = {} := h.rewards_get i
  rw [slotWorth, hslot]
  cases i <;> simp [RewardSlot.worth, Ledger.total, Ledger.opened, hp, stakeWorth, Stake.worth,
    Slots.get, Slots.both]

theorem stakeWorth_blank (i : SlotIndex) : stakeWorth i {} = 0 := by
  cases i <;> simp [stakeWorth, Stake.worth, Position.weight, Slots.get, Slots.both]

/-- What a slot and its stakes still have to answer for was received, or gained in rate, and was not paid yet. -/
theorem Founded.rewardWorth_le (h : Founded o) (hr : Run (Ledger.opened o) es m) (i : SlotIndex) :
    slotWorth i m.pool + m.total (stakeWorth i) ≤
      ((rewardsReceived i es * 2 ^ 64 - rewardsPaid i es * 2 ^ 64 + rewardsRevalued i es : Int) : ℚ) := by
  have hrun := RewardsKept.law.measure_run (P := slotWorth i) (X := stakeWorth i)
    (d := fun p c r => ((rewardReceived i c * 2 ^ 64 - rewardPaid i c r * 2 ^ 64 +
      revaluation i p c r : Int) : ℚ))
    (stakeWorth_blank i)
    (fun hf hk hb hp => (Book.streams_of_perform hf hp i).worth (hk i) (hb i))
    h.rewardsObey hr
  rw [h.rewardWorth_opened, zero_add, ← flow_intCast, flow_add, flow_sub, flow_mul, flow_mul,
    ← flow_natCast, ← flow_natCast] at hrun
  exact hrun

/-- Over every run a slot pays at most what it received and what its idle seconds gained in rate. It pays no more
than it received as long as no funding that leaves idle seconds where they are raises the rate. -/
theorem rewardsPaid_le (ho : Opening o) (hr : Run (Ledger.opened o) es m) (i : SlotIndex) :
    (rewardsPaid i es * 2 ^ 64 : Int) ≤ rewardsReceived i es * 2 ^ 64 + rewardsRevalued i es ∧
      ((∀ e ∈ es, revaluation i e.before.pool e.order.call e.receipt ≤ 0) →
        rewardsPaid i es ≤ rewardsReceived i es) := by
  have hrun := ho.founded.rewardWorth_le hr i
  have hend := Ledger.rewardWorth_nonneg (RewardsKept.law.run ho.founded.rewardsObey hr)
    (ho.liquidity_eq hr) i
  have hflow := hend.trans hrun
  rw [Int.cast_nonneg_iff] at hflow
  have hle : (rewardsPaid i es * 2 ^ 64 : Int) ≤
      rewardsReceived i es * 2 ^ 64 + rewardsRevalued i es := by
    linarith
  refine ⟨hle, fun hall => ?_⟩
  have hnonpos : rewardsRevalued i es ≤ 0 := flow_nonpos hall
  omega

end

/-- A campaign of one unit a second runs for a day in an empty pool and is then followed by one of a hundred. The
liquidity comes back for it, and both it and the funder take what they are due in the end. -/
def emptySpell (carry : Bool) : List Order :=
  let admin : Key := ⟨.lit 256 100⟩
  let auth : Authority := { admins := [admin] }
  let day : Clock := { time := .lit 64 86400 }
  let nextDay : Clock := { time := .lit 64 172800 }
  [{ call := .openReward auth admin 0 (.lit 64 86400) admin .none .none },
    { call := .removeAll (.both 0) {} (.both none) },
    { call := .fundReward auth admin 0 (.lit 64 86400) false {} none },
    { call := .fundReward auth admin 0 (.lit 64 8640000) carry day none },
    { call := .addLiquidity sampleTerms.liquidity (.both .top) day (.both none) },
    { call := .claimReward 0 nextDay },
    { call := .withdrawIdleReward auth admin 0 nextDay }]

theorem rewardsPaid_le_carried : ∃ o es m, Opening o ∧ Run (Ledger.opened o) es m ∧
    es.map Event.order = emptySpell true ∧
    (∀ e ∈ es, revaluation .first e.before.pool e.order.call e.receipt ≤ 0) ∧
    (rewardsPaid .first es * 2 ^ 64 : Int) ≤
      rewardsReceived .first es * 2 ^ 64 + rewardsRevalued .first es ∧
    rewardsPaid .first es ≤ rewardsReceived .first es := by
  have h : ((sampleSession (emptySpell true)).map fun s => (s.2.1.map Event.order,
      decide (∀ e ∈ s.2.1, revaluation .first e.before.pool e.order.call e.receipt ≤ 0))) =
      some (emptySpell true, true) := by decide +kernel
  obtain ⟨⟨o, es, m⟩, hs, hes⟩ := Option.map_eq_some_iff.1 h
  obtain ⟨ho, hr⟩ := sampleSession_eq_some hs
  simp only [Prod.mk.injEq, decide_eq_true_eq] at hes
  obtain ⟨horders, hnone⟩ := hes
  obtain ⟨hle, hplain⟩ := rewardsPaid_le ho hr .first
  exact ⟨o, es, m, ho, hr, horders, hnone, hle, hplain hnone⟩

/-- Without carrying, the day of 86400 idle seconds is paid at the hundredfold rate. -/
theorem rewardsPaid_exceeds : ∃ o es m, Opening o ∧ Run (Ledger.opened o) es m ∧
    es.map Event.order = emptySpell false ∧ InOrder (emptySpell false) ∧
    rewardsReceived .first es < rewardsPaid .first es := by
  have h : ((sampleSession (emptySpell false)).map fun s =>
      (s.2.1.map Event.order, rewardsReceived .first s.2.1, rewardsPaid .first s.2.1)) =
      some (emptySpell false, 8726400, 17279999) := by decide +kernel
  obtain ⟨⟨o, es, m⟩, hs, hes⟩ := Option.map_eq_some_iff.1 h
  obtain ⟨ho, hr⟩ := sampleSession_eq_some hs
  simp only [Prod.mk.injEq] at hes
  obtain ⟨horders, hreceived, hpaid⟩ := hes
  exact ⟨o, es, m, ho, hr, horders, by decide +kernel, by omega⟩

end Market

end RangePool
