import RangePool.Proofs.Market.Commuting
import RangePool.Proofs.Market.Rewards
/-!
Why the stream of a reward slot never overflows. Its rate is set by a funding alone, and from an amount that fits; from
then on what there is left to stream only shrinks. So whatever a slot computes of its stream at a later time fits too,
and what a funding finds left over is never more than what the campaign was funded with.
-/
set_option autoImplicit false

namespace RangePool

namespace RewardSlot

structure Continued (r : RewardSlot) (clock? : Option Clock) (r' : RewardSlot) : Prop where
  rate : r'.rate = r.rate
  endsAt : r'.endsAt = r.endsAt
  advances : r.lastUpdate.val ≤ r'.lastUpdate.val
  reached : r'.lastUpdate = r.lastUpdate ∨
    ∃ c ∈ clock?, r'.lastUpdate.val = min c.time.val r.endsAt.val

/-- A slot that is not ahead of its campaign has no more to stream than the amount that its rate was computed from. -/
structure Covered (r : RewardSlot) (basis : Nat) : Prop where
  inTime : r.lastUpdate.val ≤ r.endsAt.val
  stream_le : r.rate.val * (r.endsAt.val - r.lastUpdate.val) ≤ basis * 2 ^ 64
  basis_lt : basis < 2 ^ 64

/-- What a slot computes of its stream at `now` does not fail, and what is left then is at most `basis`. -/
structure Flows (r : RewardSlot) (now : Point) (basis : Nat) : Prop where
  streamed : ∃ d total, r.elapsed now = .ok d ∧ (d.widen 128).mul r.rate = .ok total
  accrued : ∀ L, L ≠ 0 → ∃ gain, r.accrued now L = .ok gain
  leftover : ∃ left, r.leftover now = .ok left ∧ left.val ≤ basis

section
variable {r q r' : RewardSlot} {clock? : Option Clock} {now : Point} {basis : Nat}

theorem Continued.refl (r : RewardSlot) (clock? : Option Clock) : r.Continued clock? r :=
  ⟨rfl, rfl, Nat.le_refl _, .inl rfl⟩

theorem Continued.of_update {L : Liquidity} {clock : Clock} (h : r.update L clock.time = .ok r') :
    r.Continued (some clock) r' := by
  cases ho : r.opened with
  | false =>
    rw [(update_ok h).unopened ho]
    exact .refl _ _
  | true =>
    obtain ⟨seconds, hp⟩ := update_passed ho h
    have hlast := hp.lastUpdate
    exact ⟨by rw [hp.frame], by rw [hp.frame], by omega, .inr ⟨clock, rfl, hp.reached⟩⟩

theorem Continued.congr (h : r.Continued clock? q) (hrate : r'.rate = q.rate)
    (hends : r'.endsAt = q.endsAt) (hlast : r'.lastUpdate = q.lastUpdate) :
    r.Continued clock? r' := by
  refine ⟨hrate.trans h.rate, hends.trans h.endsAt, ?_, ?_⟩
  · rw [hlast]
    exact h.advances
  · rw [hlast]
    exact h.reached

theorem Continued.set {rewards rewards' : Slots RewardSlot} {j : SlotIndex} {s : RewardSlot}
    (h : ∀ i, (rewards.get i).Continued clock? (rewards'.get i))
    (hrate : s.rate = (rewards'.get j).rate) (hends : s.endsAt = (rewards'.get j).endsAt)
    (hlast : s.lastUpdate = (rewards'.get j).lastUpdate) (i : SlotIndex) :
    (rewards.get i).Continued clock? ((rewards'.set j s).get i) :=
  Slots.get_set_of (P := fun i s => (rewards.get i).Continued clock? s) h
    ((h j).congr hrate hends hlast) i

theorem Continued.covered (h : r.Continued clock? r') (hr : r.Covered basis) : r'.Covered basis := by
  have hintime := hr.inTime
  refine ⟨?_, ?_, hr.basis_lt⟩
  · rw [h.endsAt]
    rcases h.reached with hsame | ⟨c, -, hreached⟩
    · rw [hsame]
      exact hintime
    · omega
  · rw [h.rate, h.endsAt]
    exact Nat.le_trans (Nat.mul_le_mul_left _ (Nat.sub_le_sub_left h.advances _)) hr.stream_le

theorem Started.covered {x left : Amount} (h : r.Started now x left r') :
    r'.Covered (left.val + x.val) := by
  have hends := h.endsAt
  refine ⟨?_, ?_, h.total_lt⟩
  · rw [h.lastUpdate]
    omega
  · rw [h.lastUpdate, hends, Nat.add_sub_cancel_left]
    exact h.rate_bounds.1

theorem Started.streams {x left : Amount} (h : r.Started now x left r') :
    left.val + x.val - 1 ≤ r'.rate.val * r'.duration.val / 2 ^ 64 ∧
      r'.rate.val * r'.duration.val / 2 ^ 64 ≤ left.val + x.val := by
  obtain ⟨hle, hlt⟩ := h.rate_bounds
  have hduration : r.duration.val ≤ 2 ^ 64 := r.duration.isLt.le
  rw [h.duration]
  constructor
  · rw [Nat.le_div_iff_mul_le (Nat.two_pow_pos 64), Nat.sub_mul]
    omega
  · exact Nat.div_le_of_le_mul (hle.trans_eq (Nat.mul_comm _ _))

theorem Started.congr {x left : Amount} (h : q.Started now x left r') (hrate : q.rate = r.rate)
    (hends : q.endsAt = r.endsAt) (hduration : q.duration = r.duration) :
    r.Started now x left r' := by
  have hleft := leftover_eq_ok.1 h.leftover
  rw [remaining, hrate, hends] at hleft
  exact ⟨leftover_eq_ok.2 hleft, h.total_lt, hduration ▸ h.duration_pos, hduration ▸ h.rate,
    h.lastUpdate, hduration ▸ h.endsAt, h.duration.trans hduration⟩

theorem Covered.stream_lt (h : r.Covered basis) :
    r.rate.val * (r.endsAt.val - r.lastUpdate.val) < 2 ^ 128 :=
  Nat.lt_of_le_of_lt h.stream_le (Nat.mul_lt_mul_of_pos_right h.basis_lt (Nat.two_pow_pos 64))

theorem Covered.exists_leftover (h : r.Covered basis) (hnow : r.lastUpdate.val ≤ now.val) :
    ∃ left, r.leftover now = .ok left ∧ left.val ≤ basis := by
  have hle : r.remaining now ≤ basis := by
    have hshrinks : r.rate.val * (r.endsAt.val - now.val) ≤ basis * 2 ^ 64 :=
      Nat.le_trans (Nat.mul_le_mul_left _ (Nat.sub_le_sub_left hnow _)) h.stream_le
    exact (Nat.div_le_div_right hshrinks).trans_eq (Nat.mul_div_cancel _ (Nat.two_pow_pos 64))
  exact ⟨⟨_, Nat.lt_of_le_of_lt hle h.basis_lt⟩, leftover_eq_ok.2 rfl, hle⟩

theorem Covered.flows (h : r.Covered basis) (hnow : r.lastUpdate.val ≤ now.val) :
    r.Flows now basis := by
  obtain ⟨d, total, hd, htotal⟩ := exists_streamed h.inTime h.stream_lt hnow
  refine ⟨⟨d, total, hd, htotal⟩, fun L hL => ?_, h.exists_leftover hnow⟩
  obtain ⟨gain, hgain, -⟩ := exists_accrued hd htotal hL
  exact ⟨gain, hgain⟩

end

end RewardSlot

theorem Pool.RewardsUpdated.continued {p q : Pool} {clock : Clock}
    (h : p.RewardsUpdated clock.time q) (i : SlotIndex) :
    (p.rewards.get i).Continued (some clock) (q.rewards.get i) :=
  .of_update (h.slots i)

namespace Market

def funding? (i : SlotIndex) : Call → Receipt → Option (Point × Amount)
  | .fundReward _ _ n _ _ clock _, .rewardFunded _ f =>
    if SlotIndex.find? n = some i then some (clock.time, f.total) else none
  | _, _ => none

section
variable {b b' : Book} {c : Call} {r : Receipt} {i : SlotIndex}

theorem Accrues.continued {p q : Pool} {clock? : Option Clock} (h : Accrues p q clock?)
    (i : SlotIndex) : (p.rewards.get i).Continued clock? (q.rewards.get i) := by
  cases clock? with
  | none =>
    rw [h.1]
    exact .refl _ _
  | some clock => exact .of_update (Slots.mapM_eq_ok.1 h i)

theorem Book.continued_of_perform (hf : funding? i c r = none) (h : b.perform c = .ok (b', r)) :
    (b.pool.rewards.get i).Continued c.clock? (b'.pool.rewards.get i) := by
  by_cases hc : c.subject = .position
  · exact (accrues_of_perform hc h).2.continued i
  have of_same (hr : b'.pool.rewards = b.pool.rewards) :
      (b.pool.rewards.get i).Continued c.clock? (b'.pool.rewards.get i) := by
    rw [hr]
    exact .refl _ _
  cases c <;> simp only [Call.subject, not_true_eq_false] at hc <;>
    simp only [perform, bind_eq_ok, pure_eq_ok, Prod.mk.injEq, Prod.exists] at h
  case openPosition =>
    obtain ⟨p, x, hx, rfl, rfl⟩ := h
    exact of_same (by rw [(openPosition_ok hx).1])
  case swap =>
    obtain ⟨p, t, ht, rfl, rfl⟩ := h
    obtain ⟨into, out, u, ht, -⟩ := swap_ok ht
    exact of_same (by rw [ht.applied.frame])
  case swapExactOut =>
    obtain ⟨p, t, ht, rfl, rfl⟩ := h
    obtain ⟨into, out, u, v, ht, -⟩ := swapExactOut_ok ht
    exact of_same (by rw [ht.applied.frame])
  case openReward =>
    obtain ⟨p, hp, rfl, rfl⟩ := h
    obtain ⟨j, -, -, hp⟩ := openReward_ok hp
    rw [hp]
    refine .set (fun _ => .refl _ _) ?_ ?_ ?_ i <;> rfl
  case fundReward auth signer n amount carry clock fee =>
    obtain ⟨p, f, hp, rfl, rfl⟩ := h
    obtain ⟨j, q, u, r₀, s, hj, -, hq, -, -, -, -, hp⟩ := fundReward_ok hp
    have hij : j ≠ i := by
      rintro rfl
      simp [funding?, hj] at hf
    rw [hp, Slots.get_set_ne _ hij]
    exact hq.continued i
  case withdrawIdleReward =>
    obtain ⟨p, x, hp, rfl, rfl⟩ := h
    obtain ⟨j, q, -, hq, -, hp⟩ := withdrawIdleReward_ok hp
    rw [hp]
    refine .set hq.continued ?_ ?_ ?_ i <;> rfl
  case changeRewardDuration =>
    obtain ⟨p, hp, rfl, rfl⟩ := h
    obtain ⟨j, hp⟩ := changeRewardDuration_ok hp
    rw [hp]
    refine .set (fun _ => .refl _ _) ?_ ?_ ?_ i <;> rfl
  case changeRewardFunder =>
    obtain ⟨p, hp, rfl, rfl⟩ := h
    obtain ⟨j, q, hq, hp⟩ := changeRewardFunder_ok hp
    rw [hp]
    refine .set hq.continued ?_ ?_ ?_ i <;> rfl
  case claimProtocolFees =>
    obtain ⟨p, x, hp, rfl, rfl⟩ := h
    exact of_same (by rw [(claimProtocolFees_ok hp).1])
  case claimPartnerFees =>
    obtain ⟨p, x, hp, rfl, rfl⟩ := h
    exact of_same (by rw [(claimPartnerFees_ok hp).1])
  case changeStatus =>
    obtain ⟨p, hp, rfl, rfl⟩ := h
    exact of_same (by rw [changeStatus_ok hp])

/-- A funding starts a campaign at the time of its call, with what the slot had left over before the call. -/
theorem Book.started_of_perform {now : Point} {x : Amount} (hf : funding? i c r = some (now, x))
    (h : b.perform c = .ok (b', r)) :
    (∃ clock ∈ c.clock?, clock.time = now) ∧
      ∃ left, (b.pool.rewards.get i).Started now x left (b'.pool.rewards.get i) := by
  cases c <;> simp only [funding?, reduceCtorEq] at hf
  case fundReward auth signer n amount carry clock fee =>
    simp only [perform, bind_eq_ok, pure_eq_ok, Prod.mk.injEq, Prod.exists] at h
    obtain ⟨p, f, hp, rfl, rfl⟩ := h
    obtain ⟨j, q, u, r₀, s, hj, -, hq, -, hcarry, hfund, -, hp⟩ := fundReward_ok hp
    simp only [Option.ite_none_right_eq_some, Option.some.injEq, Prod.mk.injEq] at hf
    obtain ⟨hi, rfl, rfl⟩ := hf
    obtain rfl : j = i := Option.some.inj (hj.symm.trans hi)
    obtain ⟨-, left, hs⟩ := RewardSlot.fund_started hfund
    have hslot := (hq.slot j).frame
    have hsame : r₀.rate = (b.pool.rewards.get j).rate ∧
        r₀.endsAt = (b.pool.rewards.get j).endsAt ∧
        r₀.duration = (b.pool.rewards.get j).duration := by
      rcases hcarry with ⟨-, rfl, -⟩ | ⟨-, rfl, -⟩ <;>
      · rw [hslot]
        exact ⟨rfl, rfl, rfl⟩
    have hnew : p.rewards.get j = s := by rw [hp, Slots.get_set]
    rw [← hnew] at hs
    exact ⟨⟨clock, rfl, rfl⟩, left, hs.congr hsame.1 hsame.2.1 hsame.2.2⟩

end

/-- The amount that the rate of a slot was computed from: what the slot still had to stream when it was last funded, and
what it was funded with. -/
def rateBasis (i : SlotIndex) (es : List Event) : Nat :=
  es.foldl (fun basis e =>
    match funding? i e.order.call e.receipt with
    | some (now, x) => (e.before.pool.rewards.get i).remaining now + x.val
    | none => basis) 0

section
variable {l m : Ledger} {x : Order} {r : Receipt} {i : SlotIndex}

theorem Ledger.Step.covered {es : List Event} (h : l.Step x r m)
    (hl : (l.pool.rewards.get i).Covered (rateBasis i es)) :
    (m.pool.rewards.get i).Covered (rateBasis i (es ++ [⟨l, x, r⟩])) := by
  obtain ⟨b, b', -, hb, hb', hperform⟩ := h.exists_book
  rw [← hb] at hl
  rw [← hb', rateBasis, List.foldl_append]
  cases hf : funding? i x.call r with
  | none =>
    simp only [List.foldl_cons, List.foldl_nil, hf]
    exact (Book.continued_of_perform hf hperform).covered hl
  | some f =>
    obtain ⟨-, left, hs⟩ := Book.started_of_perform hf hperform
    have hleft := RewardSlot.leftover_eq_ok.1 hs.leftover
    simp only [List.foldl_cons, List.foldl_nil, hf]
    rw [← hb, hleft]
    exact hs.covered

theorem Ledger.Step.notAhead {now : Point} (h : l.Step x r m)
    (hl : (l.pool.rewards.get i).lastUpdate ≤ now) (htime : ∀ c ∈ x.call.clock?, c.time ≤ now) :
    (m.pool.rewards.get i).lastUpdate ≤ now := by
  obtain ⟨b, b', -, hb, hb', hperform⟩ := h.exists_book
  rw [← hb] at hl
  rw [← hb']
  cases hf : funding? i x.call r with
  | none =>
    rcases (Book.continued_of_perform hf hperform).reached with hsame | ⟨c, hc, hreached⟩
    · rw [hsame]
      exact hl
    · exact hreached.trans_le (Nat.le_trans (Nat.min_le_left _ _) (htime c hc))
  | some f =>
    obtain ⟨⟨c, hc, hnow⟩, left, hs⟩ := Book.started_of_perform hf hperform
    rw [hs.lastUpdate, ← hnow]
    exact htime c hc

end

section
variable {o : Opened} {es : List Event} {m : Ledger}

/-- By induction on the run: what a slot has to stream stays within what its rate was computed from. -/
theorem Founded.reaches_covered (h : Founded o) (hr : Run (Ledger.opened o) es m) (i : SlotIndex) :
    (m.pool.rewards.get i).Covered (rateBasis i es) := by
  induction hr with
  | nil =>
    rw [Ledger.opened, h.rewards_get]
    show RewardSlot.Covered {} 0
    exact ⟨Nat.le_refl _, by decide, by decide⟩
  | snoc _ hp ih => exact (Ledger.step_of_perform hp).covered ih

theorem Founded.notAhead {now : Point} (h : Founded o) (hr : Run (Ledger.opened o) es m)
    (i : SlotIndex) (htimes : ∀ e ∈ es, ∀ c ∈ e.order.call.clock?, c.time ≤ now) :
    (m.pool.rewards.get i).lastUpdate ≤ now := by
  induction hr with
  | nil =>
    rw [Ledger.opened, h.rewards_get]
    exact Nat.zero_le _
  | @snoc es l n x r _ hp ih =>
    have hbefore := ih fun e he => htimes e (List.mem_append_left _ he)
    exact (Ledger.step_of_perform hp).notAhead hbefore (htimes ⟨l, x, r⟩ (by simp))

/-- In every state that a pool can reach, what a slot still has to stream fits. So at every later time its elapsed
seconds and what they stream can be computed, and what is left over is at most what the rate was computed from. Whoever
funds a slot next gets a rate that streams, over the whole duration, the sum of what was left over and what was funded,
but for at most one unit. -/
theorem stream_never_overflows (ho : Founded o) (hr : Run (Ledger.opened o) es m) (i : SlotIndex) :
    (m.pool.rewards.get i).lastUpdate ≤ (m.pool.rewards.get i).endsAt ∧
    (m.pool.rewards.get i).rate.val *
      ((m.pool.rewards.get i).endsAt.val - (m.pool.rewards.get i).lastUpdate.val) < 2 ^ 128 ∧
    (∀ now, (∀ e ∈ es, ∀ c ∈ e.order.call.clock?, c.time ≤ now) →
      (m.pool.rewards.get i).Flows now (rateBasis i es)) ∧
    ∀ x n r now total, m.perform x = some (n, r) → funding? i x.call r = some (now, total) →
      ∃ left, (m.pool.rewards.get i).leftover now = .ok left ∧
        left.val + total.val - 1 ≤
          (n.pool.rewards.get i).rate.val * (n.pool.rewards.get i).duration.val / 2 ^ 64 ∧
        (n.pool.rewards.get i).rate.val * (n.pool.rewards.get i).duration.val / 2 ^ 64 ≤
          left.val + total.val := by
  have hcovered := ho.reaches_covered hr i
  refine ⟨hcovered.inTime, hcovered.stream_lt, fun now htimes => ?_, fun x n r now total hp hf => ?_⟩
  · exact hcovered.flows (ho.notAhead hr i htimes)
  · obtain ⟨b, b', -, hb, hb', hperform⟩ := (Ledger.step_of_perform hp).exists_book
    obtain ⟨-, left, hs⟩ := Book.started_of_perform hf hperform
    rw [hb, hb'] at hs
    exact ⟨left, hs.leftover, hs.streams⟩

end

def fund (amount : Amount) (time : Point) : Order where
  call := .fundReward { admins := [⟨.lit 256 18⟩] } ⟨.lit 256 18⟩ 0 amount false { time } none

/-- A campaign of about a day is topped up in the middle. When it has ended, the next one is made longer; that one has
run for half of its time when the slot is last touched. -/
def twoCampaigns : List Order :=
  let admin : Key := ⟨.lit 256 18⟩
  let auth : Authority := { admins := [admin] }
  [{ call := .openReward auth admin 0 (.lit 64 87000) admin .none .none },
    fund (.lit 64 1000001) 0,
    { call := .claimReward 0 { time := .lit 64 43500 } },
    fund (.lit 64 777777) (.lit 64 50500),
    { call := .changeRewardDuration auth admin 0 (.lit 64 101000) { time := .lit 64 140000 } },
    fund (.lit 64 333333) (.lit 64 150000),
    { call := .claimReward 0 { time := .lit 64 201000 } }]

theorem stream_never_overflows_refunded : ∃ o es m n r left, Opening o ∧
    Run (Ledger.opened o) es m ∧ es.map Event.order = twoCampaigns ∧ InOrder twoCampaigns ∧
    rateBasis .first es = 333333 ∧
    (m.pool.rewards.get .first).rate.val *
      ((m.pool.rewards.get .first).endsAt.val - (m.pool.rewards.get .first).lastUpdate.val) < 2 ^ 128 ∧
    (m.pool.rewards.get .first).Flows (.lit 64 210000) 333333 ∧
    m.perform (fund (.lit 64 64687) (.lit 64 210000)) = some (n, r) ∧
    (m.pool.rewards.get .first).leftover (.lit 64 210000) = .ok left ∧ left.val = 135313 ∧
    199999 ≤ (n.pool.rewards.get .first).rate.val * (n.pool.rewards.get .first).duration.val / 2 ^ 64 ∧
    (n.pool.rewards.get .first).rate.val * (n.pool.rewards.get .first).duration.val / 2 ^ 64 ≤ 200000 := by
  have h : ((sampleSession twoCampaigns).bind fun s =>
      (s.2.2.perform (fund (.lit 64 64687) (.lit 64 210000))).map fun t =>
        decide (s.2.1.map Event.order = twoCampaigns ∧ rateBasis .first s.2.1 = 333333 ∧
          (s.2.2.pool.rewards.get .first).remaining (.lit 64 210000) = 135313 ∧
          funding? .first (fund (.lit 64 64687) (.lit 64 210000)).call t.2 =
            some (.lit 64 210000, .lit 64 64687))) = some true := by decide +kernel
  obtain ⟨⟨o, es, m⟩, hs, h⟩ := Option.bind_eq_some_iff.1 h
  obtain ⟨⟨n, r⟩, hn, h⟩ := Option.map_eq_some_iff.1 h
  obtain ⟨hes, hbasis, hremaining, hfunding⟩ := of_decide_eq_true h
  obtain ⟨ho, hr⟩ := sampleSession_eq_some hs
  have hpast : ∀ x ∈ twoCampaigns, ∀ c ∈ x.call.clock?, c.time ≤ (.lit 64 210000 : Point) := by
    decide +kernel
  have htimes : ∀ e ∈ es, ∀ c ∈ e.order.call.clock?, c.time ≤ (.lit 64 210000 : Point) := fun e he =>
    hpast e.order (hes ▸ List.mem_map_of_mem he)
  obtain ⟨-, hlt, hlater, hnext⟩ := stream_never_overflows ho.founded hr .first
  obtain ⟨left, hleft, hge, hle⟩ := hnext _ n r _ _ hn hfunding
  have hleft' : left.val = 135313 := (RewardSlot.leftover_eq_ok.1 hleft).symm.trans hremaining
  rw [hleft', Word.val_lit] at hge hle
  exact ⟨o, es, m, n, r, left, ho, hr, hes, by decide +kernel, hbasis, hlt, hbasis ▸ hlater _ htimes,
    hn, hleft, hleft', hge, hle⟩

end Market

end RangePool
