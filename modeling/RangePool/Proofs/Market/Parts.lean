import RangePool.Proofs.Market.Earnings
/-!
Liquidity is neither created nor lost. What the pool counts, what its open positions hold, free, vested and for
good, and what their schedules have still to release agree in every state that requests reach.
-/
set_option autoImplicit false

namespace RangePool

theorem Pool.apply_positions {p p' : Pool} {q : Quote} {fee : Placement} {now : Point}
    (h : p.apply q fee now = .ok p') : p'.metrics.positions = p.metrics.positions := by
  simp only [apply, Metrics.addFee, bind_eq_ok, pure_eq_ok] at h
  obtain ⟨_, _, _, _, _, _, _, _, _, _, _, ⟨_, _, _, _, _, _, rfl⟩, h⟩ := h
  rw [track_ok h]

section
variable {p q : Pool} {x y z : Position} {now : Point} {stored : Pair Accrual}

theorem Pool.RewardsUpdated.parts (h : p.RewardsUpdated now q) :
    q.metrics.positions = p.metrics.positions ∧ q.permanent = p.permanent := by
  rw [h.frame]
  exact ⟨rfl, rfl⟩

theorem Position.settled_parts (hy : y = { x with stakes := y.stakes })
    (hz : y.FeesSettled stored z) : z.vested = x.vested ∧ z.permanent = x.permanent := by
  rw [hz.frame, hy]
  exact ⟨rfl, rfl⟩

theorem Pool.RewardsSettled.parts {p' : Pool} {x' : Position} {L : Liquidity}
    (hs : p.RewardsSettled x now q y) (hz : y.FeesSettled stored z)
    (hp : p' = { q with liquidity := L }) (hx : x' = { z with unlocked := x'.unlocked }) :
    p'.metrics.positions = p.metrics.positions ∧ p'.permanent = p.permanent ∧
      x'.vested = x.vested ∧ x'.permanent = x.permanent := by
  obtain ⟨hv, hf⟩ := Position.settled_parts hs.frame hz
  obtain ⟨hn, hq⟩ := hs.updated.parts
  rw [hp, hx]
  exact ⟨hn, hq, hv, hf⟩

end

namespace Market

def Call.relabels : Call → Bool
  | .openPosition .. | .closePosition | .lock .. | .refresh .. | .lockForever .. => true
  | _ => false

inductive Book.Relabels (b b' : Book) : Call → Prop
  | kept {c : Call} : c.relabels = false →
      b'.pool.metrics.positions = b.pool.metrics.positions →
      b'.pool.permanent = b.pool.permanent → b'.position.vested = b.position.vested →
      b'.position.permanent = b.position.permanent → Relabels b b' c
  | opened {pool owner : Key} {clock : Clock} :
      b'.pool.metrics.positions.val = b.pool.metrics.positions.val + 1 →
      b'.pool.permanent = b.pool.permanent → b.position = {} → b'.position.vested = 0 →
      b'.position.permanent = 0 → Relabels b b' (.openPosition pool owner clock)
  | closed : b.pool.metrics.positions.val = b'.pool.metrics.positions.val + 1 →
      b'.pool.permanent = b.pool.permanent → b.position.weight = 0 → b'.position = b.position →
      Relabels b b' .closePosition
  | locked {key : Key} {t : LockTerms} {clock : Clock} {u : TimeUnit} {w : Position}
      {T L : Liquidity} :
      b'.pool.metrics.positions = b.pool.metrics.positions →
      b'.pool.permanent = b.pool.permanent → b.pool.timeUnit = .of u →
      t.validate (u.now clock) u.maxVesting = .ok () → t.total = .ok T →
      w.vested.val = b.position.vested.val + T.val → w.permanent = b.position.permanent →
      Released w (t.start key (u.now clock)) (u.now clock) b'.position b'.vesting L →
      Relabels b b' (.lock key t clock)
  | refreshed {clock : Clock} {u : TimeUnit} {z : Position} {L : Liquidity} :
      b'.pool.metrics.positions = b.pool.metrics.positions →
      b'.pool.permanent = b.pool.permanent → b.pool.timeUnit = .of u →
      z.vested = b.position.vested → z.permanent = b.position.permanent →
      Released z b.vesting (u.now clock) b'.position b'.vesting L →
      Relabels b b' (.refresh clock)
  | lockedForever {L : Liquidity} {clock : Clock} :
      b'.pool.metrics.positions = b.pool.metrics.positions →
      b'.pool.permanent.val = b.pool.permanent.val + L.val →
      b'.position.vested = b.position.vested →
      b'.position.permanent.val = b.position.permanent.val + L.val →
      Relabels b b' (.lockForever L clock)

theorem Executed.parts {p p' : Pool} {exact : Curve.Exact} {dir : Direction} {u : Traded}
    (h : Executed p exact dir u p') :
    p'.metrics.positions = p.metrics.positions ∧ p'.permanent = p.permanent := by
  obtain ⟨q, fee, now, time, hq, -, hp, -⟩ := h.steps
  have hq := Pool.rebase_ok hq
  rw [Pool.apply_positions hp, (Pool.apply_ok hp).frame, hq]
  exact ⟨rfl, rfl⟩

theorem Book.relabels_of_perform {b b' : Book} {c : Call} {r : Receipt} (hc : b.Fits c)
    (h : b.perform c = .ok (b', r)) : b.Relabels b' c := by
  cases c <;> simp only [perform, bind_eq_ok, pure_eq_ok, Prod.mk.injEq, Prod.exists] at h
  case openPosition =>
    obtain ⟨p, x, hx, rfl, rfl⟩ := h
    obtain ⟨hp, hn, hx⟩ := openPosition_counts hx
    have hb : b.position = {} := hc.blank (by simp [Call.subject])
    exact .opened hn (by rw [hp]) hb (by rw [hx]) (by rw [hx])
  case closePosition =>
    obtain ⟨p, hp, rfl, rfl⟩ := h
    obtain ⟨hp', hn⟩ := closePosition_counts hp
    exact .closed hn (by rw [hp']) (closePosition_ok hp).2.1 rfl
  case addLiquidity =>
    obtain ⟨p, x, m, hm, rfl, rfl⟩ := h
    obtain ⟨q, y, z, hs, hf, -, hp, -, hx, -⟩ := addLiquidity_ok hm
    obtain ⟨hn, hq, hv, hx⟩ := hs.parts hf hp hx
    exact .kept rfl hn hq hv hx
  case removeLiquidity =>
    obtain ⟨p, x, m, hm, rfl, rfl⟩ := h
    obtain ⟨q, y, z, hs, hf, -, hp, -, hx, -⟩ := removeLiquidity_ok hm
    obtain ⟨hn, hq, hv, hx⟩ := hs.parts hf hp hx
    exact .kept rfl hn hq hv hx
  case removeAll =>
    obtain ⟨p, x, m, hm, rfl, rfl⟩ := h
    obtain ⟨q, y, z, hs, hf, -, hp, -, hx, -⟩ := removeLiquidity_ok hm
    obtain ⟨hn, hq, hv, hx⟩ := hs.parts hf hp hx
    exact .kept rfl hn hq hv hx
  case swap =>
    obtain ⟨p, t, ht, rfl, rfl⟩ := h
    obtain ⟨hn, hp⟩ := (swap_executed ht).executed.parts
    exact .kept rfl hn hp rfl rfl
  case swapExactOut =>
    obtain ⟨p, t, ht, rfl, rfl⟩ := h
    obtain ⟨hn, hp⟩ := (swapExactOut_executed ht).executed.parts
    exact .kept rfl hn hp rfl rfl
  case claimFees =>
    obtain ⟨x, paid, hx, rfl, rfl⟩ := h
    obtain ⟨y, hy, -, hx⟩ := claimFees_ok hx
    exact .kept rfl rfl rfl (by rw [hx, hy.frame]) (by rw [hx, hy.frame])
  case lock =>
    obtain ⟨l, hl, rfl, rfl⟩ := h
    obtain ⟨u, y, z, w, hu, hv, hs, hf, hT, hw, hr⟩ := lock_parts hl
    obtain ⟨hzv, hzp⟩ := Position.settled_parts hs.frame hf
    obtain ⟨hwf, -, hwv⟩ := Position.vest_parts hw
    obtain ⟨hn, hq⟩ := hs.updated.parts
    exact .locked hn hq hu hv hT (hzv ▸ hwv) (by rw [hwf, hzp]) hr
  case refresh =>
    obtain ⟨p, x, v, L, hx, rfl, rfl⟩ := h
    obtain ⟨u, z, hu, hz, hr⟩ := refresh_eq_ok.1 hx
    obtain ⟨y, hs, hf⟩ := Pool.settle_ok hz
    obtain ⟨hzv, hzp⟩ := Position.settled_parts hs.frame hf
    obtain ⟨hn, hq⟩ := hs.updated.parts
    exact .refreshed hn hq hu hzv hzp hr
  case lockForever =>
    obtain ⟨p, x, hx, rfl, rfl⟩ := h
    obtain ⟨q, y, z, hs, hf, hx, hp, hL⟩ := lockForever_parts hx
    obtain ⟨hzv, hzp⟩ := Position.settled_parts hs.frame hf
    obtain ⟨hxf, -, hxp⟩ := Position.lockForever_parts hx
    obtain ⟨hn, hq⟩ := hs.updated.parts
    exact .lockedForever (by rw [hp, hn]) (hq ▸ hL) (by rw [hxf, hzv]) (hzp ▸ hxp)
  case openReward =>
    obtain ⟨p, hp, rfl, rfl⟩ := h
    obtain ⟨i, -, -, hp⟩ := openReward_ok hp
    exact .kept rfl (by rw [hp]) (by rw [hp]) rfl rfl
  case fundReward =>
    obtain ⟨p, f, hp, rfl, rfl⟩ := h
    obtain ⟨i, q, u, r₀, r, -, -, hq, -, -, -, -, hp⟩ := fundReward_ok hp
    obtain ⟨hn, hq⟩ := hq.parts
    exact .kept rfl (by rw [hp, hn]) (by rw [hp, hq]) rfl rfl
  case claimReward =>
    obtain ⟨p, x, reward, hx, rfl, rfl⟩ := h
    obtain ⟨i, y, c, -, hs, -, hx⟩ := claimReward_ok hx
    obtain ⟨hn, hq⟩ := hs.updated.parts
    exact .kept rfl hn hq (by rw [hx, hs.frame]) (by rw [hx, hs.frame])
  case withdrawIdleReward =>
    obtain ⟨p, x, hp, rfl, rfl⟩ := h
    obtain ⟨i, q, -, hq, -, hp⟩ := withdrawIdleReward_ok hp
    obtain ⟨hn, hq⟩ := hq.parts
    exact .kept rfl (by rw [hp, hn]) (by rw [hp, hq]) rfl rfl
  case changeRewardDuration =>
    obtain ⟨p, hp, rfl, rfl⟩ := h
    obtain ⟨i, hp⟩ := changeRewardDuration_ok hp
    exact .kept rfl (by rw [hp]) (by rw [hp]) rfl rfl
  case changeRewardFunder =>
    obtain ⟨p, hp, rfl, rfl⟩ := h
    obtain ⟨i, q, hq, hp⟩ := changeRewardFunder_ok hp
    obtain ⟨hn, hq⟩ := hq.parts
    exact .kept rfl (by rw [hp, hn]) (by rw [hp, hq]) rfl rfl
  case claimProtocolFees =>
    obtain ⟨p, x, hp, rfl, rfl⟩ := h
    have hp := (claimProtocolFees_ok hp).1
    exact .kept rfl (by rw [hp]) (by rw [hp]) rfl rfl
  case claimPartnerFees =>
    obtain ⟨p, x, hp, rfl, rfl⟩ := h
    have hp := (claimPartnerFees_ok hp).1
    exact .kept rfl (by rw [hp]) (by rw [hp]) rfl rfl
  case changeStatus =>
    obtain ⟨p, hp, rfl, rfl⟩ := h
    have hp := changeStatus_ok hp
    exact .kept rfl (by rw [hp]) (by rw [hp]) rfl rfl

section
variable {b b' : Book} {c : Call} {x : Position} {v : Vesting}

theorem Book.Relabels.permanent_eq (h : b.Relabels b' c) :
    b'.pool.permanent.val + b.position.permanent.val =
      b.pool.permanent.val + b'.position.permanent.val := by
  cases h with
  | kept _ _ hp _ hx => rw [hp, hx]
  | opened _ hp hb _ hx => rw [hp, hx, hb]
  | closed _ hp _ hx => rw [hp, hx]
  | locked _ hp _ _ _ _ hw hr => rw [hp, hr.frame, hw]
  | refreshed _ hp _ _ hz hr => rw [hp, hr.frame, hz]
  | lockedForever _ hp _ hx => omega

theorem Book.Relabels.permanent_le (h : b.Relabels b' c) :
    b.pool.permanent ≤ b'.pool.permanent := by
  rw [Word.le_iff]
  cases h with
  | kept _ _ hp _ _ => rw [hp]
  | opened _ hp _ _ _ => rw [hp]
  | closed _ hp _ _ => rw [hp]
  | locked _ hp _ _ _ _ _ _ => rw [hp]
  | refreshed _ hp _ _ _ _ => rw [hp]
  | lockedForever _ hp _ _ => omega

theorem Book.Relabels.positions_eq (h : b.Relabels b' c) :
    b'.pool.metrics.positions.val + (if c = .closePosition then 1 else 0) =
      b.pool.metrics.positions.val + if c.subject = .newPosition then 1 else 0 := by
  cases h with
  | kept hc hn _ _ _ =>
    rw [hn]
    cases c <;> simp_all [Call.relabels, Call.subject]
  | opened hn _ _ _ _ => simp [hn, Call.subject]
  | closed hn _ _ _ => simp [hn, Call.subject]
  | locked hn _ _ _ _ _ _ _ => simp [hn, Call.subject]
  | refreshed hn _ _ _ _ _ => simp [hn, Call.subject]
  | lockedForever hn _ _ _ => simp [hn, Call.subject]

theorem Book.Relabels.newcomer (h : b.Relabels b' c) (hc : c.subject = .newPosition) :
    b'.position.vested = 0 := by
  cases h with
  | opened _ _ _ hv _ => exact hv
  | kept hk _ _ _ _ => cases c <;> simp_all [Call.relabels, Call.subject]
  | closed _ _ _ _ => cases hc
  | locked _ _ _ _ _ _ _ _ => cases hc
  | refreshed _ _ _ _ _ _ => cases hc
  | lockedForever _ _ _ _ => cases hc

end

/-! Schedules. -/

/-- Whether a schedule that is refreshed is one of the position's own. -/
def Order.refreshesOwn (o : Order) : Bool :=
  match o.call, o.schedule with
  | .refresh _, .given _ => false
  | _, _ => true

theorem Order.exists_own {o : Order} (ho : o.refreshesOwn = true) {clock : Clock}
    (hc : o.call = .refresh clock) : ∃ n, o.schedule = .own n := by
  cases hs : o.schedule with
  | own n => exact ⟨n, rfl⟩
  | given v => simp [refreshesOwn, hc, hs] at ho

namespace Holding

/-- No schedule has released too much, and what they have still to release is the vested liquidity. -/
structure Scheduled (h : Holding) : Prop where
  released_le : ∀ v ∈ h.schedules, v.released.val ≤ v.whole
  whole_lt : ∀ v ∈ h.schedules, v.whole < Nat.pow 2 128
  vested : h.position.vested.val = (h.schedules.map Vesting.outstanding).sum

section
variable {h : Holding} {o : Order} {b : Book} {p : Pool} {v : Vesting}

theorem schedules_after (hc : ∀ key t clock, o.call ≠ .lock key t clock)
    (hc' : ∀ clock, o.call ≠ .refresh clock) : (h.after o b).schedules = h.schedules := by
  unfold after
  split
  · exact absurd ‹_› (hc _ _ _)
  · exact absurd ‹_› (hc' _)
  · rfl

theorem schedules_lock {key : Key} {t : LockTerms} {clock : Clock}
    (hc : o.call = .lock key t clock) : (h.after o b).schedules = h.schedules ++ [b.vesting] := by
  simp only [after, hc]

theorem schedules_refresh {clock : Clock} {n : Nat} (hc : o.call = .refresh clock)
    (hs : o.schedule = .own n) : (h.after o b).schedules = h.schedules.set n b.vesting := by
  simp only [after, hc, hs]

theorem Scheduled.of_nil (hl : h.schedules = []) (hv : h.position.vested = 0) : h.Scheduled := by
  constructor
  · simp [hl]
  · simp [hl]
  · simp [hl, hv]

theorem Scheduled.of_eq {h' : Holding} (hs : h.Scheduled)
    (hv : h'.position.vested = h.position.vested) (hl : h'.schedules = h.schedules) :
    h'.Scheduled := by
  obtain ⟨hle, hlt, hsum⟩ := hs
  constructor
  · rw [hl]
    exact hle
  · rw [hl]
    exact hlt
  · rw [hl, hv]
    exact hsum

theorem Scheduled.started {x : Position} {w : Vesting} (hs : h.Scheduled) (hw : w.released = 0)
    (hlt : w.whole < Nat.pow 2 128) (hx : x.vested.val = h.position.vested.val + w.whole) :
    Scheduled ⟨x, h.schedules ++ [w]⟩ := by
  have hout : w.outstanding = w.whole := by
    rw [Vesting.outstanding, hw]
    rfl
  constructor
  · rw [List.forall_mem_append, List.forall_mem_singleton, hw]
    exact ⟨hs.released_le, Nat.zero_le _⟩
  · rw [List.forall_mem_append, List.forall_mem_singleton]
    exact ⟨hs.whole_lt, hlt⟩
  · rw [List.map_append, List.sum_append, List.map_singleton, List.sum_singleton, ← hs.vested, hout]
    exact hx

theorem Scheduled.released {x : Position} {now : Point} {n : Nat} {v w : Vesting} {L : Liquidity}
    (hs : h.Scheduled) (hv : h.schedules[n]? = some v) (hr : Released h.position v now x w L) :
    Scheduled ⟨x, h.schedules.set n w⟩ := by
  constructor
  · intro w' hw'
    rcases List.mem_or_eq_of_mem_set hw' with hw' | rfl
    · exact hs.released_le w' hw'
    · rw [hr.schedule.whole]
      exact hr.released_le_whole
  · intro w' hw'
    rcases List.mem_or_eq_of_mem_set hw' with hw' | rfl
    · exact hs.whole_lt w' hw'
    · rw [hr.schedule.whole]
      exact hs.whole_lt v (List.mem_of_getElem? hv)
  · have hsum := sum_map_set Vesting.outstanding hv w
    have hrest := hr.outstanding
    have hvested := hr.vested
    have hbefore := hs.vested
    show x.vested.val = ((h.schedules.set n w).map Vesting.outstanding).sum
    omega

theorem Scheduled.after (hs : h.Scheduled) (ho : o.refreshesOwn = true)
    (hv : h.schedule? o.schedule = some v) (hb : Book.Relabels ⟨p, h.position, v⟩ b o.call) :
    (h.after o b).Scheduled := by
  generalize hc : o.call = c at hb
  cases hb with
  | kept hk _ _ hx _ =>
    refine hs.of_eq hx (schedules_after ?_ ?_)
    · intro key t clock he
      rw [← hc, he] at hk
      cases hk
    · intro clock he
      rw [← hc, he] at hk
      cases hk
  | opened _ _ hb hx _ =>
    refine hs.of_eq ?_ (schedules_after (by simp [hc]) (by simp [hc]))
    show b.position.vested = h.position.vested
    rw [hx, show h.position = {} from hb]
  | closed _ _ _ hx =>
    refine hs.of_eq ?_ (schedules_after (by simp [hc]) (by simp [hc]))
    show b.position.vested = h.position.vested
    rw [hx]
  | lockedForever _ _ hx _ =>
    exact hs.of_eq hx (schedules_after (by simp [hc]) (by simp [hc]))
  | @locked key t clock u w T L _ _ _ _ hT hw _ hr =>
    have hwhole : (t.start key (u.now clock)).whole = T.val := Vesting.total_eq_ok.1 hT
    have hstarted : Scheduled ⟨w, h.schedules ++ [t.start key (u.now clock)]⟩ :=
      hs.started rfl (hwhole ▸ T.isLt) (hwhole ▸ hw)
    -- the new schedule may release a part of its own at once
    have hreleased := hstarted.released List.getElem?_concat_length hr
    rw [List.set_append_right _ _ (Nat.le_refl _), Nat.sub_self, List.set_cons_zero] at hreleased
    exact hreleased.of_eq rfl (schedules_lock hc)
  | @refreshed clock u z L _ _ _ hz _ hr =>
    obtain ⟨n, hn⟩ := o.exists_own ho hc
    rw [hn] at hv
    have hsettled : Scheduled ⟨z, h.schedules⟩ := hs.of_eq hz rfl
    exact (hsettled.released hv hr).of_eq rfl (schedules_refresh hc hn)

end

end Holding

/-! Open positions. -/

def Event.Closes (e : Event) (n : Nat) : Prop :=
  e.order.call = .closePosition ∧ e.order.holder = n

def Event.Uses (e : Event) (n : Nat) : Prop :=
  e.order.call.subject = .position ∧ e.order.holder = n

instance (e : Event) (n : Nat) : Decidable (e.Closes n) := inferInstanceAs (Decidable (_ ∧ _))
instance (e : Event) (n : Nat) : Decidable (e.Uses n) := inferInstanceAs (Decidable (_ ∧ _))

/-- Once it is closed a position is not used any more. -/
def Retired (es : List Event) : Prop :=
  es.Pairwise fun e f => ¬(e.order.call = .closePosition ∧ f.Uses e.order.holder)

instance (es : List Event) : Decidable (Retired es) := inferInstanceAs (Decidable (List.Pairwise _ _))

def stillOpen (es : List Event) (m : Ledger) : Finset Nat :=
  (Finset.range m.holdings.length).filter fun n => ∀ e ∈ es, ¬e.Closes n

section
variable {l m : Ledger} {es : List Event} {o : Order} {r : Receipt} {n : Nat}

theorem Event.Closes.uses {e : Event} (h : e.Closes n) : e.Uses n := by
  refine ⟨?_, h.2⟩
  rw [h.1]
  rfl

theorem Ledger.Step.scheduled (hs : l.Step o r m) (ho : o.refreshesOwn = true)
    (h : ∀ x ∈ l.holdings, x.Scheduled) : ∀ x ∈ m.holdings, x.Scheduled := by
  cases hs with
  | pool _ _ => exact h
  | opening hc hb =>
    rw [List.forall_mem_append, List.forall_mem_singleton]
    have hv := (Book.relabels_of_perform (.inr rfl) hb).newcomer hc
    exact ⟨h, .of_nil rfl hv⟩
  | position hc hx hv hb =>
    intro y hy
    rcases List.mem_or_eq_of_mem_set hy with hy | rfl
    · exact h y hy
    · exact (h _ (List.mem_of_getElem? hx)).after ho hv (Book.relabels_of_perform (.inl hc) hb)

theorem Founded.scheduled {d : Opened} (h : Founded d) (hr : Run (Ledger.opened d) es m)
    (hown : ∀ e ∈ es, e.order.refreshesOwn = true) : ∀ x ∈ m.holdings, x.Scheduled := by
  induction hr with
  | nil =>
    obtain ⟨k, owner, hx⟩ := h.untouched.position
    rw [Ledger.opened, List.forall_mem_singleton]
    exact .of_nil rfl (by rw [hx])
  | @snoc es l m o r _ hp ih =>
    obtain ⟨hes, ho⟩ := List.forall_mem_append.1 hown
    exact (Ledger.step_of_perform hp).scheduled (ho _ (List.mem_singleton_self _)) (ih hes)

theorem openDraft_counts {draft : Pool} {accounts : Accounts} {fees : TransferFees} {d : Opened}
    (h : openDraft draft accounts fees = .ok d) :
    d.pool.permanent = draft.permanent ∧
      d.pool.metrics.positions.val = draft.metrics.positions.val + 1 := by
  simp only [openDraft, Metrics.addPosition, bind_eq_ok, pure_eq_ok, Word.add_eq_ok] at h
  obtain ⟨_, _, _, _, _, _, _, ⟨_, hn, rfl⟩, _, _, rfl⟩ := h
  exact ⟨rfl, hn.symm⟩

theorem Founded.counted {d : Opened} (h : Founded d) :
    d.pool.permanent = 0 ∧ d.pool.metrics.positions.val = 1 := by
  cases h with
  | ofConfig h =>
    simp only [openPool, bind_eq_ok] at h
    obtain ⟨_, _, h⟩ := h
    exact openDraft_counts h
  | custom h =>
    simp only [openCustomPool, bind_eq_ok] at h
    obtain ⟨_, _, h⟩ := h
    exact openDraft_counts h

theorem Ledger.Step.permanent_le (hs : l.Step o r m) : l.pool.permanent ≤ m.pool.permanent := by
  obtain ⟨b, b', hf, hp, hp', hb⟩ := hs.exists_book
  rw [← hp, ← hp']
  exact (Book.relabels_of_perform hf hb).permanent_le

theorem Run.permanent_le (hr : Run l es m) :
    l.pool.permanent ≤ m.pool.permanent ∧
      ∀ e ∈ es, e.before.pool.permanent ≤ m.pool.permanent := by
  induction hr with
  | nil => exact ⟨Nat.le_refl _, fun _ he => absurd he List.not_mem_nil⟩
  | snoc _ hp ih =>
    have hle := (Ledger.step_of_perform hp).permanent_le
    obtain ⟨hl, hes⟩ := ih
    refine ⟨Nat.le_trans hl hle, ?_⟩
    rw [List.forall_mem_append, List.forall_mem_singleton]
    exact ⟨fun e he => Nat.le_trans (hes e he) hle, hle⟩

theorem Founded.permanent_eq {d : Opened} (h : Founded d) (hr : Run (Ledger.opened d) es m) :
    m.pool.permanent.val = m.total fun x => x.permanent.val := by
  obtain ⟨k, owner, hx⟩ := h.untouched.position
  have hconst := Behind.always.measure_const (P := fun p => (p.permanent.val : Int))
    (X := fun x => -(x.permanent.val : Int)) rfl
    (fun hf _ _ hp => by have := (Book.relabels_of_perform hf hp).permanent_eq; omega)
    (h.obeys trivial) hr
  rw [Ledger.total_neg, Ledger.total_neg, ← Ledger.total_cast, ← Ledger.total_cast] at hconst
  have h0 : (Ledger.opened d).total (fun x => x.permanent.val) = 0 := by
    simp [Ledger.total, Ledger.opened, hx]
  have hnew : (Ledger.opened d).pool.permanent.val = 0 := by
    rw [Ledger.opened, h.counted.1]
    rfl
  omega

theorem Ledger.Step.length_eq (hs : l.Step o r m) :
    m.holdings.length = l.holdings.length + if o.call.subject = .newPosition then 1 else 0 := by
  cases hs with
  | pool hc _ => simp [hc]
  | opening hc _ => simp [hc]
  | position hc _ _ _ => simp [hc]

theorem Ledger.Step.uses_lt (hs : l.Step o r m) (hu : Event.Uses ⟨l, o, r⟩ n) :
    n < l.holdings.length := by
  obtain ⟨hc, rfl⟩ := hu
  have hc : o.call.subject = .position := hc
  cases hs with
  | pool hc' _ => simp [hc] at hc'
  | opening hc' _ => simp [hc] at hc'
  | position _ hx _ _ => exact (List.getElem?_eq_some_iff.1 hx).1

theorem Run.uses_lt (hr : Run l es m) : ∀ e ∈ es, ∀ n, e.Uses n → n < m.holdings.length := by
  induction hr with
  | nil => exact fun _ he => absurd he List.not_mem_nil
  | snoc _ hp ih =>
    have hs := Ledger.step_of_perform hp
    rw [List.forall_mem_append, List.forall_mem_singleton]
    exact ⟨fun e he n hu => Nat.lt_of_lt_of_le (ih e he n hu) hs.length_le,
      fun n hu => Nat.lt_of_lt_of_le (hs.uses_lt hu) hs.length_le⟩

theorem Ledger.Step.bystander (hs : l.Step o r m) (hn : n < l.holdings.length)
    (hu : ¬Event.Uses ⟨l, o, r⟩ n) : m.positionAt n = l.positionAt n := by
  cases hs with
  | pool _ _ => rfl
  | opening _ _ => rw [Ledger.positionAt, Ledger.positionAt, List.getElem?_append_left hn]
  | position hc _ _ _ =>
    have hne : o.holder ≠ n := fun h => hu ⟨hc, h⟩
    rw [Ledger.positionAt, Ledger.positionAt, List.getElem?_set_ne hne]

theorem Ledger.Step.closed_weight (hs : l.Step o r m) (h : Event.Closes ⟨l, o, r⟩ n) :
    (m.positionAt n).weight = 0 := by
  obtain ⟨hc, rfl⟩ := h
  have hc : o.call = .closePosition := hc
  cases hs with
  | pool hp _ => simp [hc, Call.subject] at hp
  | opening hp _ => simp [hc, Call.subject] at hp
  | @position x v b hp hx hv hb =>
    have hb := Book.relabels_of_perform (.inl hp) hb
    have hlt := (List.getElem?_eq_some_iff.1 hx).1
    rw [Ledger.positionAt, List.getElem?_set_self hlt, Option.getD_some]
    show b.position.weight = 0
    rw [hc] at hb
    cases hb with
    | closed _ _ hw hy => rw [hy, hw]
    | kept hk _ _ _ _ => cases hk

theorem Run.closed_weight (hr : Run l es m) (hes : Retired es) :
    ∀ e ∈ es, ∀ n, e.Closes n → (m.positionAt n).weight = 0 := by
  induction hr with
  | nil => exact fun _ he => absurd he List.not_mem_nil
  | @snoc es m m' o r hr hp ih =>
    have hs := Ledger.step_of_perform hp
    obtain ⟨hold, -, hlast⟩ := List.pairwise_append.1 hes
    rw [List.forall_mem_append, List.forall_mem_singleton]
    refine ⟨fun e he n hn => ?_, fun n hn => hs.closed_weight hn⟩
    obtain ⟨hc, rfl⟩ := hn
    have hu : ¬Event.Uses ⟨m, o, r⟩ e.order.holder := fun hu =>
      hlast e he _ (List.mem_singleton_self _) ⟨hc, hu⟩
    have hlt := hr.uses_lt e he _ (Event.Closes.uses ⟨hc, rfl⟩)
    rw [hs.bystander hlt hu]
    exact ih hold e he _ ⟨hc, rfl⟩

theorem mem_stillOpen :
    n ∈ stillOpen es m ↔ n < m.holdings.length ∧ ∀ e ∈ es, ¬e.Closes n := by
  rw [stillOpen, Finset.mem_filter, Finset.mem_range]

theorem mem_stillOpen_snoc {e : Event} :
    n ∈ stillOpen (es ++ [e]) m ↔
      n < m.holdings.length ∧ (∀ e ∈ es, ¬e.Closes n) ∧ ¬e.Closes n := by
  rw [mem_stillOpen, List.forall_mem_append, List.forall_mem_singleton]

theorem Ledger.Step.stillOpen_opened {k : Ledger} (hs : l.Step o r m) (hr : Run k es l)
    (ho : o.call.subject = .newPosition) :
    l.holdings.length ∉ stillOpen es l ∧
      stillOpen (es ++ [⟨l, o, r⟩]) m = insert l.holdings.length (stillOpen es l) := by
  have hlength := hs.length_eq
  rw [if_pos ho] at hlength
  have hnone : ∀ n, ¬Event.Closes ⟨l, o, r⟩ n := by
    intro n hc
    have hc : o.call = .closePosition := hc.1
    simp [hc, Call.subject] at ho
  refine ⟨fun hn => Nat.lt_irrefl _ (mem_stillOpen.1 hn).1, ?_⟩
  ext n
  rw [mem_stillOpen_snoc, Finset.mem_insert, mem_stillOpen, hlength]
  constructor
  · rintro ⟨hn, hes, -⟩
    rcases Nat.lt_succ_iff_lt_or_eq.1 hn with hn | hn
    · exact .inr ⟨hn, hes⟩
    · exact .inl hn
  · rintro (rfl | ⟨hn, hes⟩)
    · exact ⟨Nat.lt_succ_self _, fun e he hc => Nat.lt_irrefl _ (hr.uses_lt e he _ hc.uses),
        hnone _⟩
    · exact ⟨Nat.lt_succ_of_lt hn, hes, hnone n⟩

theorem Ledger.Step.stillOpen_closed (hs : l.Step o r m) (ho : o.call = .closePosition)
    (hes : Retired (es ++ [⟨l, o, r⟩])) :
    o.holder ∈ stillOpen es l ∧
      stillOpen (es ++ [⟨l, o, r⟩]) m = (stillOpen es l).erase o.holder := by
  have hlength := hs.length_eq
  rw [if_neg (by simp [ho, Call.subject]), Nat.add_zero] at hlength
  have hc : Event.Closes ⟨l, o, r⟩ o.holder := ⟨ho, rfl⟩
  constructor
  · refine mem_stillOpen.2 ⟨hs.uses_lt hc.uses, fun e he hce => ?_⟩
    refine (List.pairwise_append.1 hes).2.2 e he _ (List.mem_singleton_self _) ⟨hce.1, ?_⟩
    rw [hce.2]
    exact hc.uses
  · ext n
    have hn : ¬Event.Closes ⟨l, o, r⟩ n ↔ n ≠ o.holder := by
      simp [Event.Closes, ho, eq_comm]
    rw [mem_stillOpen_snoc, Finset.mem_erase, mem_stillOpen, hlength, hn]
    tauto

theorem Ledger.Step.stillOpen_kept (hs : l.Step o r m) (hc : o.call ≠ .closePosition)
    (ho : o.call.subject ≠ .newPosition) : stillOpen (es ++ [⟨l, o, r⟩]) m = stillOpen es l := by
  have hlength := hs.length_eq
  rw [if_neg ho, Nat.add_zero] at hlength
  ext n
  have hn : ¬Event.Closes ⟨l, o, r⟩ n := fun h => hc h.1
  rw [mem_stillOpen_snoc, mem_stillOpen, hlength]
  simp only [hn, not_false_eq_true, and_true]

theorem Ledger.Step.card_stillOpen {k : Ledger} (hs : l.Step o r m) (hr : Run k es l)
    (hes : Retired (es ++ [⟨l, o, r⟩])) :
    (stillOpen (es ++ [⟨l, o, r⟩]) m).card + (if o.call = .closePosition then 1 else 0) =
      (stillOpen es l).card + if o.call.subject = .newPosition then 1 else 0 := by
  by_cases ho : o.call.subject = .newPosition
  · have hc : o.call ≠ .closePosition := fun h => by simp [h, Call.subject] at ho
    obtain ⟨hnew, hinsert⟩ := hs.stillOpen_opened hr ho
    rw [hinsert, Finset.card_insert_of_notMem hnew, if_neg hc, if_pos ho]
  · by_cases hc : o.call = .closePosition
    · obtain ⟨hmem, herase⟩ := hs.stillOpen_closed hc hes
      have hcard := Finset.card_erase_add_one hmem
      rw [herase, if_pos hc, if_neg ho]
      exact hcard
    · rw [hs.stillOpen_kept hc ho, if_neg hc, if_neg ho]

theorem Ledger.Step.positions_eq (hs : l.Step o r m) :
    m.pool.metrics.positions.val + (if o.call = .closePosition then 1 else 0) =
      l.pool.metrics.positions.val + if o.call.subject = .newPosition then 1 else 0 := by
  obtain ⟨b, b', hf, hp, hp', hb⟩ := hs.exists_book
  rw [← hp, ← hp']
  exact (Book.relabels_of_perform hf hb).positions_eq

theorem Founded.card_stillOpen {d : Opened} (h : Founded d) (hr : Run (Ledger.opened d) es m)
    (hes : Retired es) : m.pool.metrics.positions.val = (stillOpen es m).card := by
  induction hr with
  | nil =>
    rw [show (Ledger.opened d).pool = d.pool from rfl, h.counted.2]
    rfl
  | @snoc es l m o r hr hp ih =>
    have hs := Ledger.step_of_perform hp
    have ih := ih (List.pairwise_append.1 hes).1
    have hcard := hs.card_stillOpen hr hes
    have hcount := hs.positions_eq
    omega

/-- What a position has of something that closed positions have none of adds up to the total. -/
theorem Run.sum_stillOpen (hr : Run l es m) (hes : Retired es) {X : Position → Nat}
    (hX : ∀ x, X x ≤ x.weight) : ∑ n ∈ stillOpen es m, X (m.positionAt n) = m.total X := by
  have hblank : X {} = 0 := Nat.le_zero.1 (hX {})
  rw [← m.sum_positionAt hblank (Nat.le_refl _)]
  refine Finset.sum_subset (Finset.filter_subset _ _) fun n hn hclosed => ?_
  obtain ⟨e, he, hc⟩ : ∃ e ∈ es, e.Closes n := by
    by_contra hnone
    push Not at hnone
    exact hclosed (mem_stillOpen.2 ⟨Finset.mem_range.1 hn, hnone⟩)
  exact Nat.le_zero.1 (hr.closed_weight hes e he n hc ▸ hX _)

/-- Liquidity is neither created nor lost. As long as schedules stay with their position and nobody uses a closed
position again, the pool counts just what its open positions hold, what is locked for good never comes back, and
the vested liquidity of a position is what its schedules have still to release. -/
theorem liquidity_adds_up {d : Opened} (h : Founded d) (hr : Run (Ledger.opened d) es m)
    (hown : ∀ e ∈ es, e.order.refreshesOwn = true) (hes : Retired es) :
    m.pool.liquidity.val = ∑ n ∈ stillOpen es m, (m.positionAt n).weight ∧
    m.pool.permanent.val = ∑ n ∈ stillOpen es m, (m.positionAt n).permanent.val ∧
    (∀ e ∈ es, e.before.pool.permanent ≤ m.pool.permanent) ∧
    m.pool.metrics.positions.val = (stillOpen es m).card ∧
    ∀ x ∈ m.holdings,
      (∀ v ∈ x.schedules, ∃ T, v.total = .ok T ∧ T.val = v.released.val + v.outstanding) ∧
      x.position.vested.val = (x.schedules.map Vesting.outstanding).sum := by
  refine ⟨?_, ?_, hr.permanent_le.2, h.card_stillOpen hr hes, fun x hx => ?_⟩
  · rw [h.liquidity_eq hr, hr.sum_stillOpen hes fun x => Nat.le_refl _]
  · rw [h.permanent_eq hr, hr.sum_stillOpen hes fun x => Nat.le_add_left _ _]
  · obtain ⟨hle, hlt, hvested⟩ := h.scheduled hr hown x hx
    refine ⟨fun v hv => ⟨⟨v.whole, hlt v hv⟩, Vesting.total_eq_ok.2 rfl, ?_⟩, hvested⟩
    exact (Nat.add_sub_of_le (hle v hv)).symm

/-- Two positions lock liquidity by schedules, one of them twice and some of it for good; a third is opened and
closed. -/
def lockingTour : List Order := [
  { call := .lock .none {
      cliff := some (.lit 64 105), frequency := .lit 64 10
      atCliff := .lit 128 1000, perPeriod := .lit 128 500, periods := .lit 16 4 } {} },
  { call := .openPosition .none .none {} },
  { call := .addLiquidity sampleTerms.liquidity (.both .top) {} (.both none), holder := 1 },
  { call := .lock .none { atCliff := .lit 128 70 } { slot := .lit 64 50 }, holder := 1 },
  { call := .lock .none { frequency := .lit 64 5, perPeriod := .lit 128 11, periods := .lit 16 3 }
      { slot := .lit 64 60 }, holder := 1 },
  { call := .refresh { slot := .lit 64 125 }, schedule := .own 0 },
  { call := .refresh { slot := .lit 64 70 }, holder := 1, schedule := .own 1 },
  { call := .lockForever (.lit 128 300) {}, holder := 1 },
  { call := .openPosition .none .none {} },
  { call := .closePosition, holder := 2 }]

theorem liquidity_adds_up_lockingTour : ∃ d es m x, Founded d ∧ Run (Ledger.opened d) es m ∧
    es.map Event.order = lockingTour ∧ stillOpen es m = {0, 1} ∧ m.holdings[1]? = some x ∧
    m.pool.liquidity.val = (m.positionAt 0).weight + (m.positionAt 1).weight ∧
    m.pool.permanent.val = (m.positionAt 0).permanent.val + (m.positionAt 1).permanent.val ∧
    (∀ e ∈ es, e.before.pool.permanent ≤ m.pool.permanent) ∧
    m.pool.metrics.positions.val = 2 ∧ x.position.vested.val = 11 ∧
    x.position.vested.val = (x.schedules.map Vesting.outstanding).sum := by
  have h : ((sampleSession lockingTour).bind fun s => (s.2.2.holdings[1]?).map fun x =>
      (s.2.1.map Event.order, s.2.1.all fun e => e.order.refreshesOwn, decide (Retired s.2.1),
        stillOpen s.2.1 s.2.2, x.position.vested)) =
      some (lockingTour, true, true, {0, 1}, .lit 128 11) := by decide +kernel
  obtain ⟨⟨d, es, m⟩, hs, h⟩ := Option.bind_eq_some_iff.1 h
  obtain ⟨x, hx, h⟩ := Option.map_eq_some_iff.1 h
  simp only [Prod.mk.injEq, List.all_eq_true, decide_eq_true_eq] at h
  obtain ⟨hes, hown, hretired, hopen, hvested⟩ := h
  obtain ⟨hd, hr⟩ := sampleSession_eq_some hs
  obtain ⟨hliquidity, hpermanent, hle, hcount, hall⟩ :=
    liquidity_adds_up hd.founded hr hown hretired
  rw [hopen, Finset.sum_pair (by decide)] at hliquidity hpermanent
  rw [hopen] at hcount
  refine ⟨d, es, m, x, hd.founded, hr, hes, hopen, hx, hliquidity, hpermanent, hle, hcount, ?_,
    (hall x (List.mem_of_getElem? hx)).2⟩
  rw [hvested]
  rfl

end

end Market

end RangePool
