import RangePool.Proofs.Market.Exit
/-!
Accruals only grow, and no checkpoint overtakes the accrual it is taken from. A slot that is open keeps its token, and
no slot is ahead of its campaign. In every state that a run leads to a position can be settled, as far as the
subtraction of its checkpoints goes, whenever it was opened and whatever became of the slots since.
-/
set_option autoImplicit false

namespace RangePool

theorem Accrual.gain_ne_sub {stored since : Accrual} (h : since.val ≤ stored.val) (L : Liquidity)
    (n : Nat) : Accrual.gain stored since L n ≠ .error (.arithmetic .sub) :=
  bind_ne_error (Word.sub_ne_error h _) fun _ => Word.kept_ne_error (by decide) (by decide) _

theorem Stake.settle_ne_sub {s : Stake} {r : RewardSlot}
    (h : s.checkpoint.val ≤ r.perLiquidity.val) (L : Liquidity) :
    s.settle L r ≠ .error (.arithmetic .sub) := by
  unfold settle
  split
  · split
    · exact nofun
    · refine bind_ne_error (Accrual.gain_ne_sub h L 192) fun gain => ?_
      refine bind_ne_error (Word.narrow_ne_error (by decide) _ _) fun n => ?_
      refine bind_ne_error (Word.add_ne_error (by decide) _ _) fun pending => ?_
      exact nofun
  · exact nofun

namespace Position

variable {x : Position}

theorem total_ne_sub : x.total ≠ .error (.arithmetic .sub) :=
  bind_ne_error (Word.add_ne_error (by decide) _ _) fun _ => Word.add_ne_error (by decide) _ _

theorem settleFees_ne_sub {stored : Pair Accrual}
    (h : ∀ t, (x.checkpoints.get t).val ≤ (stored.get t).val) :
    x.settleFees stored ≠ .error (.arithmetic .sub) := by
  refine bind_ne_error total_ne_sub fun L => ?_
  split
  · exact nofun
  · refine bind_ne_error (Accrual.gain_ne_sub (h .a) L 128) fun gainA => ?_
    refine bind_ne_error (Accrual.gain_ne_sub (h .b) L 128) fun gainB => ?_
    refine bind_ne_error (Word.narrow_ne_error (by decide) _ _) fun n => ?_
    refine bind_ne_error (Word.add_ne_error (by decide) _ _) fun a => ?_
    refine bind_ne_error (Word.narrow_ne_error (by decide) _ _) fun n' => ?_
    refine bind_ne_error (Word.add_ne_error (by decide) _ _) fun b => ?_
    exact nofun

theorem settleRewards_ne_sub {slots : Slots RewardSlot}
    (h : ∀ i, (x.stakes.get i).checkpoint.val ≤ (slots.get i).perLiquidity.val) :
    x.settleRewards slots ≠ .error (.arithmetic .sub) := by
  refine bind_ne_error total_ne_sub fun L => ?_
  refine bind_ne_error ?_ fun stakes => nofun
  refine bind_ne_error (Stake.settle_ne_sub (h .first) L) fun first => ?_
  refine bind_ne_error (Stake.settle_ne_sub (h .second) L) fun second => ?_
  exact nofun

end Position

structure Pool.Onward (p q : Pool) : Prop where
  fees : ∀ t, (p.feePerLiquidity.get t).val ≤ (q.feePerLiquidity.get t).val
  rewards : ∀ i, (p.rewards.get i).perLiquidity.val ≤ (q.rewards.get i).perLiquidity.val
  tokens : ∀ i, (p.rewards.get i).opened = true → (p.rewards.get i).SameToken (q.rewards.get i)

namespace Pool.Onward

theorem refl (p : Pool) : p.Onward p :=
  ⟨fun _ => Nat.le_refl _, fun _ => Nat.le_refl _, fun _ _ => .refl _⟩

theorem trans {p q r : Pool} (h : p.Onward q) (h' : q.Onward r) : p.Onward r := by
  refine ⟨fun t => Nat.le_trans (h.fees t) (h'.fees t),
    fun i => Nat.le_trans (h.rewards i) (h'.rewards i), fun i ho => ?_⟩
  have hq := h.tokens i ho
  exact hq.trans (h'.tokens i (hq.opened.trans ho))

theorem of_updated {p q : Pool} {now : Point} (h : p.RewardsUpdated now q) : p.Onward q := by
  refine ⟨fun t => ?_, fun i => (h.slot i).accrues, fun i _ => h.sameToken i⟩
  rw [h.frame]

end Pool.Onward

namespace Market

theorem Book.onward_of_perform {b b' : Book} {c : Call} {r : Receipt} (hc : b.Fits c) (h : b.perform c = .ok (b', r)) :
    b.pool.Onward b'.pool :=
  ⟨(moves_of_perform hc h).accrues, fun i => (streams_of_perform hc h i).accrues,
    fun i ho => (streams_of_perform hc h i).sameToken (.inr ho)⟩

theorem Onward.law (p : Pool) : Law p.Onward (fun _ _ => True) where
  pool hf hp h := hp.trans (Book.onward_of_perform hf h)
  here _ _ _ _ := trivial
  others _ _ _ _ := trivial
  blank _ _ := trivial

section
variable {o : Opened} {es fs : List Event} {l m : Ledger}

theorem Run.onward (hr : Run l es m) : l.pool.Onward m.pool :=
  ((Onward.law l.pool).run ⟨.refl _, fun _ _ => trivial⟩ hr).pool

/-- Over every run of a pool, whatever the clock says, accruals never fall and open slots keep their token. In every
state no slot is ahead of its campaign and no checkpoint of a position ahead of its accrual, and so settling a position
never fails on a checkpoint, be it at once or after the slots were brought to any time. -/
theorem checkpoints_stay_behind (h : Founded o) (hl : Run (Ledger.opened o) es l)
    (hr : Run l fs m) : l.pool.Onward m.pool ∧
    (∀ i, (m.pool.rewards.get i).lastUpdate.val ≤ (m.pool.rewards.get i).endsAt.val) ∧
    ∀ x ∈ m.holdings, Behind m.pool x.position ∧ StakesBehind m.pool x.position ∧
      ∀ q, q = m.pool ∨ (∃ now, m.pool.updateRewards now = .ok q) →
        x.position.settleFees q.feePerLiquidity ≠ .error (.arithmetic .sub) ∧
        x.position.settleRewards q.rewards ≠ .error (.arithmetic .sub) := by
  have hm := hl.append hr
  have hfees := h.behind hm
  have hrewards := RewardsKept.law.run h.rewardsObey hm
  refine ⟨hr.onward, fun i => (hrewards.pool i).inTime, fun x hx => ?_⟩
  have hcheckpoints : Behind m.pool x.position := hfees.holdings x hx
  have hstakes : StakesBehind m.pool x.position := hrewards.holdings x hx
  refine ⟨hcheckpoints, hstakes, fun q hq => ?_⟩
  have honward : m.pool.Onward q := by
    rcases hq with rfl | ⟨now, hq⟩
    · exact .refl _
    · exact .of_updated (Pool.updateRewards_ok hq)
  exact ⟨Position.settleFees_ne_sub fun t => Nat.le_trans (hcheckpoints t) (honward.fees t),
    Position.settleRewards_ne_sub fun i => Nat.le_trans (hstakes i) (honward.rewards i)⟩

/-- A slot is opened between two positions and funded. Once it has accrued, a third position is opened and then takes
part, and the other slot is opened. -/
def accrualTour : List Order × List Order :=
  let admin : Key := ⟨.lit 256 13⟩
  let auth : Authority := { admins := [admin] }
  let noon : Clock := { time := .lit 64 43200 }
  let evening : Clock := { time := .lit 64 64800 }
  let week : Word 64 := .lit 64 604800
  ([{ call := .openReward auth admin 0 week admin ⟨.lit 256 8⟩ ⟨.lit 256 9⟩ },
    { call := .openPosition .none admin {} },
    { call := .fundReward auth admin 0 week false {} none }],
   [{ call := .swap .aToB (.lit 64 6000000) 0 .none false {} (.both none) },
    { call := .claimReward 0 noon },
    { call := .openPosition .none admin noon },
    { call := .openReward auth admin 1 week admin .none .none },
    { call := .addLiquidity sampleTerms.liquidity (.both .top) evening (.both none), holder := 2 }])

theorem checkpoints_stay_behind_accrualTour : ∃ o es l fs m x q, Founded o ∧
    Run (Ledger.opened o) es l ∧ Run l fs m ∧
    (es.map Event.order, fs.map Event.order) = accrualTour ∧
    (l.pool.rewards.get .first).opened = true ∧ (l.pool.rewards.get .first).perLiquidity = 0 ∧
    0 < (m.pool.rewards.get .first).perLiquidity.val ∧ m.holdings[2]? = some x ∧
    l.pool.Onward m.pool ∧ Behind m.pool x.position ∧ StakesBehind m.pool x.position ∧
    (x.position.stakes.get .first).checkpoint = (m.pool.rewards.get .first).perLiquidity ∧
    m.pool.updateRewards (.lit 64 86400) = .ok q ∧
    (m.pool.rewards.get .first).perLiquidity.val < (q.rewards.get .first).perLiquidity.val ∧
    x.position.settleRewards q.rewards ≠ .error (.arithmetic .sub) := by
  have h : ((sampleSession accrualTour.1).bind fun s => (s.2.2.replay accrualTour.2).bind fun t =>
      (t.2.holdings[2]?).bind fun x => (t.2.pool.updateRewards (.lit 64 86400)).toOption.map fun q =>
        let accrued (p : Pool) : Accrual := (p.rewards.get .first).perLiquidity
        ((s.2.1.map Event.order, t.1.map Event.order), (s.2.2.pool.rewards.get .first).opened,
          decide (accrued s.2.2.pool = 0), decide (0 < (accrued t.2.pool).val),
          decide ((x.position.stakes.get .first).checkpoint = accrued t.2.pool),
          decide ((accrued t.2.pool).val < (accrued q).val))) =
      some (accrualTour, true, true, true, true, true) := by decide +kernel
  obtain ⟨⟨o, es, l⟩, hs, h⟩ := Option.bind_eq_some_iff.1 h
  obtain ⟨⟨fs, m⟩, hr, h⟩ := Option.bind_eq_some_iff.1 h
  obtain ⟨x, hx, h⟩ := Option.bind_eq_some_iff.1 h
  obtain ⟨q, hq, h⟩ := Option.map_eq_some_iff.1 h
  simp only [Prod.mk.injEq, decide_eq_true_eq] at h
  obtain ⟨horders, hopen, hzero, hpos, hcheckpoint, hlater⟩ := h
  obtain ⟨ho, hl⟩ := sampleSession_eq_some hs
  have hr : Run l fs m := .of_replay hr
  have hq : m.pool.updateRewards (.lit 64 86400) = .ok q := toOption_eq_some.1 hq
  obtain ⟨honward, -, hbehind⟩ := checkpoints_stay_behind ho.founded hl hr
  obtain ⟨hfees, hstakes, hsettle⟩ := hbehind x (List.mem_of_getElem? hx)
  exact ⟨o, es, l, fs, m, x, q, ho.founded, hl, hr, horders, hopen, hzero, hpos, hx, honward, hfees,
    hstakes, hcheckpoint, hq, hlater, (hsettle q (.inr ⟨_, hq⟩)).2⟩

end

end Market

end RangePool
