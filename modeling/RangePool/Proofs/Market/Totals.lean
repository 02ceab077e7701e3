import RangePool.Proofs.Market.Exit
import RangePool.Proofs.Market.Price
import RangePool.Proofs.Pool.Booking
/-!
Totals can stand in the way. A pool counts what it ever charged and a position what it was ever paid, in fields of a
fixed width. All that is held at one time fits as long as the vaults do, so that in every state a pool can reach the
totals alone decide whether a trade can be booked and whether fees can be claimed.
-/
set_option autoImplicit false

namespace RangePool

namespace Position

def HasRoom (x : Position) (stored : Pair Accrual) : Prop :=
  ∀ t, (x.claimed.get t).val + ((x.pending.get t).val + x.unsettled stored t) < 2 ^ 64

instance (x : Position) (stored : Pair Accrual) : Decidable (x.HasRoom stored) :=
  decidable_of_iff (∀ t ∈ [Side.a, .b],
      (x.claimed.get t).val + ((x.pending.get t).val + x.unsettled stored t) < 2 ^ 64)
    ⟨fun h t => h t (by cases t <;> simp), fun h t _ => h t⟩

theorem exists_claimFees {x : Position} : (∃ y paid, x.claimFees = .ok (y, paid)) ↔
    ∀ t, (x.claimed.get t).val + (x.pending.get t).val < 2 ^ 64 := by
  simp only [claimFees, bind_eq_ok, pure_eq_ok]
  constructor
  · rintro ⟨_, _, a, ha, b, hb, -⟩ t
    cases t
    · exact Word.exists_add.1 ⟨a, ha⟩
    · exact Word.exists_add.1 ⟨b, hb⟩
  · intro h
    obtain ⟨a, ha⟩ := Word.exists_add.2 (h .a)
    obtain ⟨b, hb⟩ := Word.exists_add.2 (h .b)
    exact ⟨_, _, a, ha, b, hb, rfl⟩

end Position

structure Pool.Quotes (p : Pool) (time : Point) (dir : Direction) (fee : Placement) (q : Pool)
    (u : Quote) : Prop where
  rebased : p.rebase time = .ok q
  placed : ∃ referred, fee = Placement.of p.collection dir referred
  quoted : ∃ exact now x, q.quote exact dir fee now x = .ok u

theorem Pool.MovesTo.out_le_backing {p : Pool} {dir : Direction} {next : Price} {into out : Nat}
    (h : p.MovesTo dir next into out) (hp : p.Ranged) :
    out ≤ p.backing .up p.liquidity.val dir.output := by
  have hnext : Pool.Ranged { p with price := next } := ⟨hp.pos, h.low hp.low, h.high hp.high⟩
  obtain ⟨n, d, -, hrest, -⟩ := backing_eq hnext p.liquidity.val dir.output
  have hrest : (0 : ℚ) ≤ p.liquidity.val * p.densityAt next dir.output := by
    refine le_of_le_of_eq ?_ hrest.symm
    positivity
  have hup : (p.liquidity.val : ℚ) * p.density dir.output ≤
      p.backing .up p.liquidity.val dir.output := sides_backing hp .up _ dir.output
  have hlost := h.lost
  rw [mul_sub] at hlost
  have hout : (out : ℚ) ≤ p.backing .up p.liquidity.val dir.output := by linarith
  exact_mod_cast hout

namespace Market

theorem exists_claimFees {p : Pool} {x : Position} {L : Liquidity} (hL : x.weight = L.val)
    (hx : Behind p x)
    (hfits : ∀ t, (x.pending.get t).val + x.unsettled p.feePerLiquidity t < Nat.pow 2 64) :
    (∃ y paid, claimFees p x = .ok (y, paid)) ↔ x.HasRoom p.feePerLiquidity := by
  obtain ⟨z, hz⟩ := Position.exists_settleFees hL hx hfits
  obtain ⟨hframe, hpending, -⟩ := Position.settleFees_ok hz
  have hclaimed : z.claimed = x.claimed := by rw [hframe]
  have hsettled : claimFees p x = z.claimFees := by
    rw [claimFees, hz]
    rfl
  rw [hsettled, Position.exists_claimFees, Position.HasRoom, hclaimed]
  simp only [hpending]

section
variable {p q : Pool}

theorem Untraded.bookable (h : Untraded p q) (hp : p.Bookable) : q.Bookable := by
  have hprotocol := h.protocolFees
  have hpartner := h.partnerFees
  obtain ⟨⟨hpos, hlow, hhigh⟩, hmin, hmax, hpercents, htracked, hcounted⟩ := hp
  rw [h.frame]
  exact ⟨⟨hpos, hlow, hhigh⟩, hmin, hmax, hpercents, htracked,
    ⟨fun t => Nat.le_trans (hprotocol t) (hcounted.protocol t),
      fun t => Nat.le_trans (hpartner t) (hcounted.partner t), hcounted.accrual⟩⟩

theorem Executed.bookable {exact : Curve.Exact} {dir : Direction} {u : Traded}
    (h : Executed p exact dir u q) (hp : p.Bookable) : q.Bookable := by
  obtain ⟨r, fee, now, time, hr, hquote, hq, -⟩ := h.steps
  have hr := hp.rebase hr
  exact hr.apply (hr.promised hquote) hq

end

theorem Book.bookable_of_perform {b b' : Book} {c : Call} {r : Receipt} (hb : b.pool.Bookable)
    (h : b.perform c = .ok (b', r)) : b'.pool.Bookable := by
  cases hc : c.trade? with
  | none => exact (untraded_of_perform hc h).bookable hb
  | some t =>
    obtain ⟨u, -, hu⟩ := executed_of_perform hc h
    exact hu.bookable hb

theorem Bookable.law : Law Pool.Bookable (fun _ _ => True) where
  pool _ hb h := Book.bookable_of_perform hb h
  here _ _ _ _ := trivial
  others _ _ _ _ := trivial
  blank _ _ := trivial

theorem Opening.bookable {o : Opened} (h : Opening o) : o.pool.Bookable := by
  obtain ⟨-, t, hv, hfees⟩ := h.checked
  obtain ⟨-, hpercents, htracker⟩ := validate_parts hv
  have hu := h.founded.untouched
  obtain ⟨hmin, hmax⟩ := h.within
  have hprice : Curve.Admits o.pool.price :=
    ⟨Nat.le_trans hmin hu.ranged.low, Nat.le_trans hu.ranged.high hmax⟩
  refine ⟨hu.ranged, hmin, hmax, ?_, ?_, ?_⟩
  · rw [hfees]
    exact hpercents
  · intro hon
    rw [hfees] at hon ⊢
    cases ht : t.tracker with
    | none => simp [FeeTerms.plan, FeePlan.startAt, ht] at hon
    | some tracker =>
      simp only [FeeTerms.plan, FeePlan.startAt, ht]
      exact .of_terms (htracker tracker ht) hprice
  · constructor <;> intro t
    · simp [hu.protocolFees]
    · simp [hu.partnerFees]
    · simp [hu.feePerLiquidity]

section
variable {o : Opened} {es : List Event} {m : Ledger}

theorem Opening.reaches_bookable (h : Opening o) (hr : Run (Ledger.opened o) es m) :
    m.pool.Bookable :=
  (Bookable.law.run ⟨h.bookable, fun _ _ => trivial⟩ hr).pool

/-- A fee is charged on what comes in or on what was in the reserve, so that the vault has it besides all that it
holds for the protocol and the partner. -/
theorem Opening.fee_le_vault (ho : Opening o) (hr : Run (Ledger.opened o) es m) {due : Pair Amount}
    (hdue : o.pool.amountsFor .up o.pool.liquidity = .ok due) {time : Point} {dir : Direction}
    {fee : Placement} {q : Pool} {u : Quote} (h : m.pool.Quotes time dir fee q u) :
    ((m.pool.protocolFees.get fee.side).val + (m.pool.partnerFees.get fee.side).val +
      u.shares.sum : Int) ≤
        vaultBalance due es fee.side + dir.input.part u.input.val fee.side := by
  obtain ⟨hq, ⟨referred, hfee⟩, exact, now, x, hu⟩ := h
  have hm := (ho.reaches hr).pool
  obtain ⟨k, hk⟩ := hm.collection
  have hside : fee.side = if fee.onInput then dir.input else dir.output :=
    hfee ▸ Placement.side_of hk dir referred
  obtain ⟨howed, -⟩ := ho.founded.owed_le_vault ho.new.sound.collection hr hdue fee.side
  have hheld : (m.pool.protocolFees.get fee.side).val + (m.pool.partnerFees.get fee.side).val ≤
      m.feesOwed fee.side := Nat.le_add_right _ _
  obtain ⟨-, into, out, hmoves, hin, hout, -⟩ := Pool.quote_balance hu
  have hleaves : out ≤ m.pool.backing .up m.pool.liquidity.val dir.output := by
    rw [Pool.rebase_ok hq] at hmoves
    exact hmoves.out_le_backing ⟨hm.ranged.pos, hm.ranged.low, hm.ranged.high⟩
  cases hf : fee.onInput with
  | true =>
    simp only [hf, if_true] at hside hin
    rw [hside] at howed hheld ⊢
    rw [Side.part_self]
    omega
  | false =>
    simp only [hf, Bool.false_eq_true, if_false] at hside hout
    rw [hside] at howed hheld ⊢
    omega

/-- A trade that was quoted is booked just when the totals of the pool have room for its fee, though what is held has
room for it as long as the vault has; and a position is paid its fees just when its own totals have room for them. -/
theorem only_totals_block (ho : Opening o) (hr : Run (Ledger.opened o) es m) {due : Pair Amount}
    (hdue : o.pool.amountsFor .up o.pool.liquidity = .ok due)
    (hfits : ∀ t, vaultBalance due es t < 2 ^ 64) :
    (∀ time dir fee q u, m.pool.Quotes time dir fee q u →
      ((∃ p', q.apply u fee time = .ok p') ↔ m.pool.metrics.HasRoom fee.side u.shares) ∧
      (vaultBalance due es fee.side + dir.input.part u.input.val fee.side < 2 ^ 64 →
        u.shares.Fits (m.pool.protocolFees.get fee.side) (m.pool.partnerFees.get fee.side))) ∧
    ∀ x ∈ m.holdings, (∃ y paid, claimFees m.pool x.position = .ok (y, paid)) ↔
      x.position.HasRoom m.pool.feePerLiquidity := by
  refine ⟨fun time dir fee q u h => ⟨?_, fun hvault => ?_⟩, fun x hx => ?_⟩
  · obtain ⟨hq, -, exact, now, x, hu⟩ := h
    have hbookable := (ho.reaches_bookable hr).rebase hq
    have hmetrics : q.metrics = m.pool.metrics := by rw [Pool.rebase_ok hq]
    rw [hbookable.exists_apply (hbookable.promised hu), hmetrics]
  · have hle := ho.fee_le_vault hr hdue h
    rw [Shares.sum] at hle
    constructor <;> omega
  · have hm := ho.reaches hr
    obtain ⟨W, hW, -⟩ := ho.founded.exists_weight hr hx
    exact exists_claimFees hW (hm.holdings x hx) fun t =>
      (ho.founded.position_fits ho.new.sound.collection hr hdue (hfits t) hx).1

/-- A pool at price one that takes half of a trade in token B, all of it for the protocol. -/
def halfFeeTerms : CustomTerms where
  fees := {
    base := { cliff := .lit 64 500000000 }
    percents := { protocol := .lit 8 100 } }
  minPrice := Curve.minPrice
  maxPrice := Curve.maxPrice
  liquidity := .lit 128 1267650600228229401496703205376
  price := sampleTerms.price
  collection := .of .onlyB

/-- Token B goes round: it comes in, half of it is collected, and the rest is bought back. -/
def roundabout : List Order :=
  let admin : Key := ⟨.lit 256 101⟩
  let collect : Order := { call := .claimProtocolFees { admins := [admin] } admin }
  let sell (dir : Direction) (x : Amount) : Order :=
    { call := .swap dir x 0 .none false {} (.both none) }
  [sell .bToA (.lit 64 10000000000000000000), collect, sell .bToA (.lit 64 10000000000000000000),
    collect, sell .aToB (.lit 64 68000000000), collect]

def quotedInTheEnd (x : Amount) :
    Option (Opened × List Event × Ledger × Pair Amount × Pool × Quote) := do
  let (o, es, m) ← session halfFeeTerms roundabout
  let due ← (o.pool.amountsFor .up o.pool.liquidity).toOption
  let q ← (m.pool.rebase 0).toOption
  let u ← (q.quote .input .bToA (Placement.of m.pool.collection .bToA false) 0 x).toOption
  return (o, es, m, due, q, u)

theorem quotedInTheEnd_eq_some {x : Amount} {due : Pair Amount} {q : Pool} {u : Quote}
    (h : quotedInTheEnd x = some (o, es, m, due, q, u)) : Opening o ∧ Run (Ledger.opened o) es m ∧
      o.pool.amountsFor .up o.pool.liquidity = .ok due ∧
      m.pool.Quotes 0 .bToA (Placement.of m.pool.collection .bToA false) q u := by
  simp only [quotedInTheEnd, Option.pure_def, Option.bind_eq_bind, Option.bind_eq_some_iff,
    toOption_eq_some, Prod.exists, Option.some.injEq, Prod.mk.injEq] at h
  obtain ⟨o', es', m', hs, due', hdue, q', hq, u', hu, rfl, rfl, rfl, rfl, rfl, rfl⟩ := h
  obtain ⟨ho, hr⟩ := session_eq_some hs
  exact ⟨ho, hr, hdue, hq, ⟨false, rfl⟩, .input, 0, x, hu⟩

theorem only_totals_block_roundabout : ∃ o es m due q u x, Opening o ∧
    Run (Ledger.opened o) es m ∧ es.map Event.order = roundabout ∧
    o.pool.amountsFor .up o.pool.liquidity = .ok due ∧ (∀ t, vaultBalance due es t < 2 ^ 64) ∧
    m.pool.Quotes 0 .bToA (Placement.of m.pool.collection .bToA false) q u ∧
    (∃ p', q.apply u (Placement.of m.pool.collection .bToA false) 0 = .ok p') ∧
    m.holdings[0]? = some x ∧ ∃ y paid, claimFees m.pool x.position = .ok (y, paid) := by
  have h : ((quotedInTheEnd (.lit 64 1000000000000000000)).bind fun (_, es, m, due, _, u) =>
      m.holdings[0]?.map fun x => decide (es.map Event.order = roundabout ∧
        vaultBalance due es .a < 2 ^ 64 ∧ vaultBalance due es .b < 2 ^ 64 ∧
        m.pool.metrics.HasRoom (Placement.of m.pool.collection .bToA false).side u.shares ∧
        x.position.HasRoom m.pool.feePerLiquidity)) = some true := by decide +kernel
  obtain ⟨⟨o, es, m, due, q, u⟩, hs, h⟩ := Option.bind_eq_some_iff.1 h
  obtain ⟨x, hx, h⟩ := Option.map_eq_some_iff.1 h
  obtain ⟨hes, hvaultA, hvaultB, hpool, hposition⟩ := of_decide_eq_true h
  obtain ⟨ho, hr, hdue, hq⟩ := quotedInTheEnd_eq_some hs
  have hfits : ∀ t, vaultBalance due es t < 2 ^ 64 := by
    intro t
    cases t
    · exact hvaultA
    · exact hvaultB
  obtain ⟨htrades, hclaims⟩ := only_totals_block ho hr hdue hfits
  exact ⟨o, es, m, due, q, u, x, ho, hr, hes, hdue, hfits, hq, (htrades _ _ _ _ _ hq).1.2 hpool, hx,
    (hclaims x (List.mem_of_getElem? hx)).2 hposition⟩

/-- As much as went round each time is quoted and fits the vault, but not the total of the protocol. -/
theorem quoted_not_booked : ∃ o es m due q u, Opening o ∧ Run (Ledger.opened o) es m ∧
    es.map Event.order = roundabout ∧ InOrder roundabout ∧
    o.pool.amountsFor .up o.pool.liquidity = .ok due ∧
    (∀ t, vaultBalance due es t + Direction.bToA.input.part u.input.val t < 2 ^ 64) ∧
    m.pool.Quotes 0 .bToA (Placement.of m.pool.collection .bToA false) q u ∧
    q.apply u (Placement.of m.pool.collection .bToA false) 0 = .error (.arithmetic .add) ∧
    swap m.pool .bToA (.lit 64 10000000000000000000) 0 .none false {} (.both none) =
      .error (.arithmetic .add) := by
  have h : ((quotedInTheEnd (.lit 64 10000000000000000000)).map fun (_, es, m, due, q, u) =>
      decide (es.map Event.order = roundabout ∧
        vaultBalance due es .a + Direction.bToA.input.part u.input.val .a < 2 ^ 64 ∧
        vaultBalance due es .b + Direction.bToA.input.part u.input.val .b < 2 ^ 64 ∧
        q.apply u (Placement.of m.pool.collection .bToA false) 0 = .error (.arithmetic .add) ∧
        swap m.pool .bToA (.lit 64 10000000000000000000) 0 .none false {} (.both none) =
          .error (.arithmetic .add))) = some true := by decide +kernel
  obtain ⟨⟨o, es, m, due, q, u⟩, hs, h⟩ := Option.map_eq_some_iff.1 h
  obtain ⟨hes, hvaultA, hvaultB, happly, hswap⟩ := of_decide_eq_true h
  obtain ⟨ho, hr, hdue, hq⟩ := quotedInTheEnd_eq_some hs
  refine ⟨o, es, m, due, q, u, ho, hr, hes, by decide +kernel, hdue, fun t => ?_, hq, happly, hswap⟩
  cases t
  · exact hvaultA
  · exact hvaultB

end

end Market

end RangePool
