import RangePool.Proofs.Market.Frame
import RangePool.Proofs.Market.Reachable
import RangePool.Proofs.Pool.Booking
/-!
The books of the fees. The totals of a pool count every part of every fee in the token it was charged in, and what is
held for the protocol and the partner is what was ever charged for them less what they were paid.
-/
set_option autoImplicit false

namespace RangePool

def Shares.kept (s : Shares) : Nat := s.protocol.val - s.referral.val

def Collection.side (k : Collection) (dir : Direction) : Side :=
  match k with
  | .received => dir.output
  | .onlyB => .b

theorem Placement.side_eq {c : Coded Collection} {k : Collection} (h : c = .of k) (dir : Direction)
    (referred : Bool) : (Placement.of c dir referred).side = k.side dir := by
  subst h
  simp only [Placement.of, Coded.member?_of]
  cases k <;> cases dir <;> rfl

theorem Pool.SameButTracker.crosses {p q : Pool} {exact : Curve.Exact} {dir : Direction}
    {next : Price} {into out : Amount} (h : p.SameButTracker q)
    (hq : q.Crosses exact dir next into out) : p.Crosses exact dir next into out := by
  rw [h] at hq
  exact hq

namespace Market

def feePart (part : Shares → Nat) (c : Call) (r : Receipt) (t : Side) : Nat :=
  match c.trade?, r with
  | some _, .traded u => u.feeSide.part (part u.quote.shares) t
  | _, _ => 0

/-- What lies between the curve and the trader is the fee, whole and in one token. -/
structure Traded.Charged (u : Traded) (p : Pool) (exact : Curve.Exact) (dir : Direction) (s : Side) :
    Prop where
  referral : u.quote.shares.referral.val ≤ u.quote.shares.protocol.val
  crossing : ∃ into out, p.Crosses exact dir u.quote.nextPrice into out ∧
    u.quote.input.val = into.val + s.part u.quote.shares.sum dir.input ∧
    out.val = u.quote.output.val + s.part u.quote.shares.sum dir.output

structure Entered (p : Pool) (c : Call) (r : Receipt) (p' : Pool) (t : Side) : Prop where
  lp : (p'.metrics.lp.get t).val = (p.metrics.lp.get t).val + feePart (fun s => s.lp.val) c r t
  protocol : (p'.metrics.protocol.get t).val =
    (p.metrics.protocol.get t).val + feePart Shares.kept c r t
  partner : (p'.metrics.partner.get t).val =
    (p.metrics.partner.get t).val + feePart (fun s => s.partner.val) c r t
  protocolHeld : (p'.protocolFees.get t).val + protocolPaid r t =
    (p.protocolFees.get t).val + feePart Shares.kept c r t
  partnerHeld : (p'.partnerFees.get t).val + partnerPaid r t =
    (p.partnerFees.get t).val + feePart (fun s => s.partner.val) c r t

section
variable {p p' : Pool} {exact : Curve.Exact} {dir : Direction} {fee : Placement} {u : Traded}

theorem ExecutedAt.charged (h : ExecutedAt p exact dir fee u p') :
    ∃ s, u.Charged p exact dir s ∧
      ∀ k, p.collection = .of k → s = u.feeSide ∧ s = k.side dir := by
  obtain ⟨q, now, time, hq, hquote, hp⟩ := h.steps
  have hsame := Pool.rebase_ok hq
  obtain ⟨-, into, out, hcross, hin, hout, -⟩ := Pool.quote_crosses hquote
  refine ⟨if fee.onInput then dir.input else dir.output,
    ⟨(Pool.apply_ok hp).referral, into, out, hsame.crosses hcross, ?_, ?_⟩, fun k hk => ?_⟩
  · rw [hin]
    cases fee.onInput <;> cases dir <;> rfl
  · rw [hout]
    cases fee.onInput <;> cases dir <;> rfl
  · have hside := Placement.side_of hk dir fee.referred
    have hk' := Placement.side_eq hk dir fee.referred
    rw [← h.placed] at hside hk'
    rw [h.side, ← hside]
    exact ⟨rfl, hk'⟩

theorem ExecutedAt.entered {c : Call} (hc : c.trade? = some (exact, dir))
    (h : ExecutedAt p exact dir fee u p') (t : Side) : Entered p c (.traded u) p' t := by
  obtain ⟨q, now, time, hq, -, hp⟩ := h.steps
  have hsame := Pool.rebase_ok hq
  have hadded := Pool.apply_added hp
  have happlied := hsame.applied (Pool.apply_ok hp)
  have hmetrics : q.metrics = p.metrics := by rw [hsame]
  rw [hmetrics, ← h.side] at hadded
  have hkept : u.feeSide.part u.quote.shares.protocol.val t =
      u.feeSide.part u.quote.shares.kept t + u.feeSide.part u.quote.shares.referral.val t := by
    rw [← Side.part_add, Shares.kept, Nat.sub_add_cancel happlied.referral]
  have hprotocol := hadded.protocol t
  have hheld := happlied.protocol t
  rw [← h.side] at hheld
  constructor <;> simp only [feePart, hc, protocolPaid, partnerPaid]
  case lp => exact hadded.lp t
  case protocol => omega
  case partner => exact hadded.partner t
  case protocolHeld => omega
  case partnerHeld => exact h.side ▸ happlied.partner t

theorem Disbursed.entered {c : Call} {r : Receipt} (hc : c.trade? = none) (h : Disbursed p r p')
    (t : Side) : Entered p c r p' t := by
  constructor <;> simp only [feePart, hc, Nat.add_zero]
  case lp => rw [h.frame]
  case protocol => rw [h.frame]
  case partner => rw [h.frame]
  case protocolHeld => exact h.protocol t
  case partnerHeld => exact h.partner t

end

theorem Book.entered_of_perform {b b' : Book} {c : Call} {r : Receipt}
    (h : b.perform c = .ok (b', r)) (t : Side) : Entered b.pool c r b'.pool t := by
  cases hc : c.trade? with
  | none => exact (disbursed_of_perform hc h).entered hc t
  | some d =>
    obtain ⟨fee, u, rfl, hu⟩ := executedAt_of_perform hc h
    exact hu.entered hc t

/-- The books of a token after some events: every total is what was charged, and what is held is what was charged
less what was paid. -/
structure Balanced (es : List Event) (p : Pool) (t : Side) : Prop where
  lp : (p.metrics.lp.get t).val = flow es fun _ c r => feePart (fun s => s.lp.val) c r t
  protocol : (p.metrics.protocol.get t).val = flow es fun _ c r => feePart Shares.kept c r t
  partner : (p.metrics.partner.get t).val =
    flow es fun _ c r => feePart (fun s => s.partner.val) c r t
  protocolHeld : (p.metrics.protocol.get t).val =
    (p.protocolFees.get t).val + flow es fun _ _ r => protocolPaid r t
  partnerHeld : (p.metrics.partner.get t).val =
    (p.partnerFees.get t).val + flow es fun _ _ r => partnerPaid r t

theorem Balanced.snoc {es : List Event} {l : Ledger} {o : Order} {r : Receipt} {p : Pool} {t : Side}
    (h : Balanced es l.pool t) (he : Entered l.pool o.call r p t) :
    Balanced (es ++ [⟨l, o, r⟩]) p t := by
  constructor <;> rw [flow_snoc]
  case lp => rw [he.lp, h.lp]
  case protocol => rw [he.protocol, h.protocol]
  case partner => rw [he.partner, h.partner]
  case protocolHeld =>
    have := h.protocolHeld
    have := he.protocol
    have := he.protocolHeld
    omega
  case partnerHeld =>
    have := h.partnerHeld
    have := he.partner
    have := he.partnerHeld
    omega

section
variable {o : Opened} {es : List Event} {l m : Ledger}

theorem Founded.totals_opened (h : Founded o) :
    o.pool.metrics.protocol = .both 0 ∧ o.pool.metrics.partner = .both 0 := by
  cases h with
  | ofConfig h =>
    simp only [openPool, bind_eq_ok] at h
    obtain ⟨_, _, h⟩ := h
    rw [(openDraft_ok h).1]
    exact ⟨rfl, rfl⟩
  | custom h =>
    simp only [openCustomPool, bind_eq_ok] at h
    obtain ⟨_, _, h⟩ := h
    rw [(openDraft_ok h).1]
    exact ⟨rfl, rfl⟩

theorem Founded.balanced (h : Founded o) (hr : Run (Ledger.opened o) es m) (t : Side) :
    Balanced es m.pool t := by
  induction hr with
  | nil =>
    obtain ⟨hprotocol, hpartner⟩ := h.totals_opened
    constructor <;>
      simp [Ledger.opened, flow_nil, h.untouched.lpFees, hprotocol, hpartner,
        h.untouched.protocolFees, h.untouched.partnerFees]
  | snoc _ hp ih =>
    obtain ⟨b, b', -, hb, hb', hperform⟩ := (Ledger.step_of_perform hp).exists_book
    have he := Book.entered_of_perform hperform t
    rw [hb, hb'] at he
    exact ih.snoc he

theorem Run.charged (hr : Run l es m) : ∀ e ∈ es, ∀ exact dir,
    e.order.call.trade? = some (exact, dir) → ∃ u s, e.receipt = .traded u ∧
      u.Charged e.before.pool exact dir s ∧
      ∀ k, l.pool.collection = .of k → s = u.feeSide ∧ s = k.side dir := by
  induction hr with
  | nil =>
    intro e he
    cases he
  | @snoc es m m' c r hr hp ih =>
    intro e he exact dir hc
    rcases List.mem_append.1 he with he | he
    · exact ih e he exact dir hc
    · rw [List.mem_singleton] at he
      subst he
      obtain ⟨b, b', -, hb, -, hperform⟩ := (Ledger.step_of_perform hp).exists_book
      obtain ⟨fee, u, hu, hexecuted⟩ := Book.executedAt_of_perform hc hperform
      rw [hb] at hexecuted
      obtain ⟨s, hs, hk⟩ := hexecuted.charged
      have hterms : m.pool.collection = l.pool.collection := by rw [hr.sameTerms.frame]
      rw [hterms] at hk
      exact ⟨u, s, hu, hs, hk⟩

/-- In every state that a run leads to the books balance, for both tokens; and every trade of the run was charged its
whole fee in the token in which its fee is booked. -/
theorem fee_books_balance (h : Founded o) (hr : Run (Ledger.opened o) es m) :
    (∀ t, Balanced es m.pool t) ∧
    ∀ e ∈ es, ∀ exact dir, e.order.call.trade? = some (exact, dir) → ∃ u s, e.receipt = .traded u ∧
      u.Charged e.before.pool exact dir s ∧
      ∀ k, o.pool.collection = .of k → s = u.feeSide ∧ s = k.side dir :=
  ⟨h.balanced hr, hr.charged⟩

def partneredConfig : Config where
  fees := {
    base := { cliff := .lit 64 5000000 }
    percents := { sampleTerms.fees.percents with partner := .lit 8 50 } }
  creator := ⟨.lit 256 7⟩
  minPrice := Curve.minPrice
  maxPrice := Curve.maxPrice

def feeTour : List Order :=
  let admin : Key := ⟨.lit 256 12⟩
  [{ call := .swap .aToB (.lit 64 7000000) 0 .none true {} (.both none) },
    { call := .claimPartnerFees partneredConfig.creator (.both (.lit 64 110)) },
    { call := .swapExactOut .bToA (.lit 64 750000) .top .none false {} (.both none) },
    { call := .claimProtocolFees { admins := [admin] } admin },
    { call := .swap .aToB (.lit 64 800000) 0 .none true {} (.both none) },
    { call := .claimPartnerFees partneredConfig.creator (.both (.lit 64 310)) }]

theorem fee_books_balance_feeTour : ∃ o es m e u, Founded o ∧ Run (Ledger.opened o) es m ∧
    es.map Event.order = feeTour ∧ (∀ t, Balanced es m.pool t) ∧
    (m.pool.metrics.partner.get .a).val = 376 ∧ (m.pool.partnerFees.get .a).val = 66 ∧
    e ∈ es ∧ e.receipt = .traded u ∧ u.feeSide = .a ∧ u.quote.shares.sum = 3769 ∧
    u.Charged e.before.pool .output .bToA .a := by
  have h : ((openPool partneredConfig ⟨sampleTerms.liquidity, sampleTerms.price, none⟩ {} {}
      (.both none)).toOption.bind fun o => ((Ledger.opened o).replay feeTour).bind fun s =>
        s.1[2]?.map fun e => (decide (o.pool.collection = .of .received), s.1.map Event.order,
          (s.2.pool.metrics.partner.get .a).val, (s.2.pool.partnerFees.get .a).val,
          feePart Shares.sum e.order.call e.receipt .a)) =
      some (true, feeTour, 376, 66, 3769) := by decide +kernel
  obtain ⟨o, ho, h⟩ := Option.bind_eq_some_iff.1 h
  obtain ⟨⟨es, m⟩, hr, h⟩ := Option.bind_eq_some_iff.1 h
  obtain ⟨e, he, h⟩ := Option.map_eq_some_iff.1 h
  simp only [Prod.mk.injEq, decide_eq_true_eq] at h
  obtain ⟨hk, hes, htotal, hheld, hsum⟩ := h
  have ho : Founded o := .ofConfig (toOption_eq_some.1 ho)
  have hr : Run (Ledger.opened o) es m := .of_replay hr
  have horder : some e.order = feeTour[2]? := by rw [← hes, List.getElem?_map, he, Option.map_some]
  have hc : e.order.call.trade? = some (.output, .bToA) := by
    rw [Option.some.inj horder]
    rfl
  have he : e ∈ es := List.mem_of_getElem? he
  obtain ⟨hbalanced, htrades⟩ := fee_books_balance ho hr
  obtain ⟨u, s, hu, hs, hside⟩ := htrades e he .output .bToA hc
  obtain ⟨hfee, rfl⟩ := hside .received hk
  have hfee : u.feeSide = .a := hfee.symm
  refine ⟨o, es, m, e, u, ho, hr, hes, hbalanced, htotal, hheld, he, hu, hfee, ?_, hs⟩
  simpa only [feePart, hc, hu, hfee, Side.part_self] using hsum

end

end Market

end RangePool
