import Mathlib.Algebra.BigOperators.Field
import RangePool.Proofs.Market.Frame
import RangePool.Proofs.Market.Reachable
/-!
What liquidity earns. The share of a position in a fee is its part of the liquidity at that trade. Over every run
a position is paid its shares but for dust: one rounding for each trade and one for each time it is settled, all of
them against it.
-/
set_option autoImplicit false

namespace RangePool

namespace Position

/-- What a position is owed in fees by exact measure: what is pending, and what its liquidity earned since its
checkpoints. -/
def due (x : Position) (stored : Pair Accrual) (t : Side) : ℚ :=
  (x.pending.get t).val +
    x.weight * ((stored.get t).val / 2 ^ 128 - (x.checkpoints.get t).val / 2 ^ 128)

structure Credited (x : Position) (stored : Pair Accrual) (paid : Side → Nat) (y : Position) :
    Prop where
  checkpoints : y.checkpoints = stored
  pending : ∀ t, (y.pending.get t).val + paid t = (x.pending.get t).val + x.unsettled stored t

section
variable {x y z : Position} {stored : Pair Accrual}

theorem due_eq_pending (h : y.checkpoints = stored) (t : Side) :
    y.due stored t = (y.pending.get t).val := by
  rw [due, h, sub_self, mul_zero, add_zero]

theorem due_of_stakes (h : y = { x with stakes := y.stakes }) (t : Side) :
    y.due stored t = x.due stored t := by
  rw [h]
  rfl

theorem settled_le_due (h : ∀ t, (x.checkpoints.get t).val ≤ (stored.get t).val) (t : Side) :
    ((x.pending.get t).val + x.unsettled stored t : ℚ) ≤ x.due stored t := by
  have he := Accrual.earned_le (n := 128) (w := x.weight) fun _ => h t
  rw [due, unsettled, mul_sub]
  linarith

theorem due_lt_settled (h : ∀ t, (x.checkpoints.get t).val ≤ (stored.get t).val) (t : Side) :
    x.due stored t < (x.pending.get t).val + x.unsettled stored t + 1 := by
  have he := Accrual.lt_earned_add_one (n := 128) (w := x.weight) fun _ => h t
  rw [due, unsettled, mul_sub]
  linarith

theorem FeesSettled.credited {x' : Position} (hy : y = { x with stakes := y.stakes })
    (hz : y.FeesSettled stored z)
    (hx : x' = { z with unlocked := x'.unlocked, vested := x'.vested, permanent := x'.permanent }) :
    x.Credited stored (fun _ => 0) x' := by
  refine ⟨?_, fun t => ?_⟩
  · rw [hx, hz.checkpoints]
  · have hp := hz.pending t
    rw [hy] at hp
    rw [hx]
    exact hp

end

end Position

namespace Market

def lpFee (c : Call) (r : Receipt) (t : Side) : Nat :=
  match c.trade?, r with
  | some _, .traded u => u.feeSide.part u.quote.shares.lp.val t
  | _, _ => 0

def charged (c : Call) (r : Receipt) (t : Side) : Nat :=
  match c.trade?, r with
  | some _, .traded u => u.feeSide.part 1 t
  | _, _ => 0

def claimedFees : Call → Receipt → Side → Nat
  | .claimFees, .feesClaimed x, t => (x.get t).val
  | _, _, _ => 0

def Call.settles : Call → Bool
  | .addLiquidity .. | .removeLiquidity .. | .removeAll .. | .claimFees | .lock .. | .refresh ..
  | .lockForever .. => true
  | _ => false

section
variable {c : Call} {r : Receipt} {t : Side}

theorem lpFee_untraded (h : c.trade? = none) : lpFee c r t = 0 := by
  simp only [lpFee, h]

theorem Call.trade?_of_subject (h : c.subject ≠ .pool) : c.trade? = none := by
  cases c <;> simp_all [trade?, subject]

theorem claimedFees_of_subject (h : c.subject ≠ .position) : claimedFees c r t = 0 := by
  cases c <;> simp_all [claimedFees, Call.subject]

end

/-- A trade credits every unit of liquidity alike, rounded down. -/
theorem Executed.accrues {p p' : Pool} {exact : Curve.Exact} {dir : Direction} {u : Traded}
    (h : Executed p exact dir u p') :
    p.liquidity.val ≠ 0 ∧ ∀ t,
      (p'.feePerLiquidity.get t).val = (p.feePerLiquidity.get t).val +
        u.feeSide.part (u.quote.shares.lp.val * 2 ^ 128 / p.liquidity.val) t ∧
      (p'.metrics.lp.get t).val =
        (p.metrics.lp.get t).val + u.feeSide.part u.quote.shares.lp.val t := by
  obtain ⟨q, fee, now, time, hq, -, hp, hside⟩ := h.steps
  have hq := Pool.rebase_ok hq
  have ha := Pool.apply_accrues hp
  rw [hq] at ha
  rw [hside]
  exact ha

section
variable {b b' : Book} {c : Call} {r : Receipt}

theorem Book.lpFees_of_perform (h : b.perform c = .ok (b', r)) (t : Side) :
    (b'.pool.metrics.lp.get t).val = (b.pool.metrics.lp.get t).val + lpFee c r t ∧
      (b.pool.liquidity.val = 0 → lpFee c r t = 0) := by
  cases hc : c.trade? with
  | none =>
    rw [(untraded_of_perform hc h).frame, lpFee_untraded hc]
    exact ⟨rfl, fun _ => rfl⟩
  | some d =>
    obtain ⟨u, rfl, hu⟩ := executed_of_perform hc h
    obtain ⟨hL, hu⟩ := hu.accrues
    refine ⟨?_, fun h0 => absurd h0 hL⟩
    rw [(hu t).2]
    simp only [lpFee, hc]

/-- What a credit per unit of liquidity is worth to liquidity `w` of `L`: its share of the fee, short of it by less
than one. -/
theorem credit_of_share (fee : Nat) {w L : Nat} (hw : w ≤ L) (hL : L < 2 ^ 128) :
    (w * ((fee * 2 ^ 128 / L : Nat) / 2 ^ 128) : ℚ) ≤ fee * w / L ∧
      (fee * w / L : ℚ) ≤ w * ((fee * 2 ^ 128 / L : Nat) / 2 ^ 128) + 1 := by
  rcases Nat.eq_zero_or_pos L with rfl | hL0
  · obtain rfl : w = 0 := by omega
    simp
  have hfloor : ((fee * 2 ^ 128 / L : Nat) : ℚ) ≤ fee * 2 ^ 128 / L := by
    have := Nat.cast_div_le (α := ℚ) (m := fee * 2 ^ 128) (n := L)
    push_cast at this ⊢
    exact this
  have hnext : (fee * 2 ^ 128 / L : ℚ) ≤ (fee * 2 ^ 128 / L : Nat) + 1 := by
    have := (Rounding.lt_down_add_one (fee * 2 ^ 128) L).le
    push_cast [Rounding.quotient] at this ⊢
    exact this
  have hunit : (w / 2 ^ 128 : ℚ) ≤ 1 := by
    rw [div_le_one (by positivity)]
    exact_mod_cast hw.trans hL.le
  have hshare : (fee * w / L : ℚ) = w / 2 ^ 128 * (fee * 2 ^ 128 / L) := by
    field_simp
  have hcredit : ∀ g : ℚ, w * (g / 2 ^ 128) = w / 2 ^ 128 * g := fun g => by ring
  rw [hshare, hcredit]
  constructor
  · gcongr
  · calc (w / 2 ^ 128 * (fee * 2 ^ 128 / L) : ℚ)
        ≤ w / 2 ^ 128 * ((fee * 2 ^ 128 / L : Nat) + 1) := by gcongr
      _ = w / 2 ^ 128 * (fee * 2 ^ 128 / L : Nat) + w / 2 ^ 128 := by ring
      _ ≤ w / 2 ^ 128 * (fee * 2 ^ 128 / L : Nat) + 1 := by gcongr

/-- A position that stands by earns its share of the fee, short of it by less than one. -/
theorem Book.due_of_bystander {x : Position} (hw : x.weight ≤ b.pool.liquidity.val)
    (h : b.perform c = .ok (b', r)) (t : Side) :
    x.due b'.pool.feePerLiquidity t ≤
        x.due b.pool.feePerLiquidity t + lpFee c r t * x.weight / b.pool.liquidity.val ∧
      x.due b.pool.feePerLiquidity t + lpFee c r t * x.weight / b.pool.liquidity.val ≤
        x.due b'.pool.feePerLiquidity t + charged c r t := by
  cases hc : c.trade? with
  | none =>
    rw [(untraded_of_perform hc h).frame, lpFee_untraded hc]
    simp
  | some d =>
    obtain ⟨u, rfl, hu⟩ := executed_of_perform hc h
    have hF := (hu.accrues.2 t).1
    obtain ⟨hle, hge⟩ := credit_of_share u.quote.shares.lp.val hw b.pool.liquidity.isLt
    simp only [Position.due, lpFee, charged, hc, hF]
    -- the accrual of the other token stays where it is
    by_cases ht : t = u.feeSide
    · subst ht
      simp only [Side.part_self]
      push_cast at hle hge ⊢
      constructor <;> linarith
    · simp only [Side.part_ne ht]
      simp

theorem Book.credited_of_perform (hc : c.settles = true) (h : b.perform c = .ok (b', r)) :
    b.position.Credited b.pool.feePerLiquidity (claimedFees c r) b'.position := by
  cases c <;> simp only [Call.settles, Bool.false_eq_true] at hc <;>
    simp only [perform, bind_eq_ok, pure_eq_ok, Prod.mk.injEq, Prod.exists] at h
  case addLiquidity =>
    obtain ⟨p, x, m, hm, rfl, rfl⟩ := h
    obtain ⟨q, y, z, hs, hf, -, -, -, hx, -⟩ := addLiquidity_ok hm
    exact hf.credited hs.frame (by rw [hx])
  case removeLiquidity =>
    obtain ⟨p, x, m, hm, rfl, rfl⟩ := h
    obtain ⟨q, y, z, hs, hf, -, -, -, hx, -⟩ := removeLiquidity_ok hm
    exact hf.credited hs.frame (by rw [hx])
  case removeAll =>
    obtain ⟨p, x, m, hm, rfl, rfl⟩ := h
    obtain ⟨q, y, z, hs, hf, -, -, -, hx, -⟩ := removeLiquidity_ok hm
    exact hf.credited hs.frame (by rw [hx])
  case claimFees =>
    obtain ⟨x, paid, hx, rfl, rfl⟩ := h
    obtain ⟨y, hy, rfl, hx'⟩ := claimFees_ok hx
    refine ⟨?_, fun t => ?_⟩
    · rw [hx', hy.checkpoints]
    · rw [hx', ← hy.pending t]
      simp [claimedFees]
  case lock =>
    obtain ⟨l, hl, rfl, rfl⟩ := h
    obtain ⟨y, z, hs, hf, hr⟩ := lock_ok hl
    exact hf.credited hs.frame hr.frame
  case refresh =>
    obtain ⟨p, x, v, L, hx, rfl, rfl⟩ := h
    obtain ⟨y, z, hs, hf, hr⟩ := refresh_ok hx
    exact hf.credited hs.frame hr.frame
  case lockForever =>
    obtain ⟨p, x, hx, rfl, rfl⟩ := h
    obtain ⟨q, y, z, hs, hf, hr, -⟩ := lockForever_ok hx
    exact hf.credited hs.frame hr.frame

theorem Book.stakes_of_perform (hc : c.subject = .position) (hs : c.settles = false)
    (h : b.perform c = .ok (b', r)) :
    b'.position = { b.position with stakes := b'.position.stakes } ∧
      ∀ t, claimedFees c r t = 0 := by
  cases c <;> simp only [Call.subject, Call.settles, reduceCtorEq] at hc hs <;>
    simp only [perform, bind_eq_ok, pure_eq_ok, Prod.mk.injEq, Prod.exists] at h
  case closePosition =>
    obtain ⟨p, -, rfl, rfl⟩ := h
    exact ⟨rfl, fun _ => rfl⟩
  case claimReward =>
    obtain ⟨p, x, reward, hx, rfl, rfl⟩ := h
    obtain ⟨i, y, k, -, hs, -, hx⟩ := claimReward_ok hx
    exact ⟨by rw [hx, hs.frame], fun _ => rfl⟩

theorem Book.due_of_opened (hc : c.subject = .newPosition) (h : b.perform c = .ok (b', r))
    (t : Side) : b'.position.due b'.pool.feePerLiquidity t = 0 := by
  cases c <;> simp only [Call.subject, reduceCtorEq] at hc
  case openPosition =>
    simp only [perform, bind_eq_ok, pure_eq_ok, Prod.mk.injEq, Prod.exists] at h
    obtain ⟨p, x, hx, rfl, rfl⟩ := h
    rw [(openPosition_ok hx).2]
    simp [Position.due, Position.weight]

/-- The position a request is about keeps what it is owed, less what it is paid, and less than one when it is
settled. -/
theorem Book.due_of_subject (hc : c.subject = .position) (hb : Behind b.pool b.position)
    (h : b.perform c = .ok (b', r)) (t : Side) :
    b'.position.due b'.pool.feePerLiquidity t + claimedFees c r t ≤
        b.position.due b.pool.feePerLiquidity t ∧
      b.position.due b.pool.feePerLiquidity t ≤ b'.position.due b'.pool.feePerLiquidity t +
        claimedFees c r t + if c.settles then 1 else 0 := by
  have hF : b'.pool.feePerLiquidity = b.pool.feePerLiquidity := by
    rw [(untraded_of_perform (Call.trade?_of_subject (by simp [hc])) h).frame]
  rw [hF]
  cases hs : c.settles with
  | false =>
    obtain ⟨hx, hpaid⟩ := stakes_of_perform hc hs h
    rw [Position.due_of_stakes hx, hpaid]
    simp
  | true =>
    have hx := credited_of_perform hs h
    have hpending : ((b'.position.pending.get t).val + claimedFees c r t : ℚ) =
        (b.position.pending.get t).val + b.position.unsettled b.pool.feePerLiquidity t := by
      exact_mod_cast hx.pending t
    have hle := Position.settled_le_due hb t
    have hlt := Position.due_lt_settled hb t
    rw [Position.due_eq_pending hx.checkpoints]
    simp only [if_true]
    constructor <;> linarith

end

namespace Ledger

/-- A position by the order of opening; an empty one while it does not exist. -/
def positionAt (l : Ledger) (n : Nat) : Position := (l.holdings[n]?.getD {}).position

def due (l : Ledger) (n : Nat) (t : Side) : ℚ := (l.positionAt n).due l.pool.feePerLiquidity t

theorem positionAt_eq {l : Ledger} {n : Nat} {h : Holding} (hn : l.holdings[n]? = some h) :
    l.positionAt n = h.position := by
  rw [positionAt, hn, Option.getD_some]

theorem positionAt_of_length_le {l : Ledger} {n : Nat} (hn : l.holdings.length ≤ n) :
    l.positionAt n = {} := by
  rw [positionAt, List.getElem?_eq_none hn, Option.getD_none]

theorem sum_positionAt {M : Type} [AddCommMonoid M] (l : Ledger) {X : Position → M} (hX : X {} = 0)
    {N : Nat} (hN : l.holdings.length ≤ N) :
    ∑ n ∈ Finset.range N, X (l.positionAt n) = l.total X := by
  obtain ⟨p, xs⟩ := l
  simp only [positionAt, total] at hN ⊢
  induction xs generalizing N with
  | nil => simp [hX]
  | cons x xs ih =>
    obtain ⟨N, rfl⟩ := Nat.exists_eq_succ_of_ne_zero (Nat.ne_zero_of_lt hN)
    rw [Finset.sum_range_succ', List.map_cons, List.sum_cons, add_comm, ← ih (Nat.le_of_succ_le_succ hN)]
    simp

theorem weight_le (l : Ledger) (n : Nat) : (l.positionAt n).weight ≤ l.total Position.weight := by
  cases hn : l.holdings[n]? with
  | none =>
    rw [positionAt_of_length_le (List.getElem?_eq_none_iff.1 hn)]
    exact Nat.zero_le _
  | some x =>
    rw [positionAt_eq hn]
    exact le_total (List.mem_of_getElem? hn) Position.weight

end Ledger

namespace Event

def share (e : Event) (n : Nat) (t : Side) : ℚ :=
  lpFee e.order.call e.receipt t * (e.before.positionAt n).weight / e.before.pool.liquidity.val

def collected (e : Event) (n : Nat) (t : Side) : Nat :=
  if e.order.holder = n then claimedFees e.order.call e.receipt t else 0

def settled (e : Event) (n : Nat) : Nat :=
  if e.order.holder = n ∧ e.order.call.settles then 1 else 0

def charged (e : Event) (t : Side) : Nat := Market.charged e.order.call e.receipt t

structure Earns (e : Event) (m : Ledger) (n : Nat) (t : Side) : Prop where
  le : m.due n t + e.collected n t ≤ e.before.due n t + e.share n t
  ge : e.before.due n t + e.share n t ≤
    m.due n t + e.collected n t + (e.charged t + e.settled n)

end Event

section
variable {l m : Ledger} {o : Order} {r : Receipt} {n : Nat}

theorem Ledger.earns_bystander {b b' : Book} (hb : b.pool = l.pool)
    (h : b.perform o.call = .ok (b', r)) (hm : m.pool = b'.pool)
    (hx : m.positionAt n = l.positionAt n) (hn : o.call.subject = .position → o.holder ≠ n)
    (hw : (l.positionAt n).weight ≤ l.pool.liquidity.val) (t : Side) :
    Event.Earns ⟨l, o, r⟩ m n t := by
  have hcollected : Event.collected ⟨l, o, r⟩ n t = 0 := by
    simp only [Event.collected, ite_eq_right_iff]
    exact fun ho => claimedFees_of_subject fun hs => hn hs ho
  obtain ⟨hle, hge⟩ := Book.due_of_bystander (b := b) (x := l.positionAt n) (hb ▸ hw) h t
  rw [hb] at hle hge
  have hsettled : (0 : ℚ) ≤ Event.settled ⟨l, o, r⟩ n := Nat.cast_nonneg _
  constructor
  · rw [hcollected, Ledger.due, Ledger.due, hm, hx, Nat.cast_zero, add_zero]
    exact hle
  · rw [hcollected, Ledger.due, Ledger.due, hm, hx, Nat.cast_zero, add_zero]
    exact hge.trans (by rw [Event.charged]; linarith)

theorem Ledger.earns_subject {x : Holding} {v : Vesting} {b' : Book}
    (hc : o.call.subject = .position) (hx : l.holdings[o.holder]? = some x)
    (hb : Behind l.pool x.position) (h : Book.perform ⟨l.pool, x.position, v⟩ o.call = .ok (b', r))
    (hm : m.pool = b'.pool) (hy : m.positionAt o.holder = b'.position) (t : Side) :
    Event.Earns ⟨l, o, r⟩ m o.holder t := by
  have hcall : o.call.trade? = none := Call.trade?_of_subject (by simp [hc])
  have hshare : Event.share ⟨l, o, r⟩ o.holder t = 0 := by
    simp [Event.share, lpFee_untraded hcall]
  obtain ⟨hle, hge⟩ := Book.due_of_subject hc hb h t
  have hcharged : (0 : ℚ) ≤ Event.charged ⟨l, o, r⟩ t := Nat.cast_nonneg _
  constructor
  · rw [hshare, Ledger.due, Ledger.due, hm, hy, positionAt_eq hx, add_zero]
    simpa [Event.collected] using hle
  · rw [hshare, Ledger.due, Ledger.due, hm, hy, positionAt_eq hx, add_zero]
    refine hge.trans ?_
    simp only [Event.collected, Event.settled, true_and, if_true]
    push_cast
    linarith

theorem Ledger.earns_newcomer {b' : Book} (hc : o.call.subject = .newPosition)
    (h : Book.perform { pool := l.pool } o.call = .ok (b', r)) (hm : m.pool = b'.pool)
    (hx : l.positionAt n = {}) (hy : m.positionAt n = b'.position) (t : Side) :
    Event.Earns ⟨l, o, r⟩ m n t := by
  have hbefore : l.due n t = 0 := by
    rw [Ledger.due, hx]
    simp [Position.due, Position.weight]
  have hafter : m.due n t = 0 := by
    rw [Ledger.due, hm, hy]
    exact Book.due_of_opened hc h t
  have hcollected : Event.collected ⟨l, o, r⟩ n t = 0 := by
    simp [Event.collected, claimedFees_of_subject (c := o.call), hc]
  have hshare : Event.share ⟨l, o, r⟩ n t = 0 := by
    simp [Event.share, hx, Position.weight]
  constructor
  · rw [hbefore, hafter, hcollected, hshare, Nat.cast_zero]
  · rw [hbefore, hafter, hcollected, hshare, Nat.cast_zero, add_zero, zero_add]
    exact add_nonneg (Nat.cast_nonneg _) (Nat.cast_nonneg _)

theorem Ledger.Step.earns (hl : l.Obeys (fun _ => True) Behind)
    (hw : (l.positionAt n).weight ≤ l.pool.liquidity.val) (h : l.Step o r m) (t : Side) :
    Event.Earns ⟨l, o, r⟩ m n t := by
  -- a position stands by, or it is the new one, or the one that the request is about
  cases h with
  | @pool b hc hb =>
    refine earns_bystander rfl hb rfl ?_ (by simp [hc]) hw t
    rfl
  | @opening b hc hb =>
    rcases lt_trichotomy n l.holdings.length with hn | rfl | hn
    · refine earns_bystander rfl hb rfl ?_ (by simp [hc]) hw t
      rw [positionAt, positionAt, List.getElem?_append_left hn]
    · refine earns_newcomer hc hb rfl (positionAt_of_length_le (Nat.le_refl _)) ?_ t
      rw [positionAt, List.getElem?_concat_length, Option.getD_some]
    · refine earns_bystander rfl hb rfl ?_ (by simp [hc]) hw t
      rw [positionAt_of_length_le hn.le, positionAt_of_length_le (by rw [List.length_append]; exact hn)]
  | @position x v b hc hx hv hb =>
    by_cases hn : o.holder = n
    · subst hn
      refine earns_subject hc hx (hl.holdings x (List.mem_of_getElem? hx)) hb rfl ?_ t
      rw [positionAt, List.getElem?_set_self (List.getElem?_eq_some_iff.1 hx).1]
      rfl
    · refine earns_bystander rfl hb rfl ?_ (fun _ => hn) hw t
      rw [positionAt, positionAt, List.getElem?_set_ne hn]

end

/-- What a position earned in the fees of a token over some events, by its part of the liquidity at each trade. -/
def share (es : List Event) (n : Nat) (t : Side) : ℚ := (es.map fun e => e.share n t).sum

def collected (es : List Event) (n : Nat) (t : Side) : Nat := (es.map fun e => e.collected n t).sum

def charges (es : List Event) (t : Side) : Nat := (es.map fun e => e.charged t).sum

def settlements (es : List Event) (n : Nat) : Nat := (es.map fun e => e.settled n).sum

section
variable {o : Opened} {es : List Event} {l m : Ledger}

theorem Founded.due_opened (h : Founded o) (n : Nat) (t : Side) :
    (Ledger.opened o).due n t = 0 := by
  obtain ⟨k, owner, hx⟩ := h.untouched.position
  have hF := h.untouched.feePerLiquidity
  have hnew : ((Ledger.opened o).positionAt n).checkpoints =
      (Ledger.opened o).pool.feePerLiquidity ∧
      ((Ledger.opened o).positionAt n).pending = .both 0 := by
    cases n with
    | zero => simp [Ledger.positionAt, Ledger.opened, hx, hF]
    | succ n => simp [Ledger.positionAt, Ledger.opened, hF]
  rw [Ledger.due, Position.due_eq_pending hnew.1, hnew.2, Pair.get_both]
  exact Nat.cast_zero

theorem Founded.weight_le (h : Founded o) (hr : Run (Ledger.opened o) es m) (n : Nat) :
    (m.positionAt n).weight ≤ m.pool.liquidity.val := by
  rw [h.liquidity_eq hr]
  exact m.weight_le n

/-- What a position was paid and is still owed is its share, but for what a charge and a settlement may cost it. -/
theorem Founded.earned (h : Founded o) (hr : Run (Ledger.opened o) es m) (n : Nat) (t : Side) :
    collected es n t + m.due n t ≤ share es n t ∧
      share es n t ≤ collected es n t + m.due n t + (charges es t + settlements es n) := by
  induction hr with
  | nil =>
    simp [collected, share, charges, settlements, h.due_opened]
  | @snoc es m m' c r hr hp ih =>
    obtain ⟨hle, hge⟩ := ih
    have he := (Ledger.step_of_perform hp).earns (h.behind hr) (h.weight_le hr n) t
    have hle' := he.le
    have hge' := he.ge
    simp only [collected, share, charges, settlements, List.map_append, List.map_cons, List.map_nil,
      List.sum_append, List.sum_singleton] at hle hge ⊢
    push_cast at hle hge ⊢
    constructor <;> linarith

theorem Ledger.Step.length_le {c : Order} {r : Receipt} (h : l.Step c r m) :
    l.holdings.length ≤ m.holdings.length := by
  cases h with
  | pool _ _ => exact Nat.le_refl _
  | opening _ _ => simp
  | position _ _ _ _ => simp

theorem Ledger.Step.lpFees {c : Order} {r : Receipt} (h : l.Step c r m) (t : Side) :
    (m.pool.metrics.lp.get t).val = (l.pool.metrics.lp.get t).val + lpFee c.call r t ∧
      (l.pool.liquidity.val = 0 → lpFee c.call r t = 0) := by
  cases h with
  | pool _ hb => exact Book.lpFees_of_perform hb t
  | opening _ hb => exact Book.lpFees_of_perform hb t
  | position _ _ _ hb => exact Book.lpFees_of_perform hb t

theorem Event.sum_share {e : Event} {t : Side} {N : Nat}
    (hL : e.before.pool.liquidity.val = e.before.total Position.weight)
    (hzero : e.before.pool.liquidity.val = 0 → lpFee e.order.call e.receipt t = 0)
    (hN : e.before.holdings.length ≤ N) :
    ∑ n ∈ Finset.range N, e.share n t = lpFee e.order.call e.receipt t := by
  have hweights : ∑ n ∈ Finset.range N, ((e.before.positionAt n).weight : ℚ) =
      e.before.pool.liquidity.val := by
    rw [hL, ← e.before.sum_positionAt rfl hN, Nat.cast_sum]
  simp only [share]
  rw [← Finset.sum_div, ← Finset.mul_sum, hweights]
  by_cases h0 : e.before.pool.liquidity.val = 0
  · rw [hzero h0, Nat.cast_zero, zero_mul, zero_div]
  · exact mul_div_cancel_right₀ _ (Nat.cast_ne_zero.2 h0)

/-- The shares of all positions add up to all that was ever charged for liquidity. -/
theorem Founded.sum_share (h : Founded o) (hr : Run (Ledger.opened o) es m) (t : Side) {N : Nat}
    (hN : m.holdings.length ≤ N) :
    ∑ n ∈ Finset.range N, share es n t = (m.pool.metrics.lp.get t).val := by
  induction hr with
  | nil => simp [share, Ledger.opened, h.untouched.lpFees]
  | @snoc es m m' c r hr hp ih =>
    have hs := Ledger.step_of_perform hp
    have hN' := hs.length_le.trans hN
    obtain ⟨hlp, hzero⟩ := hs.lpFees t
    have hevent := Event.sum_share (e := ⟨m, c, r⟩) (h.liquidity_eq hr) hzero hN'
    have hrun := ih hN'
    simp only [share, List.map_append, List.map_cons, List.map_nil, List.sum_append,
      List.sum_singleton, Finset.sum_add_distrib] at hrun ⊢
    rw [hrun, hevent, hlp, Nat.cast_add]

/-- Over every run each position is paid its share of the fees for liquidity, and paid once: what was claimed and
what is pending when it is brought to date are never more than the share, and fall short of it by less than one for
each trade that was charged and each time it was settled. All positions together never come to more than was
charged. -/
theorem fees_are_shared (h : Founded o) (hr : Run (Ledger.opened o) es m) (t : Side) :
    (∀ n x y, m.holdings[n]? = some x → x.position.settleFees m.pool.feePerLiquidity = .ok y →
      (collected es n t + (y.pending.get t).val : ℚ) ≤ share es n t ∧
        share es n t - (charges es t + (settlements es n + 1)) <
          (collected es n t + (y.pending.get t).val : ℚ)) ∧
    ∑ n ∈ Finset.range m.holdings.length, (collected es n t + ((m.positionAt n).pending.get t).val +
      (m.positionAt n).unsettled m.pool.feePerLiquidity t) ≤ (m.pool.metrics.lp.get t).val := by
  have hm := h.behind hr
  constructor
  · intro n x y hn hy
    obtain ⟨hle, hge⟩ := h.earned hr n t
    have hbehind : Behind m.pool x.position := hm.holdings x (List.mem_of_getElem? hn)
    have hdown := Position.settled_le_due hbehind t
    have hup := Position.due_lt_settled hbehind t
    have hpending : ((y.pending.get t).val : ℚ) = (x.position.pending.get t).val +
        x.position.unsettled m.pool.feePerLiquidity t := by
      exact_mod_cast (Position.settleFees_ok hy).pending t
    rw [Ledger.due, Ledger.positionAt_eq hn] at hle hge
    rw [hpending]
    constructor <;> linarith
  · have hshares := h.sum_share hr t (Nat.le_refl m.holdings.length)
    have hpaid : ∀ n ∈ Finset.range m.holdings.length,
        ((collected es n t + ((m.positionAt n).pending.get t).val +
          (m.positionAt n).unsettled m.pool.feePerLiquidity t : Nat) : ℚ) ≤ share es n t := by
      intro n hn
      have hbehind : Behind m.pool (m.positionAt n) := by
        rw [Ledger.positionAt_eq (List.getElem?_eq_getElem (Finset.mem_range.1 hn))]
        exact hm.holdings _ (List.getElem_mem _)
      have hdown := Position.settled_le_due hbehind t
      have hle := (h.earned hr n t).1
      rw [Ledger.due] at hle
      push_cast
      linarith
    have hsum := Finset.sum_le_sum hpaid
    rw [hshares] at hsum
    exact_mod_cast hsum

/-- Two positions, and fees in both tokens. The second position comes after the first trade, takes its fees after
the second and leaves after the third. -/
def earningsTour : List Order := [
  { call := .swap .aToB (.lit 64 700000) 0 .none false {} (.both none) },
  { call := .openPosition .none .none {} },
  { call := .addLiquidity sampleTerms.liquidity (.both .top) {} (.both none), holder := 1 },
  { call := .swap .bToA (.lit 64 900000) 0 .none true {} (.both none) },
  { call := .claimFees, holder := 1 },
  { call := .swapExactOut .bToA (.lit 64 75000) .top .none false {} (.both none) },
  { call := .removeAll (.both 0) {} (.both none), holder := 1 }]

theorem fees_are_shared_earningsTour : ∃ o es m x y, Founded o ∧ Run (Ledger.opened o) es m ∧
    es.map Event.order = earningsTour ∧ m.holdings[1]? = some x ∧
    x.position.settleFees m.pool.feePerLiquidity = .ok y ∧
    collected es 1 .a = 1473 ∧ (y.pending.get .a).val = 75 ∧
    (collected es 1 .a + (y.pending.get .a).val : ℚ) ≤ share es 1 .a ∧
    share es 1 .a - (charges es .a + (settlements es 1 + 1)) <
      (collected es 1 .a + (y.pending.get .a).val : ℚ) ∧
    ∑ n ∈ Finset.range m.holdings.length, (collected es n .a +
      ((m.positionAt n).pending.get .a).val +
      (m.positionAt n).unsettled m.pool.feePerLiquidity .a) ≤ (m.pool.metrics.lp.get .a).val := by
  have h : ((sampleSession earningsTour).bind fun s => (s.2.2.holdings[1]?).bind fun x =>
      (x.position.settleFees s.2.2.pool.feePerLiquidity).toOption.map fun y =>
        (s.2.1.map Event.order, collected s.2.1 1 .a, (y.pending.get .a).val)) =
      some (earningsTour, 1473, 75) := by decide +kernel
  obtain ⟨⟨o, es, m⟩, hs, h⟩ := Option.bind_eq_some_iff.1 h
  obtain ⟨x, hx, h⟩ := Option.bind_eq_some_iff.1 h
  obtain ⟨y, hy, h⟩ := Option.map_eq_some_iff.1 h
  rw [toOption_eq_some] at hy
  simp only [Prod.mk.injEq] at h
  obtain ⟨hes, hcollected, hpending⟩ := h
  obtain ⟨ho, hr⟩ := sampleSession_eq_some hs
  obtain ⟨hall, hsum⟩ := fees_are_shared ho.founded hr .a
  obtain ⟨hle, hlt⟩ := hall 1 x y hx hy
  exact ⟨o, es, m, x, y, ho.founded, hr, hes, hx, hy, hcollected, hpending, hle, hlt, hsum⟩

end

end Market

end RangePool
