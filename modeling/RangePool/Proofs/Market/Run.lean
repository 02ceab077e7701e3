import Mathlib.Algebra.BigOperators.Group.List.Basic
import Mathlib.Algebra.BigOperators.Ring.Finset
import Mathlib.Algebra.Order.BigOperators.Group.List
import Mathlib.Algebra.Order.Group.Basic
import Mathlib.Algebra.Order.Group.Nat
import Mathlib.Tactic.Abel
import Mathlib.Tactic.GCongr
import RangePool.Market.Call
/-!
Runs. A ledger is a pool with every position that was ever opened in it; a run is a list of orders that all
succeed. What single requests keep, and what they add to a sum over the positions, is carried from requests to
runs here once for all.
-/
set_option autoImplicit false

namespace RangePool.Market

/-- A position with its schedules. A closed one stays on record; nothing in the requests keeps its owner from
using it again. -/
structure Holding where
  position : Position := {}
  schedules : List Vesting := []
  deriving DecidableEq

structure Ledger where
  pool : Pool
  holdings : List Holding
  deriving DecidableEq

inductive Subject
  | pool
  | newPosition
  | position
  deriving DecidableEq

def Call.subject : Call → Subject
  | .openPosition .. => .newPosition
  | .closePosition | .addLiquidity .. | .removeLiquidity .. | .removeAll .. | .claimFees
  | .lock .. | .refresh .. | .lockForever .. | .claimReward .. => .position
  | _ => .pool

def Call.clock? : Call → Option Clock
  | .openPosition _ _ clock | .addLiquidity _ _ clock _ | .removeLiquidity _ _ clock _
  | .removeAll _ clock _ | .swap _ _ _ _ _ clock _ | .swapExactOut _ _ _ _ _ clock _
  | .lock _ _ clock | .refresh clock | .lockForever _ clock | .fundReward _ _ _ _ _ clock _
  | .claimReward _ clock | .withdrawIdleReward _ _ _ clock | .changeRewardDuration _ _ _ _ clock
  | .changeRewardFunder _ _ _ _ clock => some clock
  | .closePosition | .claimFees | .openReward .. | .claimProtocolFees .. | .claimPartnerFees ..
  | .changeStatus .. => none

inductive Schedule
  | own (n : Nat)
  | given (v : Vesting)
  deriving DecidableEq

structure Order where
  call : Call
  /-- The position, by the order of opening. -/
  holder : Nat := 0
  schedule : Schedule := .given {}
  deriving DecidableEq

def InOrder (os : List Order) : Prop :=
  (os.filterMap fun o => o.call.clock?).Pairwise fun c d => c.slot ≤ d.slot ∧ c.time ≤ d.time

instance (os : List Order) : Decidable (InOrder os) := inferInstanceAs (Decidable (List.Pairwise _ _))

namespace Holding

def schedule? (h : Holding) : Schedule → Option Vesting
  | .own n => h.schedules[n]?
  | .given v => some v

def after (h : Holding) (o : Order) (b : Book) : Holding where
  position := b.position
  schedules := match o.call, o.schedule with
    | .lock .., _ => h.schedules ++ [b.vesting]
    | .refresh _, .own n => h.schedules.set n b.vesting
    | _, _ => h.schedules

end Holding

namespace Ledger

def opened (o : Opened) : Ledger := ⟨o.pool, [{ position := o.position }]⟩

/-- Carries out an order; nothing if it fails, or if there is no such position. -/
def perform (l : Ledger) (o : Order) : Option (Ledger × Receipt) :=
  match o.call.subject with
  | .pool => do
    let (b, r) ← (Book.perform { pool := l.pool } o.call).toOption
    return ({ l with pool := b.pool }, r)
  | .newPosition => do
    let (b, r) ← (Book.perform { pool := l.pool } o.call).toOption
    return (⟨b.pool, l.holdings ++ [{ position := b.position }]⟩, r)
  | .position => do
    let h ← l.holdings[o.holder]?
    let v ← h.schedule? o.schedule
    let (b, r) ← (Book.perform ⟨l.pool, h.position, v⟩ o.call).toOption
    return (⟨b.pool, l.holdings.set o.holder (h.after o b)⟩, r)

end Ledger

structure Event where
  before : Ledger
  order : Order
  receipt : Receipt
  deriving DecidableEq

inductive Run (l : Ledger) : List Event → Ledger → Prop
  | nil : Run l [] l
  | snoc {es : List Event} {m n : Ledger} {o : Order} {r : Receipt} :
      Run l es m → m.perform o = some (n, r) → Run l (es ++ [⟨m, o, r⟩]) n

def Ledger.replay (l : Ledger) : List Order → Option (List Event × Ledger)
  | [] => some ([], l)
  | o :: os => do
    let (m, r) ← l.perform o
    let (es, n) ← m.replay os
    return (⟨l, o, r⟩ :: es, n)

theorem Run.append {l m n : Ledger} {es fs : List Event} (h : Run l es m) (h' : Run m fs n) :
    Run l (es ++ fs) n := by
  induction h' with
  | nil => simpa using h
  | snoc _ hp ih =>
    rw [← List.append_assoc]
    exact .snoc ih hp

theorem Run.of_replay {l m : Ledger} {os : List Order} {es : List Event}
    (h : l.replay os = some (es, m)) : Run l es m := by
  induction os generalizing l es with
  | nil =>
    simp only [Ledger.replay, Option.some.injEq, Prod.mk.injEq] at h
    obtain ⟨rfl, rfl⟩ := h
    exact .nil
  | cons o os ih =>
    simp only [Ledger.replay, Option.pure_def, Option.bind_eq_bind, Option.bind_eq_some_iff,
      Prod.exists, Option.some.injEq, Prod.mk.injEq] at h
    obtain ⟨n, r, hp, fs, k, hk, rfl, rfl⟩ := h
    exact (Run.snoc .nil hp).append (ih hk)

inductive Ledger.Step (l : Ledger) (o : Order) (r : Receipt) : Ledger → Prop
  | pool {b : Book} : o.call.subject = .pool →
      Book.perform { pool := l.pool } o.call = .ok (b, r) → Step l o r { l with pool := b.pool }
  | opening {b : Book} : o.call.subject = .newPosition →
      Book.perform { pool := l.pool } o.call = .ok (b, r) →
      Step l o r ⟨b.pool, l.holdings ++ [{ position := b.position }]⟩
  | position {h : Holding} {v : Vesting} {b : Book} : o.call.subject = .position →
      l.holdings[o.holder]? = some h → h.schedule? o.schedule = some v →
      Book.perform ⟨l.pool, h.position, v⟩ o.call = .ok (b, r) →
      Step l o r ⟨b.pool, l.holdings.set o.holder (h.after o b)⟩

theorem Ledger.step_of_perform {l m : Ledger} {o : Order} {r : Receipt}
    (h : l.perform o = some (m, r)) : l.Step o r m := by
  unfold perform at h
  cases hs : o.call.subject with
  | pool =>
    simp only [hs, Option.pure_def, Option.bind_eq_bind, Option.bind_eq_some_iff,
      toOption_eq_some, Prod.exists, Option.some.injEq, Prod.mk.injEq] at h
    obtain ⟨b, r', hb, rfl, rfl⟩ := h
    exact .pool hs hb
  | newPosition =>
    simp only [hs, Option.pure_def, Option.bind_eq_bind, Option.bind_eq_some_iff,
      toOption_eq_some, Prod.exists, Option.some.injEq, Prod.mk.injEq] at h
    obtain ⟨b, r', hb, rfl, rfl⟩ := h
    exact .opening hs hb
  | position =>
    simp only [hs, Option.pure_def, Option.bind_eq_bind, Option.bind_eq_some_iff,
      toOption_eq_some, Prod.exists, Option.some.injEq, Prod.mk.injEq] at h
    obtain ⟨x, hx, v, hv, b, r', hb, rfl, rfl⟩ := h
    exact .position hs hx hv hb

def Book.Fits (b : Book) (c : Call) : Prop := c.subject = .position ∨ b.position = {}

theorem Book.Fits.blank {b : Book} {c : Call} (h : b.Fits c) (hc : c.subject ≠ .position) :
    b.position = {} :=
  h.resolve_left hc

theorem Ledger.Step.exists_book {l m : Ledger} {o : Order} {r : Receipt} (h : l.Step o r m) :
    ∃ b b' : Book, b.Fits o.call ∧ b.pool = l.pool ∧ b'.pool = m.pool ∧
      b.perform o.call = .ok (b', r) := by
  cases h with
  | pool _ hb => exact ⟨_, _, .inr rfl, rfl, rfl, hb⟩
  | opening _ hb => exact ⟨_, _, .inr rfl, rfl, rfl, hb⟩
  | position hc _ _ hb => exact ⟨_, _, .inl hc, rfl, rfl, hb⟩

/-- What requests keep of a pool and of a position in it. The position a request is about keeps `I`, and
so does every other one while the pool moves on. -/
structure Law (J : Pool → Prop) (I : Pool → Position → Prop) : Prop where
  pool : ∀ {b b' : Book} {c : Call} {r : Receipt}, b.Fits c → J b.pool →
    b.perform c = .ok (b', r) → J b'.pool
  here : ∀ {b b' : Book} {c : Call} {r : Receipt}, b.Fits c → J b.pool → I b.pool b.position →
    b.perform c = .ok (b', r) → I b'.pool b'.position
  others : ∀ {b b' : Book} {c : Call} {r : Receipt} {x : Position}, b.Fits c → J b.pool →
    I b.pool x → b.perform c = .ok (b', r) → I b'.pool x
  blank : ∀ p, J p → I p {}

structure Ledger.Obeys (l : Ledger) (J : Pool → Prop) (I : Pool → Position → Prop) : Prop where
  pool : J l.pool
  holdings : ∀ h ∈ l.holdings, I l.pool h.position

section
variable {J : Pool → Prop} {I : Pool → Position → Prop} {l m : Ledger} {es : List Event}

theorem Law.step (law : Law J I) {o : Order} {r : Receipt} (h : l.Obeys J I)
    (hs : l.Step o r m) : m.Obeys J I := by
  obtain ⟨hJ, hI⟩ := h
  cases hs with
  | pool _ hb =>
    have hf : Book.Fits { pool := l.pool } o.call := .inr rfl
    exact ⟨law.pool hf hJ hb, fun x hx => law.others hf hJ (hI x hx) hb⟩
  | opening _ hb =>
    have hf : Book.Fits { pool := l.pool } o.call := .inr rfl
    refine ⟨law.pool hf hJ hb, ?_⟩
    intro x hx
    rcases List.mem_append.1 hx with hx | hx
    · exact law.others hf hJ (hI x hx) hb
    · rw [List.mem_singleton.1 hx]
      exact law.here hf hJ (law.blank _ hJ) hb
  | position hc hx _ hb =>
    refine ⟨law.pool (.inl hc) hJ hb, ?_⟩
    intro y hy
    rcases List.mem_or_eq_of_mem_set hy with hy | rfl
    · exact law.others (.inl hc) hJ (hI y hy) hb
    · exact law.here (.inl hc) hJ (hI _ (List.mem_of_getElem? hx)) hb

theorem Law.run (law : Law J I) (h : l.Obeys J I) (hr : Run l es m) : m.Obeys J I := by
  induction hr with
  | nil => exact h
  | snoc _ hp ih => exact law.step ih (Ledger.step_of_perform hp)

end

theorem Book.position_of_pool {b b' : Book} {c : Call} {r : Receipt} (hc : c.subject = .pool)
    (h : b.perform c = .ok (b', r)) : b'.position = b.position := by
  cases c <;> simp only [Call.subject, reduceCtorEq] at hc <;>
    simp only [perform, bind_eq_ok, pure_eq_ok, Prod.mk.injEq, Prod.exists] at h <;> grind

theorem sum_map_set {α M : Type} [AddCommMonoid M] (f : α → M) {xs : List α} {n : Nat} {x : α}
    (h : xs[n]? = some x) (y : α) :
    ((xs.set n y).map f).sum + f x = (xs.map f).sum + f y := by
  induction xs generalizing n with
  | nil => simp at h
  | cons z zs ih =>
    cases n with
    | zero =>
      simp only [List.getElem?_cons_zero, Option.some.injEq] at h
      simp only [List.set_cons_zero, List.map_cons, List.sum_cons, h]
      abel
    | succ n =>
      have hz := ih (by simpa using h)
      simp only [List.set_cons_succ, List.map_cons, List.sum_cons, add_assoc, hz]

def Ledger.total {M : Type} [AddCommMonoid M] (l : Ledger) (X : Position → M) : M :=
  (l.holdings.map fun h => X h.position).sum

theorem Ledger.total_neg {M : Type} [AddCommGroup M] (l : Ledger) (X : Position → M) :
    l.total (fun x => -X x) = -l.total X := by
  rw [total, total, List.sum_neg, List.map_map]
  rfl

theorem Ledger.total_add {M : Type} [AddCommMonoid M] (l : Ledger) (X Y : Position → M) :
    l.total (fun x => X x + Y x) = l.total X + l.total Y := by
  simp only [total, List.sum_map_add]

theorem Ledger.total_mul {M : Type} [NonUnitalNonAssocSemiring M] (l : Ledger) (X : Position → M)
    (c : M) : l.total (fun x => X x * c) = l.total X * c := by
  simp only [total, List.sum_map_mul_right]

theorem Ledger.total_le {M : Type} [AddCommMonoid M] [PartialOrder M] [IsOrderedAddMonoid M]
    {l : Ledger} {X Y : Position → M} (h : ∀ x ∈ l.holdings, X x.position ≤ Y x.position) :
    l.total X ≤ l.total Y :=
  List.sum_le_sum h

theorem Ledger.le_total {l : Ledger} {x : Holding} (h : x ∈ l.holdings) (X : Position → Nat) :
    X x.position ≤ l.total X :=
  List.le_sum_of_mem (List.mem_map_of_mem h)

theorem Ledger.total_cast {M : Type} [AddCommMonoidWithOne M] (l : Ledger) (X : Position → Nat) :
    ((l.total X : Nat) : M) = l.total fun x => (X x : M) := by
  rw [total, total, Nat.cast_list_sum, List.map_map]
  rfl

def flow {M : Type} [AddCommMonoid M] (es : List Event) (d : Pool → Call → Receipt → M) : M :=
  (es.map fun e => d e.before.pool e.order.call e.receipt).sum

theorem flow_nil {M : Type} [AddCommMonoid M] (d : Pool → Call → Receipt → M) :
    flow [] d = 0 := rfl

theorem flow_zero {M : Type} [AddCommMonoid M] (es : List Event) :
    flow es (fun _ _ _ => (0 : M)) = 0 := by
  simp [flow]

theorem flow_const {M : Type} [AddCommMonoid M] (es : List Event) (x : M) :
    flow es (fun _ _ _ => x) = es.length • x := by
  simp [flow]

theorem flow_intCast {M : Type} [AddCommGroupWithOne M] (es : List Event)
    (d : Pool → Call → Receipt → Int) :
    ((flow es d : Int) : M) = flow es fun p c r => (d p c r : M) := by
  rw [flow, flow, Int.cast_list_sum, List.map_map]
  rfl

theorem flow_natCast {M : Type} [AddCommMonoidWithOne M] (es : List Event)
    (d : Pool → Call → Receipt → Nat) :
    ((flow es d : Nat) : M) = flow es fun p c r => (d p c r : M) := by
  rw [flow, flow, Nat.cast_list_sum, List.map_map]
  rfl

theorem flow_add {M : Type} [AddCommMonoid M] (es : List Event) (d e : Pool → Call → Receipt → M) :
    flow es (fun p c r => d p c r + e p c r) = flow es d + flow es e := by
  simp only [flow, List.sum_map_add]

theorem flow_sub {M : Type} [AddCommGroup M] (es : List Event) (d e : Pool → Call → Receipt → M) :
    flow es (fun p c r => d p c r - e p c r) = flow es d - flow es e := by
  simp only [flow, sub_eq_add_neg, List.sum_map_add, List.sum_neg, List.map_map]
  rfl

theorem flow_mul {M : Type} [NonUnitalNonAssocSemiring M] (es : List Event)
    (d : Pool → Call → Receipt → M) (x : M) :
    flow es (fun p c r => d p c r * x) = flow es d * x := by
  simp only [flow, List.sum_map_mul_right]

theorem flow_nonpos {M : Type} [AddCommMonoid M] [PartialOrder M] [IsOrderedAddMonoid M]
    {es : List Event} {d : Pool → Call → Receipt → M}
    (h : ∀ e ∈ es, d e.before.pool e.order.call e.receipt ≤ 0) : flow es d ≤ 0 := by
  refine (List.sum_le_sum h).trans_eq ?_
  simp

theorem flow_snoc {M : Type} [AddCommMonoid M] (d : Pool → Call → Receipt → M) (es : List Event)
    (l : Ledger) (o : Order) (r : Receipt) :
    flow (es ++ [⟨l, o, r⟩]) d = flow es d + d l.pool o.call r := by
  simp [flow]

section
variable {J : Pool → Prop} {I : Pool → Position → Prop} {l m : Ledger} {es : List Event}
  {M : Type} [AddCommGroup M] [PartialOrder M] [IsOrderedAddMonoid M]
  {P : Pool → M} {X : Position → M} {d : Pool → Call → Receipt → M}

/-- If a request raises a measure of the pool and its position by at most `d`, an order raises the measure
of the pool and all positions by at most `d`. -/
theorem Law.measure_step (law : Law J I) (hX : X {} = 0)
    (hd : ∀ {b b' : Book} {c : Call} {r : Receipt}, b.Fits c → J b.pool → I b.pool b.position →
      b.perform c = .ok (b', r) → P b'.pool + X b'.position ≤ P b.pool + X b.position + d b.pool c r)
    {o : Order} {r : Receipt} (h : l.Obeys J I) (hs : l.Step o r m) :
    P m.pool + m.total X ≤ P l.pool + l.total X + d l.pool o.call r := by
  obtain ⟨hJ, hI⟩ := h
  -- the pool moves together with at most one position; what the others add is on both sides
  cases hs with
  | @pool b hc hb =>
    have hp : b.position = {} := Book.position_of_pool hc hb
    have := hd (.inr rfl) hJ (law.blank _ hJ) hb
    rw [hp, hX, add_zero, add_zero] at this
    show P b.pool + l.total X ≤ _
    calc P b.pool + l.total X ≤ P l.pool + d l.pool o.call r + l.total X := by gcongr
      _ = _ := by abel
  | @opening b _ hb =>
    have := hd (.inr rfl) hJ (law.blank _ hJ) hb
    rw [hX, add_zero] at this
    have ht : Ledger.total ⟨b.pool, l.holdings ++ [{ position := b.position }]⟩ X =
        X b.position + l.total X := by
      simp [Ledger.total, add_comm]
    rw [ht]
    calc P b.pool + (X b.position + l.total X) = P b.pool + X b.position + l.total X := by abel
      _ ≤ P l.pool + d l.pool o.call r + l.total X := by gcongr
      _ = _ := by abel
  | @position x v b hc hx _ hb =>
    have := hd (.inl hc) hJ (hI _ (List.mem_of_getElem? hx)) hb
    have ht := sum_map_set (fun h : Holding => X h.position) hx (x.after o b)
    have ht : Ledger.total ⟨b.pool, l.holdings.set o.holder (x.after o b)⟩ X =
        l.total X + X b.position - X x.position := by
      rw [eq_sub_iff_add_eq]
      exact ht
    rw [ht]
    calc P b.pool + (l.total X + X b.position - X x.position)
        = P b.pool + X b.position + (l.total X - X x.position) := by abel
      _ ≤ P l.pool + X x.position + d l.pool o.call r + (l.total X - X x.position) := by gcongr
      _ = _ := by abel

theorem Law.measure_run (law : Law J I) (hX : X {} = 0)
    (hd : ∀ {b b' : Book} {c : Call} {r : Receipt}, b.Fits c → J b.pool → I b.pool b.position →
      b.perform c = .ok (b', r) → P b'.pool + X b'.position ≤ P b.pool + X b.position + d b.pool c r)
    (h : l.Obeys J I) (hr : Run l es m) :
    P m.pool + m.total X ≤ P l.pool + l.total X + flow es d := by
  induction hr with
  | nil => simp [flow_nil]
  | @snoc es m n o r hr hp ih =>
    have hs := law.measure_step hX hd (law.run h hr) (Ledger.step_of_perform hp)
    rw [flow_snoc]
    calc P n.pool + n.total X ≤ P m.pool + m.total X + d m.pool o.call r := hs
      _ ≤ P l.pool + l.total X + flow es d + d m.pool o.call r := by gcongr
      _ = _ := by abel

theorem Law.measure_const (law : Law J I) (hX : X {} = 0)
    (hd : ∀ {b b' : Book} {c : Call} {r : Receipt}, b.Fits c → J b.pool → I b.pool b.position →
      b.perform c = .ok (b', r) → P b'.pool + X b'.position = P b.pool + X b.position)
    (h : l.Obeys J I) (hr : Run l es m) : P m.pool + m.total X = P l.pool + l.total X := by
  have hle := law.measure_run (d := fun _ _ _ => 0) hX
    (fun hf hJ hI hp => by rw [hd hf hJ hI hp, add_zero]) h hr
  have hge := law.measure_run (P := fun p => -P p) (X := fun x => -X x) (d := fun _ _ _ => 0)
    (by rw [hX, neg_zero])
    (fun hf hJ hI hp => by rw [add_zero, ← neg_add, ← neg_add, hd hf hJ hI hp]) h hr
  rw [flow_zero, add_zero] at hle hge
  simp only [Ledger.total_neg, ← neg_add] at hge
  exact le_antisymm hle (neg_le_neg_iff.1 hge)

end

end RangePool.Market
