import RangePool.Proofs.Market.Parts
/-!
What a schedule releases over a run. However often it is refreshed, what it has released is what it allowed at its
last refresh; the position always has that much vested, and a refresh brings the two to date.
-/
set_option autoImplicit false

namespace RangePool.Market

def Ledger.schedulesAt (l : Ledger) (n : Nat) : List Vesting := (l.holdings[n]?.getD {}).schedules

/-- When a schedule is made or refreshed, by the number of its position and its own number there. -/
def Event.touch? (e : Event) (n k : Nat) : Option Clock :=
  if e.order.holder = n then
    match e.order.call, e.order.schedule with
    | .lock _ _ clock, _ => if k = (e.before.schedulesAt n).length then some clock else none
    | .refresh clock, .own j => if k = j then some clock else none
    | _, _ => none
  else none

def touches (es : List Event) (n k : Nat) : List Clock := es.filterMap fun e => e.touch? n k

theorem touches_snoc (es : List Event) (e : Event) (n k : Nat) :
    touches (es ++ [e]) n k = touches es n k ++ (e.touch? n k).toList := by
  cases h : e.touch? n k <;> simp [touches, List.filterMap_append, h]

inductive Rescheduled (u : TimeUnit) (vs ws : List Vesting) (touch : Nat → Option Clock) : Prop
  | kept : ws = vs → (∀ k, touch k = none) → Rescheduled u vs ws touch
  | added {key : Key} {t : LockTerms} {clock : Clock} {w : Vesting} :
      t.validate (u.now clock) u.maxVesting = .ok () →
      (t.start key (u.now clock)).SameSchedule w → w.released.val = w.allowed (u.now clock) →
      ws = vs ++ [w] → (∀ k, touch k = if k = vs.length then some clock else none) →
      Rescheduled u vs ws touch
  | refreshed {j : Nat} {clock : Clock} {v w : Vesting} : vs[j]? = some v → v.SameSchedule w →
      w.released.val = w.allowed (u.now clock) → v.released.val ≤ w.released.val →
      ws = vs.set j w → (∀ k, touch k = if k = j then some clock else none) →
      Rescheduled u vs ws touch

theorem Released.released_eq {x y : Position} {v w : Vesting} {now : Point} {L : Liquidity}
    (h : Released x v now y w L) : w.released.val = w.allowed now := by
  rw [h.schedule.allowed, h.allowed, h.released]

section
variable {l m : Ledger} {o : Order} {r : Receipt} {u : TimeUnit} {n : Nat}

end

/-- What a schedule has released is what it allowed when it was last brought to date, and never less than it allowed
when it was brought to date before. -/
structure Follows (u : TimeUnit) (cs : List Clock) (v : Vesting) : Prop where
  complete : v.frequency.val = 0 → v.periods.val = 0
  reached : ∃ c ∈ cs, v.released.val = v.allowed (u.now c)
  bound : ∀ c ∈ cs, v.allowed (u.now c) ≤ v.released.val

section
variable {u : TimeUnit} {cs : List Clock} {v w : Vesting} {clock : Clock}

theorem Follows.started {key : Key} {t : LockTerms}
    (hvalid : t.validate (u.now clock) u.maxVesting = .ok ())
    (hs : (t.start key (u.now clock)).SameSchedule w)
    (hr : w.released.val = w.allowed (u.now clock)) : Follows u [clock] w := by
  refine ⟨?_, ⟨clock, List.mem_singleton_self _, hr⟩, ?_⟩
  · rw [hs.frame]
    exact (LockTerms.validate_ok hvalid).1
  · rw [List.forall_mem_singleton, hr]

theorem Follows.refreshed (h : Follows u cs v) (hs : v.SameSchedule w)
    (hr : w.released.val = w.allowed (u.now clock)) (hle : v.released.val ≤ w.released.val) :
    Follows u (cs ++ [clock]) w := by
  refine ⟨?_, ⟨clock, by simp, hr⟩, ?_⟩
  · rw [hs.frame]
    exact h.complete
  · rw [List.forall_mem_append, List.forall_mem_singleton]
    refine ⟨fun c hc => ?_, Nat.le_of_eq hr.symm⟩
    rw [hs.allowed]
    exact Nat.le_trans (h.bound c hc) hle

end

structure Ledger.Recorded (l : Ledger) (u : TimeUnit) (es : List Event) (n : Nat) : Prop where
  follows : ∀ k v, (l.schedulesAt n)[k]? = some v → Follows u (touches es n k) v
  none : ∀ k, (l.schedulesAt n).length ≤ k → touches es n k = []

section
variable {l m : Ledger} {o : Order} {r : Receipt} {u : TimeUnit} {es : List Event} {n : Nat}

theorem Ledger.Recorded.step (h : l.Recorded u es n)
    (hs : Rescheduled u (l.schedulesAt n) (m.schedulesAt n) (Event.touch? ⟨l, o, r⟩ n)) :
    m.Recorded u (es ++ [⟨l, o, r⟩]) n := by
  cases hs with
  | kept hl ht =>
    have hsame : ∀ k, touches (es ++ [⟨l, o, r⟩]) n k = touches es n k := by
      intro k
      rw [touches_snoc, ht, Option.toList_none, List.append_nil]
    constructor
    · intro k v hv
      rw [hsame]
      exact h.follows k v (hl ▸ hv)
    · intro k hk
      rw [hsame]
      exact h.none k (hl ▸ hk)
  -- a new schedule is the last one, and nothing was done to it before
  | @added key t clock w hvalid hsame hr hl ht =>
    constructor
    · intro k v hv
      rw [touches_snoc, ht]
      by_cases hk : k = (l.schedulesAt n).length
      · subst hk
        rw [hl, List.getElem?_concat_length, Option.some.injEq] at hv
        subst hv
        rw [if_pos rfl, h.none _ (Nat.le_refl _)]
        exact .started hvalid hsame hr
      · have hlt := (List.getElem?_eq_some_iff.1 hv).1
        rw [hl, List.length_append, List.length_singleton] at hlt
        rw [hl, List.getElem?_append_left (by omega)] at hv
        rw [if_neg hk, Option.toList_none, List.append_nil]
        exact h.follows k v hv
    · intro k hk
      rw [hl, List.length_append, List.length_singleton] at hk
      rw [touches_snoc, ht, if_neg (by omega), h.none k (by omega)]
      rfl
  | @refreshed j clock v w hv hsame hr hle hl ht =>
    have hlength : (m.schedulesAt n).length = (l.schedulesAt n).length := by
      rw [hl, List.length_set]
    constructor
    · intro k v' hv'
      rw [touches_snoc, ht]
      by_cases hk : k = j
      · subst hk
        rw [hl, List.getElem?_set_self (List.getElem?_eq_some_iff.1 hv).1, Option.some.injEq] at hv'
        subst hv'
        rw [if_pos rfl]
        exact (h.follows k v hv).refreshed hsame hr hle
      · rw [hl, List.getElem?_set_ne (Ne.symm hk)] at hv'
        rw [if_neg hk, Option.toList_none, List.append_nil]
        exact h.follows k v' hv'
    · intro k hk
      have hj := (List.getElem?_eq_some_iff.1 hv).1
      rw [touches_snoc, ht, if_neg (by omega), h.none k (by omega)]
      rfl

variable {d : Opened}

theorem Run.timeUnit (hr : Run l es m) : m.pool.timeUnit = l.pool.timeUnit := by
  rw [hr.sameTerms.frame]

theorem Holding.Scheduled.outstanding_le {x : Holding} (h : x.Scheduled) {v : Vesting}
    (hv : v ∈ x.schedules) : v.outstanding ≤ x.position.vested.val := by
  rw [h.vested]
  exact List.le_sum_of_mem (List.mem_map_of_mem hv)

theorem Released.again {x y : Position} {v w : Vesting} {now : Point} {L : Liquidity}
    (h : Released x v now y w L) : Released y w now y w 0 :=
  ⟨h.released_eq.symm, rfl, rfl, rfl, ⟨rfl⟩, rfl⟩

/-- What a schedule is due, when time has not gone back: it has released no more than it allows, and what it has still
to release is vested. -/
theorem Founded.exists_due (h : Founded d) (hr : Run (Ledger.opened d) es m)
    (hown : ∀ e ∈ es, e.order.refreshesOwn = true) {x : Holding} (hx : x ∈ m.holdings)
    {v : Vesting} (hv : v ∈ x.schedules) {now : Point} (hle : v.released.val ≤ v.allowed now) :
    ∃ U T L : Liquidity, v.allowed now = U.val ∧ v.whole = T.val ∧
      U.val = v.released.val + L.val ∧ L.val ≤ x.position.vested.val := by
  have hs := h.scheduled hr hown x hx
  have hwhole : v.allowed now ≤ v.whole := Vesting.allowed_le_whole
  have hfits := hs.whole_lt v hv
  have hout := hs.outstanding_le hv
  rw [Vesting.outstanding] at hout
  refine ⟨⟨v.allowed now, by omega⟩, ⟨v.whole, hfits⟩, ⟨v.allowed now - v.released.val, by omega⟩,
    rfl, rfl, ?_, ?_⟩
  · show v.allowed now = v.released.val + (v.allowed now - v.released.val)
    omega
  · show v.allowed now - v.released.val ≤ _
    omega

end

end RangePool.Market
