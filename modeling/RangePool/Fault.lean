/-!
Why a request is refused. A `Fault` names the cause, `Fault.kind` is the class that callers branch on,
and `Fault.message` is the whole text.
-/
set_option autoImplicit false

namespace RangePool

inductive Kind
  | mathOverflow
  | typeCastFailed
  | priceRangeViolation
  | invalidCollectFeeMode
  | invalidRewardIndex
  | invalidRewardDuration
  | rewardUninitialized
  | rewardInitialized
  | exceededSlippage
  | amountIsZero
  | poolDisabled
  | invalidFee
  | invalidParameters
  | invalidPriceRange
  | invalidActivationType
  | invalidActivationPoint
  | insufficientLiquidity
  | invalidVestingInfo
  | invalidFunder
  | rewardCampaignInProgress
  | rewardNotEnded
  | identicalFunder
  | identicalRewardDuration
  | invalidAdmin
  | invalidPartner
  | positionNotEmpty
  deriving DecidableEq, Repr

def Kind.name : Kind → String
  | .mathOverflow => "MathOverflow"
  | .typeCastFailed => "TypeCastFailed"
  | .priceRangeViolation => "PriceRangeViolation"
  | .invalidCollectFeeMode => "InvalidCollectFeeMode"
  | .invalidRewardIndex => "InvalidRewardIndex"
  | .invalidRewardDuration => "InvalidRewardDuration"
  | .rewardUninitialized => "RewardUninitialized"
  | .rewardInitialized => "RewardInitialized"
  | .exceededSlippage => "ExceededSlippage"
  | .amountIsZero => "AmountIsZero"
  | .poolDisabled => "PoolDisabled"
  | .invalidFee => "InvalidFee"
  | .invalidParameters => "InvalidParameters"
  | .invalidPriceRange => "InvalidPriceRange"
  | .invalidActivationType => "InvalidActivationType"
  | .invalidActivationPoint => "InvalidActivationPoint"
  | .insufficientLiquidity => "InsufficientLiquidity"
  | .invalidVestingInfo => "InvalidVestingInfo"
  | .invalidFunder => "InvalidFunder"
  | .rewardCampaignInProgress => "RewardCampaignInProgress"
  | .rewardNotEnded => "RewardNotEnded"
  | .identicalFunder => "IdenticalFunder"
  | .identicalRewardDuration => "IdenticalRewardDuration"
  | .invalidAdmin => "InvalidAdmin"
  | .invalidPartner => "InvalidPartner"
  | .positionNotEmpty => "PositionNotEmpty"

def Kind.all : List Kind :=
  [.mathOverflow, .typeCastFailed, .priceRangeViolation, .invalidCollectFeeMode, .invalidRewardIndex,
    .invalidRewardDuration, .rewardUninitialized, .rewardInitialized, .exceededSlippage, .amountIsZero,
    .poolDisabled, .invalidFee, .invalidParameters, .invalidPriceRange, .invalidActivationType,
    .invalidActivationPoint, .insufficientLiquidity, .invalidVestingInfo, .invalidFunder,
    .rewardCampaignInProgress, .rewardNotEnded, .identicalFunder, .identicalRewardDuration,
    .invalidAdmin, .invalidPartner, .positionNotEmpty]

theorem Kind.mem_all (k : Kind) : k ∈ Kind.all := by
  cases k <;> decide

def Kind.nameOfNumber (n : Nat) : String :=
  (Kind.all[n]?.map Kind.name).getD "Unknown"

inductive Step
  | add
  | sub
  | mul
  | div
  | shl
  | shr
  | mulDiv
  | mulShr
  | shlDiv
  | wideShlDiv
  | wideMulShr
  | amount
  | priceProduct
  | priceFromA
  | transferFee
  | powerBase
  deriving DecidableEq, Repr

def Step.text : Step → String
  | .add => "add"
  | .sub => "sub"
  | .mul => "mul"
  | .div => "div by zero"
  | .shl => "shl"
  | .shr => "shr"
  | .mulDiv => "mul_div"
  | .mulShr => "mul_shr"
  | .shlDiv => "shl_div"
  | .wideShlDiv => "shl_div_256"
  | .wideMulShr => "mul_shr_256"
  | .amount => "amount above u64"
  | .priceProduct => "zero sqrt price"
  | .priceFromA => "next sqrt price from amount a"
  | .transferFee => "transfer fee"
  | .powerBase => "pow_q64 base above one"

inductive Enumeration
  | decay
  | collection
  | status
  | origin
  | timeUnit
  deriving DecidableEq, Repr

inductive Requirement
  | fullRange
  | globalRange
  | orderedRange
  | priceInRange
  | creatorNamed
  | noPartnerShare
  | someLiquidity
  | binStep
  | wideBinStep
  | filterBelowDecay
  | trackerReduction
  | activationWindow
  | completeSchedule
  | linearReduction
  | exponentialReduction
  | highestFee
  | lowestFee
  | protocolPercent
  | partnerPercent
  | referralPercent
  | unlockedForRemoval
  | unlockedForWithdrawal
  | unlockedForVesting
  | unlockedForever
  | rewardSlot
  | cliffAhead
  | completePeriods
  | vestingDuration
  | someLock
  deriving DecidableEq, Repr

def Requirement.kind : Requirement → Kind
  | .fullRange | .globalRange | .orderedRange | .priceInRange => .invalidPriceRange
  | .creatorNamed | .noPartnerShare => .invalidPartner
  | .someLiquidity | .binStep | .wideBinStep | .filterBelowDecay | .trackerReduction =>
    .invalidParameters
  | .activationWindow => .invalidActivationPoint
  | .completeSchedule | .linearReduction | .exponentialReduction | .highestFee | .lowestFee
  | .protocolPercent | .partnerPercent | .referralPercent => .invalidFee
  | .unlockedForRemoval | .unlockedForWithdrawal | .unlockedForVesting | .unlockedForever =>
    .insufficientLiquidity
  | .rewardSlot => .invalidRewardIndex
  | .cliffAhead | .completePeriods | .vestingDuration | .someLock => .invalidVestingInfo

def Requirement.text : Requirement → String
  | .fullRange => "sqrt_min_price == MIN_SQRT_PRICE && sqrt_max_price == MAX_SQRT_PRICE"
  | .globalRange => "sqrt_min_price >= MIN_SQRT_PRICE && sqrt_max_price <= MAX_SQRT_PRICE"
  | .orderedRange => "sqrt_min_price < sqrt_max_price"
  | .priceInRange => "sqrt_price >= sqrt_min_price && sqrt_price <= sqrt_max_price"
  | .creatorNamed => "!pool_creator_authority.is_default()"
  | .noPartnerShare => "pool_fees.partner_fee_percent == 0"
  | .someLiquidity => "liquidity > 0"
  | .binStep => "bin_step == BIN_STEP_BPS_DEFAULT"
  | .wideBinStep => "bin_step_u128 == BIN_STEP_BPS_U128_DEFAULT"
  | .filterBelowDecay => "filter_period < decay_period"
  | .trackerReduction => "reduction_factor <= MAX_BASIS_POINT"
  | .activationWindow =>
    "*activation_point >= current_point && *activation_point <= max_activation_point"
  | .completeSchedule => "period_frequency != 0 && number_of_period != 0 && reduction_factor != 0"
  | .linearReduction => "u128(number_of_period) * reduction_factor <= cliff_fee_numerator"
  | .exponentialReduction => "reduction_factor < MAX_BASIS_POINT"
  | .highestFee => "cliff_fee_numerator <= MAX_FEE_NUMERATOR"
  | .lowestFee => "get_min_base_fee_numerator() >= MIN_FEE_NUMERATOR"
  | .protocolPercent => "protocol_fee_percent <= MAX_FEE_PERCENT"
  | .partnerPercent => "partner_fee_percent <= MAX_FEE_PERCENT"
  | .referralPercent => "referral_fee_percent <= MAX_FEE_PERCENT"
  | .unlockedForRemoval => "liquidity_delta <= unlocked_liquidity"
  | .unlockedForWithdrawal => "liquidity_delta <= position.unlocked_liquidity"
  | .unlockedForVesting => "total_lock_liquidity <= unlocked_liquidity"
  | .unlockedForever => "liquidity <= unlocked_liquidity"
  | .rewardSlot => "reward_index < NUM_REWARDS"
  | .cliffAhead => "cliff >= current_point"
  | .completePeriods => "period_frequency > 0 && liquidity_per_period > 0"
  | .vestingDuration => "vesting_duration <= max_vesting_duration"
  | .someLock => "get_total_lock_amount() > 0"

inductive Operation
  | createConfig
  | openPool
  | openPosition
  | closePosition
  | addLiquidity
  | removeLiquidity
  | swap
  | swapExactOut
  | lockForever
  | openReward
  | fundReward
  | claimReward
  | withdrawIdleReward
  | changeRewardDuration
  | changeRewardFunder
  | claimProtocolFee
  | claimPartnerFee
  | changeStatus
  deriving DecidableEq, Repr

def Operation.name : Operation → String
  | .createConfig => "create_config"
  | .openPool => "initialize_pool"
  | .openPosition => "create_position"
  | .closePosition => "close_position"
  | .addLiquidity => "add_liquidity"
  | .removeLiquidity => "remove_liquidity"
  | .swap => "swap"
  | .swapExactOut => "swap_exact_out"
  | .lockForever => "permanent_lock_position"
  | .openReward => "initialize_reward"
  | .fundReward => "fund_reward"
  | .claimReward => "claim_reward"
  | .withdrawIdleReward => "withdraw_ineligible_reward"
  | .changeRewardDuration => "update_reward_duration"
  | .changeRewardFunder => "update_reward_funder"
  | .claimProtocolFee => "claim_protocol_fee"
  | .claimPartnerFee => "claim_partner_fee"
  | .changeStatus => "set_pool_status"

inductive Fault
  /-- An arithmetic step has no exact result in its width. -/
  | arithmetic (step : Step)
  /-- A value does not fit the narrower width it is kept in. -/
  | tooNarrow
  | priceBelowRange
  | priceAboveRange
  | noPrice
  | noLiquidity
  /-- A byte that stands for no member of its enumeration. -/
  | unknownByte (enumeration : Enumeration)
  | recordSize
  | recordVersion
  | unmet (requirement : Requirement)
  | rejected (operation : Operation) (kind : Kind)
  deriving DecidableEq, Repr

namespace Fault

def kind : Fault → Kind
  | arithmetic _ => .mathOverflow
  | tooNarrow => .typeCastFailed
  | priceBelowRange | priceAboveRange => .priceRangeViolation
  | noPrice => .invalidParameters
  | noLiquidity => .insufficientLiquidity
  | unknownByte .decay => .invalidFee
  | unknownByte .collection => .invalidCollectFeeMode
  | unknownByte .status => .invalidParameters
  | unknownByte .origin => .invalidParameters
  | unknownByte .timeUnit => .invalidActivationType
  | recordSize | recordVersion => .invalidParameters
  | unmet r => r.kind
  | rejected _ k => k

/-- What is said beyond the kind; nothing for a value too wide, a collection mode or a time unit. -/
def details? : Fault → Option String
  | arithmetic step => some step.text
  | tooNarrow => none
  | priceBelowRange => some "sqrt price below range"
  | priceAboveRange => some "sqrt price above range"
  | noPrice => some "sqrt price is zero"
  | noLiquidity => some "liquidity is zero"
  | unknownByte .decay => some "bad fee scheduler mode"
  | unknownByte .collection => none
  | unknownByte .status => some "bad pool status"
  | unknownByte .origin => some "bad pool type"
  | unknownByte .timeUnit => none
  | recordSize => some "record size mismatch"
  | recordVersion => some "unsupported layout version"
  | unmet r => some ("requirement failed: " ++ r.text)
  | rejected op _ => some op.name

def message (f : Fault) : String :=
  match f.details? with
  | none => f.kind.name
  | some details => f.kind.name ++ ": " ++ details

end Fault

def require (p : Prop) [Decidable p] (r : Requirement) : Except Fault Unit :=
  if p then .ok () else .error (.unmet r)

def Operation.demand (op : Operation) (p : Prop) [Decidable p] (k : Kind) : Except Fault Unit :=
  if p then .ok () else .error (.rejected op k)

@[simp] theorem bind_eq_ok {ε α β : Type} {x : Except ε α} {f : α → Except ε β} {b : β} :
    (x >>= f) = .ok b ↔ ∃ a, x = .ok a ∧ f a = .ok b := by
  cases x <;> simp [bind, Except.bind]

@[simp] theorem pure_eq_ok {ε α : Type} {a b : α} :
    (pure a : Except ε α) = .ok b ↔ a = b := by
  simp [pure, Except.pure]

theorem ok_ne_error {ε α : Type} {a : α} {e : ε} : (Except.ok a : Except ε α) ≠ .error e := by
  simp

theorem bind_eq_error {ε α β : Type} {x : Except ε α} {f : α → Except ε β} {e : ε} :
    (x >>= f) = .error e ↔ x = .error e ∨ ∃ a, x = .ok a ∧ f a = .error e := by
  cases x <;> simp [bind, Except.bind]

theorem bind_ne_error {ε α β : Type} {x : Except ε α} {f : α → Except ε β} {e : ε}
    (hx : x ≠ .error e) (hf : ∀ a, f a ≠ .error e) : (x >>= f) ≠ .error e := by
  cases x with
  | error e' => exact fun h => hx (congrArg Except.error (Except.error.inj h))
  | ok a => exact hf a

theorem eq_of_ok {ε α : Type} {e : Except ε α} {x y : α} (h : e = .ok x) (h' : e = .ok y) : x = y :=
  Except.ok.inj (h.symm.trans h')

theorem exists_error_iff {ε α : Type} {x : Except ε α} : (∃ e, x = .error e) ↔ ∀ a, x ≠ .ok a := by
  cases x <;> simp

/-- What succeeds unless `p` holds, and then fails with `f`, fails in no other way. -/
theorem eq_error_iff {ε α : Type} {x : Except ε α} {p : Prop} {f : ε} (hok : ¬p → ∃ a, x = .ok a)
    (hfail : p → x = .error f) {e : ε} : x = .error e ↔ p ∧ e = f := by
  by_cases h : p
  · simp [hfail h, h, eq_comm]
  · obtain ⟨a, ha⟩ := hok h
    simp [ha, h]

theorem toOption_eq_some {ε α : Type} {x : Except ε α} {a : α} :
    x.toOption = some a ↔ x = .ok a := by
  cases x <;> simp [Except.toOption]

theorem toOption_eq_none {ε α : Type} {x : Except ε α} : x.toOption = none ↔ ∃ e, x = .error e := by
  cases x <;> simp [Except.toOption]

@[simp] theorem require_eq_ok {p : Prop} [Decidable p] {r : Requirement} :
    require p r = .ok () ↔ p := by
  unfold require; split <;> simp_all

@[simp] theorem Operation.demand_eq_ok {op : Operation} {p : Prop} [Decidable p] {k : Kind} :
    op.demand p k = .ok () ↔ p := by
  unfold demand; split <;> simp_all

end RangePool
