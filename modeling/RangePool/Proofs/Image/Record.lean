import RangePool.Proofs.Image.Form
import Mathlib.Data.Set.Function
/-!
What the images of pools and positions keep, and which bytes are images: the law of each record, put together as the
record's codec is, and its form.
-/
set_option autoImplicit false

namespace RangePool

namespace Codec.Law

def decay : (Codec.coded (α := Decay)).Law :=
  coded <| ByteCode.exists_toByte .linear .exponential rfl rfl fun z => by cases z <;> simp

def timeUnit : (Codec.coded (α := TimeUnit)).Law :=
  coded <| ByteCode.exists_toByte .slot .second rfl rfl fun z => by cases z <;> simp

def status : (Codec.coded (α := Status)).Law :=
  coded <| ByteCode.exists_toByte .enabled .disabled rfl rfl fun z => by cases z <;> simp

def collection : (Codec.coded (α := Collection)).Law :=
  coded <| ByteCode.exists_toByte .received .onlyB rfl rfl fun z => by cases z <;> simp

def origin : (Codec.coded (α := Origin)).Law :=
  coded <| ByteCode.exists_toByte .permissionless .customizable rfl rfl fun z => by cases z <;> simp

def baseFee : Codec.baseFee.Law :=
  (u64.pair <| u16.pair <| u64.pair <| u64.pair <| decay.padded 5).iso
    (fun _ => rfl) (fun _ => rfl)

def percents : Codec.percents.Law :=
  (byte.pair <| byte.pair <| byte.padded 5).iso (fun _ => rfl) (fun _ => rfl)

def tracker : Codec.tracker.Law :=
  ((flag.padded 7).pair <| u32.pair <| u32.pair <| u16.pair <| u16.pair <| u16.pair <| u16.pair <|
    u64.pair <| u128.pair <| u128.pair <| u128.pair u128).iso (fun _ => rfl) (fun _ => rfl)

def feePlan : Codec.feePlan.Law :=
  (baseFee.pair <| percents.pair tracker).iso (fun _ => rfl) (fun _ => rfl)

def metrics : Codec.metrics.Law :=
  (u128.tokens.pair <| u64.tokens.pair <| u64.tokens.pair <| u64.padded 8).iso
    (fun _ => rfl) (fun _ => rfl)

def rewardSlot : Codec.rewardSlot.Law :=
  (flag.pair <| (byte.padded 14).pair <| key.pair <| key.pair <| key.pair <| u64.pair <|
    u64.pair <| u128.pair <| u256.pair <| u64.pair u64).iso (fun _ => rfl) (fun _ => rfl)

def stake : Codec.stake.Law :=
  (u256.pair <| u64.pair u64).iso (fun _ => rfl) (fun _ => rfl)

def pool : Codec.pool.Law :=
  version layout <|
    (feePlan.pair <| key.tokens.pair <| key.tokens.pair <| key.pair <| key.pair <|
      (u128.padded 16).pair <| u64.tokens.pair <| u64.tokens.pair <|
      u128.pair <| u128.pair <| u128.pair <| u64.pair <|
      timeUnit.pair <| status.pair <| byte.tokens.pair <| collection.pair <| (origin.padded 2).pair <|
      u256.tokens.pair <| u128.pair <| (metrics.padded 80).pair rewardSlot.slots).iso
    (fun _ => rfl) (fun _ => rfl)

def position : Codec.position.Law :=
  version layout <|
    (key.pair <| key.pair <| u256.tokens.pair <| u64.tokens.pair <| u128.pair <| u128.pair <|
      u128.pair <| u64.tokens.pair stake.slots).iso (fun _ => rfl) (fun _ => rfl)

end Codec.Law

structure Pool.Declared (p : Pool) : Prop where
  decay : ∃ x, p.fees.base.decay = .of x
  timeUnit : ∃ x, p.timeUnit = .of x
  status : ∃ x, p.status = .of x
  collection : ∃ x, p.collection = .of x
  origin : ∃ x, p.origin = .of x

namespace Codec.Law

theorem pool_declared {p : Pool} : pool.Declared p ↔ p.Declared := by
  simp only [pool, feePlan, baseFee, percents, tracker, metrics, rewardSlot, version, pair, iso,
    padded, decay, timeUnit, status, collection, origin, coded, flag, key, tokens, slots, byte, u16,
    u32, u64, u128, u256, word, and_true, true_and]
  constructor
  · rintro ⟨hdecay, htime, hstatus, hcollection, horigin⟩
    exact ⟨hdecay, htime, hstatus, hcollection, horigin⟩
  · intro h
    exact ⟨h.decay, h.timeUnit, h.status, h.collection, h.origin⟩

theorem position_declared (x : Position) : position.Declared x := by
  simp only [position, stake, version, pair, iso, tokens, slots, key, u64, u128, u256, word, and_true]

end Codec.Law

def Pool.form : Form where
  size := 1088
  padding := [(1, 7), (35, 5), (43, 5), (49, 7), (352, 16), (462, 2), (616, 88), (706, 14), (898, 14)]
  flags := [48, 704, 896]
  members := [(34, .decay), (456, .timeUnit), (457, .status), (460, .collection), (461, .origin)]

def Position.form : Form where
  size := 312
  padding := [(1, 7)]
  flags := []
  members := []

theorem Pool.form_fits : Pool.form.Fits Codec.Law.pool where
  roles := by decide +kernel
  checked := by decide +kernel

theorem Position.form_fits : Position.form.Fits Codec.Law.position where
  roles := by decide +kernel
  checked := by decide +kernel

/-- Reading an image back gives what was written. A pool is read back just when its enumerations hold members. -/
theorem images_lose_nothing :
    (∀ p : Pool, p.image.length = 1088 ∧ (Pool.ofImage p.image = .ok p ↔ p.Declared)) ∧
      (∀ x : Position, x.image.length = 312 ∧ Position.ofImage x.image = .ok x) ∧
      Set.InjOn Pool.image {p | p.Declared} ∧ Function.Injective Position.image := by
  refine ⟨fun p => ⟨Codec.Law.pool.length_write p, ?_⟩,
    fun x => ⟨Codec.Law.position.length_write x, ?_⟩, fun p hp q hq => ?_, fun x y => ?_⟩
  · rw [← Codec.Law.pool_declared]
    exact ⟨fun h => (Pool.form_fits.accepted h).2.1, Codec.Law.pool.decode_write⟩
  · exact Codec.Law.position.decode_write (Codec.Law.position_declared x)
  · exact Codec.Law.pool.write_inj (Codec.Law.pool_declared.2 hp) (Codec.Law.pool_declared.2 hq)
  · exact Codec.Law.position.write_inj (Codec.Law.position_declared x)
      (Codec.Law.position_declared y)

/-- Each image is read and written as its form says, and refused with these kinds of faults in this order. -/
theorem images_follow_form :
    Pool.form.Governs Pool.ofImage Pool.image ∧ Position.form.Governs Position.ofImage Position.image ∧
      ∀ bs, (Pool.form.checks bs).map (fun c => c.2.kind) =
          [.invalidParameters, .invalidParameters, .invalidFee, .invalidActivationType,
            .invalidParameters, .invalidCollectFeeMode, .invalidParameters] ∧
        (Position.form.checks bs).map (fun c => c.2.kind) =
          [.invalidParameters, .invalidParameters] :=
  ⟨Pool.form_fits.governs, Position.form_fits.governs, fun _ => ⟨rfl, rfl⟩⟩

end RangePool
