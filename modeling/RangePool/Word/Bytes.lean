import RangePool.Coded
/-!
Numbers as bytes, the lowest byte first. Reading back what was written gives the number, and writing what was
read gives the bytes.
-/
set_option autoImplicit false

namespace RangePool

namespace Byte

def ofNat : Nat → Nat → List Byte
  | 0, _ => []
  | n + 1, x => ⟨x % 256, Nat.mod_lt _ (by decide)⟩ :: ofNat n (x / 256)

def toNat : List Byte → Nat
  | [] => 0
  | b :: bs => b.val + 256 * toNat bs

@[simp] theorem length_ofNat (n x : Nat) : (ofNat n x).length = n := by
  induction n generalizing x with
  | zero => rfl
  | succ n ih => simp [ofNat, ih]

theorem pow_succ_byte (n : Nat) : Nat.pow 2 (8 * (n + 1)) = Nat.pow 2 (8 * n) * 256 :=
  Nat.pow_add 2 (8 * n) 8

theorem toNat_lt (bs : List Byte) : toNat bs < Nat.pow 2 (8 * bs.length) := by
  induction bs with
  | nil => exact Nat.one_pos
  | cons b bs ih =>
    have hb : b.val < 256 := b.isLt
    rw [List.length_cons, pow_succ_byte]
    simp only [toNat]
    omega

theorem toNat_ofNat {n x : Nat} (h : x < Nat.pow 2 (8 * n)) : toNat (ofNat n x) = x := by
  induction n generalizing x with
  | zero => exact (Nat.lt_one_iff.1 h).symm
  | succ n ih =>
    rw [pow_succ_byte] at h
    simp only [ofNat, toNat, ih (Nat.div_lt_of_lt_mul (by rw [Nat.mul_comm]; exact h))]
    exact Nat.mod_add_div x 256

theorem ofNat_toNat (bs : List Byte) : ofNat bs.length (toNat bs) = bs := by
  induction bs with
  | nil => rfl
  | cons b bs ih =>
    have hb : b.val < 256 := b.isLt
    have hm : (b.val + 256 * toNat bs) % 256 = b.val := by omega
    have hd : (b.val + 256 * toNat bs) / 256 = toNat bs := by omega
    simp only [List.length_cons, ofNat, toNat, hm, hd, ih]

end Byte

namespace Word

def toBytes {n : Nat} (x : Word (8 * n)) : List Byte := Byte.ofNat n x.val

def ofBytes? (n : Nat) (bs : List Byte) : Option (Word (8 * n)) :=
  if h : bs.length = n then some ⟨Byte.toNat bs, h ▸ Byte.toNat_lt bs⟩ else none

theorem ofBytes?_toBytes {n : Nat} (x : Word (8 * n)) : ofBytes? n x.toBytes = some x := by
  unfold ofBytes? toBytes
  rw [dif_pos (Byte.length_ofNat n x.val)]
  congr 1
  exact Word.ext (Byte.toNat_ofNat x.isLt)

end Word

end RangePool
