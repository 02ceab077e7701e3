import RangePool.Reward
import RangePool.Word.Bytes
/-!
Fixed layouts of bytes. One description of a record both writes it and reads it back: a codec takes its own
bytes off the front and leaves the rest. Padding is written as zero and not looked at.
-/
set_option autoImplicit false

namespace RangePool

structure Codec (α : Type) where
  size : Nat
  write : α → List Byte
  read : List Byte → Except Fault (α × List Byte)

namespace Codec

variable {α β : Type}

def word (n : Nat) : Codec (Word (8 * n)) where
  size := n
  write x := x.toBytes
  read bs :=
    match Word.ofBytes? n (bs.take n) with
    | some x => .ok (x, bs.drop n)
    | none => .error .recordSize

def byte : Codec (Word 8) := word 1
def u16 : Codec (Word 16) := word 2
def u32 : Codec (Word 32) := word 4
def u64 : Codec (Word 64) := word 8
def u128 : Codec (Word 128) := word 16
def u256 : Codec (Word 256) := word 32

def pair (c : Codec α) (d : Codec β) : Codec (α × β) where
  size := c.size + d.size
  write x := c.write x.1 ++ d.write x.2
  read bs := do
    let (x, bs) ← c.read bs
    let (y, bs) ← d.read bs
    return ((x, y), bs)

def iso (c : Codec α) (f : α → β) (g : β → α) : Codec β where
  size := c.size
  write y := c.write (g y)
  read bs := do
    let (x, bs) ← c.read bs
    return (f x, bs)

def key : Codec Key := u256.iso (fun x => ⟨x⟩) (fun k => k.number)

def padded (c : Codec α) (n : Nat) : Codec α where
  size := c.size + n
  write x := c.write x ++ List.replicate n 0
  read bs := do
    let (x, bs) ← c.read bs
    if n ≤ bs.length then return (x, bs.drop n) else .error .recordSize

def tokens (c : Codec α) : Codec (Pair α) :=
  (c.pair c).iso (fun x => ⟨x.1, x.2⟩) (fun p => (p.a, p.b))

def slots (c : Codec α) : Codec (Slots α) :=
  (c.pair c).iso (fun x => ⟨x.1, x.2⟩) (fun s => (s.first, s.second))

/-- Any byte but zero reads as true; true is written as one. -/
def flag : Codec Bool :=
  byte.iso (fun b => decide (b ≠ 0)) (fun f => if f then Byte.one else 0)

def coded [ByteCode α] : Codec (Coded α) where
  size := 1
  write c := byte.write c.byte
  read bs := do
    let (b, bs) ← byte.read bs
    let c ← (Coded.mk b : Coded α).check
    return (c, bs)

def version (v : Byte) (c : Codec α) : Codec α where
  size := 8 + c.size
  write x := byte.write v ++ List.replicate 7 0 ++ c.write x
  read bs := do
    let (b, bs) ← (byte.padded 7).read bs
    if b = v then c.read bs else .error .recordVersion

def decode (c : Codec α) (bs : List Byte) : Except Fault α :=
  if bs.length = c.size then do
    let (x, _) ← c.read bs
    return x
  else .error .recordSize

end Codec

end RangePool
