import RangePool.Coded
/-!
Account keys and the set of keys with administrative rights, and how numbers, bytes and keys are written. A number is
decimal, or hexadecimal with digits of either case after `0x`; a byte is two lower case hexadecimal digits.
-/
set_option autoImplicit false

namespace RangePool

namespace Numeral

def hexDigit? (c : Char) : Option Nat :=
  if c.isDigit then some (c.toNat - '0'.toNat)
  else if 'a' ≤ c ∧ c ≤ 'f' then some (c.toNat - 'a'.toNat + 10)
  else if 'A' ≤ c ∧ c ≤ 'F' then some (c.toNat - 'A'.toNat + 10)
  else none

def readDigits (digit? : Char → Option Nat) (base : Nat) : List Char → Nat → Option Nat
  | [], n => some n
  | c :: cs, n => (digit? c).bind fun d => readDigits digit? base cs (base * n + d)

def readHex? (cs : List Char) : Option Nat := readDigits hexDigit? 16 cs 0

def decimalDigit? (c : Char) : Option Nat :=
  if c.isDigit then some (c.toNat - '0'.toNat) else none

def read? (s : String) : Option Nat :=
  match s.toList with
  | [] => none
  | '0' :: 'x' :: cs => readHex? cs
  | '0' :: 'X' :: cs => readHex? cs
  | cs => readDigits decimalDigit? 10 cs 0

def hex (width n : Nat) : String :=
  let digits := Nat.toDigits 16 n
  String.ofList (List.replicate (width - digits.length) '0' ++ digits)

end Numeral

namespace Byte

def toText (bs : List Byte) : String :=
  String.join (bs.map fun b => Numeral.hex 2 b.val)

def ofDigits? : List Char → Option (List Byte)
  | [] => some []
  | [_] => none
  | x :: y :: cs => do
    let b ← (Numeral.readHex? [x, y]).bind (Word.ofNat? 8)
    return b :: (← ofDigits? cs)

def ofText? (s : String) : Option (List Byte) := ofDigits? s.toList

end Byte

structure Key where
  number : Word 256
  deriving DecidableEq, Repr

namespace Key

/-- The zero key stands for no account. -/
def none : Key := ⟨0⟩

instance : Inhabited Key := ⟨none⟩

def isNone (k : Key) : Bool := decide (k = none)

def toText (k : Key) : String := "0x" ++ Numeral.hex 64 k.number.val

/-- Of a number of more than 32 bytes the lowest 32 count. -/
def ofText? (s : String) : Option Key :=
  (Numeral.read? s).map fun n => ⟨⟨n % Nat.pow 2 256, Nat.mod_lt _ (Nat.two_pow_pos 256)⟩⟩

end Key

structure Authority where
  admins : List Key := []
  deriving DecidableEq, Repr

/-- The zero key is never an admin, even when listed. -/
def Authority.isAdmin (auth : Authority) (k : Key) : Bool :=
  !k.isNone && auth.admins.contains k

end RangePool
