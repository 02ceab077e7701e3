import RangePool.Image.Codec
/-!
What the bytes of an image stand for. Each byte of a codec has a role, which says what the byte may be and what it is
written back as. A codec with its roles fails at the first byte that is refused; else it takes its bytes off, and
writes them back in normal form.
-/
set_option autoImplicit false

namespace RangePool

inductive Role
  | value
  | padding
  | flag
  | version (v : Byte)
  | member (e : Enumeration)
  deriving DecidableEq

namespace Role

def fault? : Role → Byte → Option Fault
  | .version v, b => if b = v then none else some .recordVersion
  | .member e, b => if b.val ≤ 1 then none else some (.unknownByte e)
  | _, _ => none

def normal : Role → Byte → Byte
  | .padding, _ => 0
  | .flag, b => if b = 0 then 0 else .one
  | _, b => b

def isChecked : Role → Bool
  | .version _ | .member _ => true
  | _ => false

theorem fault?_of_unchecked {r : Role} (h : r.isChecked = false) (b : Byte) : r.fault? b = none := by
  cases r <;> simp_all [isChecked, fault?]

def firstFault? (rs : List Role) (bs : List Byte) : Option Fault :=
  (rs.zip bs).findSome? fun x => x.1.fault? x.2

def normals (rs : List Role) (bs : List Byte) : List Byte := List.zipWith normal rs bs

section
variable {rs ss : List Role} {bs cs : List Byte} {n : Nat}

theorem firstFault?_append (h : rs.length = bs.length) :
    firstFault? (rs ++ ss) (bs ++ cs) = (firstFault? rs bs).or (firstFault? ss cs) := by
  rw [firstFault?, List.zip_append h, List.findSome?_append]
  rfl

theorem normals_append (h : rs.length = bs.length) :
    normals (rs ++ ss) (bs ++ cs) = normals rs bs ++ normals ss cs :=
  List.zipWith_append h

theorem firstFault?_replicate {r : Role} (h : r.isChecked = false) :
    firstFault? (List.replicate n r) bs = none := by
  induction n generalizing bs with
  | zero => rfl
  | succ n ih =>
    cases bs with
    | nil => rfl
    | cons b bs =>
      have ih : firstFault? (List.replicate n r) bs = none := ih
      simp only [firstFault?] at ih
      simp [List.replicate_succ, firstFault?, fault?_of_unchecked h, ih]

theorem firstFault?_singleton (r : Role) (b : Byte) : firstFault? [r] [b] = r.fault? b := by
  simp only [firstFault?, List.zip_cons_cons, List.zip_nil_right, List.findSome?_cons,
    List.findSome?_nil]
  cases r.fault? b <;> rfl

theorem normals_values (h : bs.length = n) : normals (List.replicate n .value) bs = bs := by
  subst h
  induction bs with
  | nil => rfl
  | cons b bs ih => exact congrArg (b :: ·) ih

theorem normals_padding (h : bs.length = n) :
    normals (List.replicate n .padding) bs = List.replicate n 0 := by
  subst h
  induction bs with
  | nil => rfl
  | cons b bs ih => exact congrArg (0 :: ·) ih

/-- Only checked bytes can be at fault. The bytes in front are there for the induction to count from. -/
theorem firstFault?_eq_checked (front : List Byte) (h : rs.length = bs.length) :
    firstFault? rs bs = ((rs.zipIdx front.length).filter fun x => x.1.isChecked).findSome?
      fun x => (front ++ bs)[x.2]?.bind x.1.fault? := by
  induction rs generalizing bs front with
  | nil => rfl
  | cons r rs ih =>
    cases bs with
    | nil => cases h
    | cons b bs =>
      have ih := ih (front ++ [b]) (Nat.succ.inj h)
      rw [List.length_append, List.length_singleton, List.append_assoc, List.singleton_append] at ih
      have hcons : firstFault? (r :: rs) (b :: bs) = (r.fault? b).or (firstFault? rs bs) := by
        simp only [firstFault?, List.zip_cons_cons, List.findSome?_cons]
        cases r.fault? b <;> rfl
      rw [hcons, ih, List.zipIdx_cons, List.filter_cons]
      cases hr : r.isChecked with
      | true =>
        simp only [if_true, List.findSome?_cons, List.getElem?_append_right (Nat.le_refl _),
          Nat.sub_self, List.getElem?_cons_zero, Option.bind_some]
        cases r.fault? b <;> rfl
      | false =>
        rw [fault?_of_unchecked hr, Option.none_or]
        rfl

end

end Role

theorem exists_split {α : Type} {m n : Nat} {bs : List α} (h : bs.length = m + n) :
    ∃ us vs, bs = us ++ vs ∧ us.length = m ∧ vs.length = n :=
  ⟨bs.take m, bs.drop m, (List.take_append_drop m bs).symm,
    by rw [List.length_take]; omega, by rw [List.length_drop]; omega⟩

theorem Word.exists_ofBytes? {n : Nat} {bs : List Byte} (h : bs.length = n) :
    ∃ x : Word (8 * n), Word.ofBytes? n bs = some x ∧ x.toBytes = bs := by
  subst h
  exact ⟨_, dif_pos rfl, Byte.ofNat_toNat bs⟩

theorem ByteCode.exists_toByte {α : Type} [ByteCode α] (x y : α) (hx : toByte x = 0)
    (hy : toByte y = .one) (hall : ∀ z, z = x ∨ z = y) {b : Byte} :
    (∃ z : α, toByte z = b) ↔ b.val ≤ 1 := by
  constructor
  · rintro ⟨z, rfl⟩
    rcases hall z with rfl | rfl
    · rw [hx]
      exact Nat.zero_le 1
    · rw [hy]
      exact Nat.le_refl 1
  · intro h
    rcases Nat.le_one_iff_eq_zero_or_eq_one.1 h with h | h
    · exact ⟨x, hx.trans (Word.ext h.symm)⟩
    · exact ⟨y, hy.trans (Word.ext h.symm)⟩

theorem Coded.check_eq_error {α : Type} [ByteCode α] {k : Coded α} (h : ∀ x : α, k ≠ .of x) :
    k.check = .error (.unknownByte (ByteCode.enumeration α)) := by
  have hm : k.member? = none := by
    cases hm : k.member? with
    | none => rfl
    | some x => exact absurd (member?_eq_some.1 hm) (h x)
  simp only [check, member, hm]
  rfl

/-- A codec together with what its bytes stand for, and the values that it is made for. -/
structure Codec.Law {α : Type} (c : Codec α) where
  roles : List Role
  Declared : α → Prop
  length_roles : roles.length = c.size
  length_write : ∀ x, (c.write x).length = c.size
  read_write : ∀ {x} rest, Declared x → c.read (c.write x ++ rest) = .ok (x, rest)
  refuses : ∀ {bs f} rest, bs.length = c.size → Role.firstFault? roles bs = some f →
    c.read (bs ++ rest) = .error f
  accepts : ∀ {bs} rest, bs.length = c.size → Role.firstFault? roles bs = none →
    ∃ x, Declared x ∧ c.read (bs ++ rest) = .ok (x, rest) ∧ c.write x = Role.normals roles bs

namespace Codec

variable {α β : Type} {c : Codec α} {d : Codec β}

section
variable {x : α} {y : β} {bs rest rest' : List Byte} {f : Fault}

theorem pair_read (hx : c.read bs = .ok (x, rest)) (hy : d.read rest = .ok (y, rest')) :
    (c.pair d).read bs = .ok ((x, y), rest') := by
  simp only [pair, bind_eq_ok, pure_eq_ok]
  exact ⟨_, hx, _, hy, rfl⟩

theorem pair_read_left (h : c.read bs = .error f) : (c.pair d).read bs = .error f := by
  simp only [pair, h]
  rfl

theorem pair_read_right (hx : c.read bs = .ok (x, rest)) (hy : d.read rest = .error f) :
    (c.pair d).read bs = .error f := by
  simp only [pair, hx]
  show (d.read rest >>= _) = _
  rw [hy]
  rfl

theorem padded_read {pad : List Byte} (h : c.read bs = .ok (x, pad ++ rest)) :
    (c.padded pad.length).read bs = .ok (x, rest) := by
  simp only [padded, h]
  show (if _ then _ else _) = _
  rw [if_pos (by rw [List.length_append]; exact Nat.le_add_right _ _), List.drop_left]
  rfl

theorem padded_read_error {n : Nat} (h : c.read bs = .error f) :
    (c.padded n).read bs = .error f := by
  simp only [padded, h]
  rfl

theorem iso_read {g : α → β} {g' : β → α} (h : c.read bs = .ok (x, rest)) :
    (c.iso g g').read bs = .ok (g x, rest) := by
  simp only [iso, h]
  rfl

theorem iso_read_error {g : α → β} {g' : β → α} (h : c.read bs = .error f) :
    (c.iso g g').read bs = .error f := by
  simp only [iso, h]
  rfl

end

namespace Law

def word (n : Nat) : (Codec.word n).Law where
  roles := List.replicate n .value
  Declared _ := True
  length_roles := List.length_replicate
  length_write x := Byte.length_ofNat n x.val
  read_write {x} rest _ := by
    have hlen : x.toBytes.length = n := Byte.length_ofNat n x.val
    simp only [Codec.word, List.take_left' hlen, List.drop_left' hlen, Word.ofBytes?_toBytes]
  refuses {bs f} rest _ hf := by
    rw [Role.firstFault?_replicate rfl] at hf
    cases hf
  accepts {bs} rest hlen _ := by
    have hlen : bs.length = n := hlen
    obtain ⟨x, hx, hbs⟩ := Word.exists_ofBytes? hlen
    refine ⟨x, trivial, ?_, ?_⟩
    · simp only [Codec.word, List.take_left' hlen, List.drop_left' hlen, hx]
    · rw [Role.normals_values hlen]
      exact hbs

def pair (lc : c.Law) (ld : d.Law) : (c.pair d).Law where
  roles := lc.roles ++ ld.roles
  Declared x := lc.Declared x.1 ∧ ld.Declared x.2
  length_roles := by
    rw [List.length_append, lc.length_roles, ld.length_roles]
    rfl
  length_write x := by
    rw [Codec.pair, List.length_append, lc.length_write, ld.length_write]
  read_write {x} rest hx := by
    have hx₁ := lc.read_write (d.write x.2 ++ rest) hx.1
    have hx₂ := ld.read_write rest hx.2
    rw [← List.append_assoc] at hx₁
    exact pair_read hx₁ hx₂
  refuses {bs f} rest hlen hf := by
    obtain ⟨us, vs, rfl, hus, hvs⟩ := exists_split hlen
    rw [Role.firstFault?_append (by rw [lc.length_roles, hus])] at hf
    rw [List.append_assoc]
    cases hfirst : Role.firstFault? lc.roles us with
    | some g =>
      rw [hfirst, Option.some_or, Option.some.injEq] at hf
      subst hf
      exact pair_read_left (lc.refuses _ hus hfirst)
    | none =>
      rw [hfirst, Option.none_or] at hf
      obtain ⟨x, -, hx, -⟩ := lc.accepts (vs ++ rest) hus hfirst
      exact pair_read_right hx (ld.refuses rest hvs hf)
  accepts {bs} rest hlen hf := by
    obtain ⟨us, vs, rfl, hus, hvs⟩ := exists_split hlen
    have hroles : lc.roles.length = us.length := by rw [lc.length_roles, hus]
    rw [Role.firstFault?_append hroles, Option.or_eq_none_iff] at hf
    obtain ⟨x, hdx, hx, hwx⟩ := lc.accepts (vs ++ rest) hus hf.1
    obtain ⟨y, hdy, hy, hwy⟩ := ld.accepts rest hvs hf.2
    refine ⟨(x, y), ⟨hdx, hdy⟩, ?_, ?_⟩
    · rw [List.append_assoc]
      exact pair_read hx hy
    · rw [Role.normals_append hroles, ← hwx, ← hwy]
      rfl

def iso (lc : c.Law) {f : α → β} {g : β → α} (hfg : ∀ y, f (g y) = y) (hgf : ∀ x, g (f x) = x) :
    (c.iso f g).Law where
  roles := lc.roles
  Declared y := lc.Declared (g y)
  length_roles := lc.length_roles
  length_write y := lc.length_write (g y)
  read_write {y} rest hy := by
    have h : (c.iso f g).read (c.write (g y) ++ rest) = .ok (f (g y), rest) :=
      iso_read (lc.read_write rest hy)
    rw [hfg] at h
    exact h
  refuses rest hlen hf := iso_read_error (lc.refuses rest hlen hf)
  accepts rest hlen hf := by
    obtain ⟨x, hdx, hx, hwx⟩ := lc.accepts rest hlen hf
    refine ⟨f x, ?_, iso_read hx, ?_⟩
    · rw [hgf]
      exact hdx
    · show c.write (g (f x)) = _
      rw [hgf, hwx]

def padded (lc : c.Law) (n : Nat) : (c.padded n).Law where
  roles := lc.roles ++ List.replicate n .padding
  Declared := lc.Declared
  length_roles := by
    rw [List.length_append, lc.length_roles, List.length_replicate]
    rfl
  length_write x := by
    rw [Codec.padded, List.length_append, lc.length_write, List.length_replicate]
  read_write {x} rest hx := by
    have h := padded_read (lc.read_write (List.replicate n 0 ++ rest) hx)
    rw [List.length_replicate, ← List.append_assoc] at h
    exact h
  refuses {bs f} rest hlen hf := by
    obtain ⟨us, vs, rfl, hus, hvs⟩ := exists_split hlen
    rw [Role.firstFault?_append (by rw [lc.length_roles, hus]), Role.firstFault?_replicate rfl,
      Option.or_none] at hf
    rw [List.append_assoc]
    exact padded_read_error (lc.refuses _ hus hf)
  accepts {bs} rest hlen hf := by
    obtain ⟨us, vs, rfl, hus, rfl⟩ := exists_split hlen
    have hroles : lc.roles.length = us.length := by rw [lc.length_roles, hus]
    rw [Role.firstFault?_append hroles, Option.or_eq_none_iff] at hf
    obtain ⟨x, hdx, hx, hwx⟩ := lc.accepts (vs ++ rest) hus hf.1
    refine ⟨x, hdx, ?_, ?_⟩
    · rw [List.append_assoc]
      exact padded_read hx
    · rw [Role.normals_append hroles, Role.normals_padding rfl, ← hwx]
      rfl

def byte : Codec.byte.Law := word 1
def u16 : Codec.u16.Law := word 2
def u32 : Codec.u32.Law := word 4
def u64 : Codec.u64.Law := word 8
def u128 : Codec.u128.Law := word 16
def u256 : Codec.u256.Law := word 32

def key : Codec.key.Law := u256.iso (fun _ => rfl) (fun _ => rfl)

def tokens (lc : c.Law) : c.tokens.Law := (lc.pair lc).iso (fun _ => rfl) (fun _ => rfl)

def slots (lc : c.Law) : c.slots.Law := (lc.pair lc).iso (fun _ => rfl) (fun _ => rfl)

end Law

section
variable {b : Byte} {rest : List Byte}

theorem byte_write (b : Byte) : byte.write b = [b] := by
  have hb : b.val % 256 = b.val := Nat.mod_eq_of_lt b.isLt
  exact congrArg (fun x : Byte => [x]) (Word.ext hb)

theorem byte_read (b : Byte) (rest : List Byte) : byte.read (b :: rest) = .ok (b, rest) := by
  have h := Law.byte.read_write (x := b) rest trivial
  rwa [byte_write] at h

theorem flag_write (f : Bool) : flag.write f = [if f then .one else 0] := byte_write _

theorem flag_read (b : Byte) (rest : List Byte) :
    flag.read (b :: rest) = .ok (decide (b ≠ 0), rest) :=
  iso_read (byte_read b rest)

variable [ByteCode α]

theorem coded_read {k : Coded α} (h : (Coded.mk b : Coded α).check = .ok k) :
    coded.read (b :: rest) = .ok (k, rest) := by
  simp only [coded, byte_read]
  show (Coded.check _ >>= _) = _
  rw [h]
  rfl

theorem coded_read_error {f : Fault} (h : (Coded.mk b : Coded α).check = .error f) :
    (coded (α := α)).read (b :: rest) = .error f := by
  simp only [coded, byte_read]
  show (Coded.check _ >>= _) = _
  rw [h]
  rfl

end

namespace Law

def flag : Codec.flag.Law where
  roles := [.flag]
  Declared _ := True
  length_roles := rfl
  length_write _ := Law.byte.length_write _
  read_write {f} rest _ := by
    rw [flag_write]
    cases f <;> exact flag_read _ rest
  refuses {bs f} rest hlen hf := by
    obtain ⟨b, rfl⟩ := List.length_eq_one_iff.1 hlen
    cases hf
  accepts {bs} rest hlen _ := by
    obtain ⟨b, rfl⟩ := List.length_eq_one_iff.1 hlen
    refine ⟨_, trivial, flag_read b rest, ?_⟩
    show Codec.flag.write _ = [Role.normal .flag b]
    rw [flag_write]
    by_cases hb : b = 0 <;> simp [hb, Role.normal]

def coded [ByteCode α] (hbytes : ∀ {b : Byte}, (∃ z : α, ByteCode.toByte z = b) ↔ b.val ≤ 1) :
    (Codec.coded (α := α)).Law where
  roles := [.member (ByteCode.enumeration α)]
  Declared k := ∃ x, k = .of x
  length_roles := rfl
  length_write _ := Law.byte.length_write _
  read_write {k} rest hk := by
    have hcheck : k.check = .ok k := Coded.check_eq_ok.2 ⟨rfl, hk⟩
    rw [Codec.coded, byte_write]
    exact coded_read hcheck
  refuses {bs f} rest hlen hf := by
    obtain ⟨b, rfl⟩ := List.length_eq_one_iff.1 hlen
    rw [Role.firstFault?_singleton, Role.fault?] at hf
    split at hf
    · cases hf
    · rename_i hb
      cases hf
      refine coded_read_error (Coded.check_eq_error fun z hz => hb ?_)
      exact hbytes.1 ⟨z, (congrArg Coded.byte hz).symm⟩
  accepts {bs} rest hlen hf := by
    obtain ⟨b, rfl⟩ := List.length_eq_one_iff.1 hlen
    rw [Role.firstFault?_singleton, Role.fault?] at hf
    split at hf
    · rename_i hb
      obtain ⟨z, rfl⟩ := hbytes.2 hb
      refine ⟨.of z, ⟨z, rfl⟩, coded_read (Coded.check_eq_ok.2 ⟨rfl, z, rfl⟩), ?_⟩
      exact byte_write _
    · cases hf

end Law

section
variable {v b : Byte} {pad bs : List Byte}

theorem version_read (hpad : pad.length = 7) :
    (version v c).read (b :: (pad ++ bs)) = if b = v then c.read bs else .error .recordVersion := by
  have h := padded_read (byte_read b (pad ++ bs))
  rw [hpad] at h
  simp only [version, h]
  rfl

theorem version_firstFault? {rs : List Role} (hpad : pad.length = 7) :
    Role.firstFault? (.version v :: List.replicate 7 .padding ++ rs) (b :: pad ++ bs) =
      ((Role.version v).fault? b).or (Role.firstFault? rs bs) := by
  have hfront : (.version v :: List.replicate 7 .padding : List Role) =
      [.version v] ++ List.replicate 7 .padding := rfl
  have hbytes : b :: pad = [b] ++ pad := rfl
  rw [Role.firstFault?_append (by simp [hpad]), hfront, hbytes, Role.firstFault?_append rfl,
    Role.firstFault?_singleton, Role.firstFault?_replicate rfl, Option.or_none]

end

def Law.version (v : Byte) (lc : c.Law) : (c.version v).Law where
  roles := .version v :: List.replicate 7 .padding ++ lc.roles
  Declared := lc.Declared
  length_roles := by
    rw [List.length_append, lc.length_roles]
    rfl
  length_write x := by
    rw [Codec.version, byte_write, List.length_append, lc.length_write]
    rfl
  read_write {x} rest hx := by
    have hpad : (List.replicate 7 (0 : Byte)).length = 7 := List.length_replicate
    have hread : (c.version v).read (v :: (List.replicate 7 0 ++ (c.write x ++ rest))) =
        .ok (x, rest) := by
      rw [version_read hpad, if_pos rfl]
      exact lc.read_write rest hx
    rw [Codec.version, byte_write, List.append_assoc]
    exact hread
  refuses {bs f} rest hlen hf := by
    obtain ⟨front, us, rfl, hfront, hus⟩ := exists_split hlen
    obtain ⟨b, pad, rfl⟩ := List.exists_cons_of_length_eq_add_one hfront
    have hpad := Nat.succ.inj hfront
    rw [version_firstFault? hpad, Role.fault?] at hf
    rw [List.append_assoc, List.cons_append, version_read hpad]
    split at hf
    · rename_i hb
      rw [if_pos hb]
      exact lc.refuses rest hus hf
    · rename_i hb
      cases hf
      rw [if_neg hb]
  accepts {bs} rest hlen hf := by
    obtain ⟨front, us, rfl, hfront, hus⟩ := exists_split hlen
    obtain ⟨b, pad, rfl⟩ := List.exists_cons_of_length_eq_add_one hfront
    have hpad := Nat.succ.inj hfront
    rw [version_firstFault? hpad, Option.or_eq_none_iff, Role.fault?] at hf
    obtain ⟨hb, hus'⟩ := hf
    by_cases hbv : b = v
    · subst hbv
      obtain ⟨x, hdx, hx, hwx⟩ := lc.accepts rest hus hus'
      refine ⟨x, hdx, ?_, ?_⟩
      · rw [List.append_assoc, List.cons_append, version_read hpad, if_pos rfl]
        exact hx
      · have hnormal : Role.normals (.version b :: List.replicate 7 .padding) (b :: pad) =
            b :: List.replicate 7 0 := congrArg (b :: ·) (Role.normals_padding hpad)
        rw [Role.normals_append (by simp [hpad]), hnormal, ← hwx, Codec.version, byte_write]
        rfl
    · rw [if_neg hbv] at hb
      cases hb

namespace Law

variable (lc : c.Law)

theorem decode_of_fault {bs : List Byte} {f : Fault} (hlen : bs.length = c.size)
    (hf : Role.firstFault? lc.roles bs = some f) : c.decode bs = .error f := by
  have h := lc.refuses [] hlen hf
  rw [List.append_nil] at h
  rw [decode, if_pos hlen, h]
  rfl

theorem exists_decode {bs : List Byte} (hlen : bs.length = c.size)
    (hf : Role.firstFault? lc.roles bs = none) :
    ∃ x, lc.Declared x ∧ c.decode bs = .ok x ∧ c.write x = Role.normals lc.roles bs := by
  obtain ⟨x, hdx, hx, hwx⟩ := lc.accepts [] hlen hf
  rw [List.append_nil] at hx
  refine ⟨x, hdx, ?_, hwx⟩
  rw [decode, if_pos hlen, hx]
  rfl

theorem decode_write {x : α} (hx : lc.Declared x) : c.decode (c.write x) = .ok x := by
  have h := lc.read_write [] hx
  rw [List.append_nil] at h
  rw [decode, if_pos (lc.length_write x), h]
  rfl

theorem write_inj {x y : α} (hx : lc.Declared x) (hy : lc.Declared y)
    (h : c.write x = c.write y) : x = y := by
  have hread := lc.decode_write hx
  rw [h, lc.decode_write hy] at hread
  exact (Except.ok.inj hread).symm

end Law

end Codec

end RangePool
