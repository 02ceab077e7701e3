import RangePool.Image.Record
import RangePool.Proofs.Image.Codec
import Mathlib.Logic.Basic
/-!
The table that a reader of an image works by: where the padding lies, which bytes are flags, and which have to name a
member of an enumeration. A form that agrees with the roles of a codec says which bytes the codec accepts, how it
refuses the others, and what it writes back.
-/
set_option autoImplicit false

namespace RangePool

/-- The first byte of an image is the version of its layout. -/
structure Form where
  size : Nat
  /-- Runs of padding, each by its first byte and its length. -/
  padding : List (Nat × Nat)
  flags : List Nat
  members : List (Nat × Enumeration)

namespace Form

def IsPadding (f : Form) (n : Nat) : Prop := ∃ r ∈ f.padding, r.1 ≤ n ∧ n < r.1 + r.2

instance (f : Form) (n : Nat) : Decidable (f.IsPadding n) :=
  inferInstanceAs (Decidable (∃ r ∈ f.padding, r.1 ≤ n ∧ n < r.1 + r.2))

structure Accepts (f : Form) (bs : List Byte) : Prop where
  size : bs.length = f.size
  version : bs[0]? = some Codec.layout
  members : ∀ m ∈ f.members, ∃ b ∈ bs[m.1]?, b.val ≤ 1

/-- Whether it does, condition by condition in the order in which they are looked at, each with its fault. -/
def checks (f : Form) (bs : List Byte) : List (Bool × Fault) :=
  (decide (bs.length = f.size), .recordSize) ::
    (decide (bs[0]? = some Codec.layout), .recordVersion) ::
    f.members.map fun m => (decide (∃ b ∈ bs[m.1]?, b.val ≤ 1), .unknownByte m.2)

def fault? (f : Form) (bs : List Byte) : Option Fault :=
  (f.checks bs).findSome? fun c => if c.1 then none else some c.2

/-- Padding becomes zero, and a flag that is set becomes one. -/
def normal (f : Form) (bs : List Byte) : List Byte :=
  bs.mapIdx fun n b =>
    if f.IsPadding n then 0 else if n ∈ f.flags then (if b = 0 then 0 else .one) else b

/-- The same bytes, up to padding and to the byte that a set flag has. -/
def Alike (f : Form) (bs cs : List Byte) : Prop :=
  ∀ n, ¬ f.IsPadding n →
    if n ∈ f.flags then (bs[n]? = some 0 ↔ cs[n]? = some 0) else bs[n]? = cs[n]?

variable {f : Form} {bs cs : List Byte}

theorem fault?_eq_none : f.fault? bs = none ↔ f.Accepts bs := by
  simp only [fault?, checks, List.findSome?_eq_none_iff, List.forall_mem_cons, List.forall_mem_map,
    ite_eq_left_iff, reduceCtorEq, imp_false, not_not, decide_eq_true_eq]
  constructor
  · rintro ⟨hsize, hversion, hmembers⟩
    exact ⟨hsize, hversion, hmembers⟩
  · intro h
    exact ⟨h.size, h.version, h.members⟩

theorem fault?_of_size_ne (h : bs.length ≠ f.size) : f.fault? bs = some .recordSize := by
  simp [fault?, checks, h]

theorem fault?_of_size_eq (h : bs.length = f.size) :
    f.fault? bs = if bs[0]? = some Codec.layout then
      f.members.findSome? fun m =>
        if ∃ b ∈ bs[m.1]?, b.val ≤ 1 then none else some (.unknownByte m.2)
      else some .recordVersion := by
  simp only [fault?, checks, List.findSome?_cons, List.findSome?_map, Function.comp_def, h,
    decide_true, if_true, decide_eq_true_eq]
  by_cases hversion : bs[0]? = some Codec.layout
  · simp only [hversion, if_true]
  · simp only [hversion, if_false]

theorem normal_eq_iff (h : bs.length = cs.length) : f.normal bs = f.normal cs ↔ f.Alike bs cs := by
  rw [List.ext_getElem?_iff]
  refine forall_congr' fun n => ?_
  simp only [normal, List.getElem?_mapIdx]
  by_cases hn : n < bs.length
  · have hn' : n < cs.length := h ▸ hn
    rw [List.getElem?_eq_getElem hn, List.getElem?_eq_getElem hn']
    simp only [Option.map_some, Option.some.injEq]
    by_cases hpad : f.IsPadding n
    · simp [hpad]
    · by_cases hflag : n ∈ f.flags
      · have hone : Byte.one ≠ 0 := by decide
        by_cases hb : bs[n] = 0 <;> by_cases hc : cs[n] = 0 <;>
          simp [hpad, hflag, hb, hc, hone, hone.symm]
      · simp [hpad, hflag]
  · have hn' : ¬ n < cs.length := h ▸ hn
    rw [List.getElem?_eq_none (Nat.le_of_not_lt hn), List.getElem?_eq_none (Nat.le_of_not_lt hn')]
    simp

def role (f : Form) (n : Nat) : Role :=
  if f.IsPadding n then .padding
  else if n ∈ f.flags then .flag
  else if n = 0 then .version Codec.layout
  else match f.members.lookup n with
    | some e => .member e
    | none => .value

theorem normal_role (n : Nat) (b : Byte) :
    (f.role n).normal b =
      if f.IsPadding n then 0 else if n ∈ f.flags then (if b = 0 then 0 else .one) else b := by
  unfold role
  split
  · rfl
  · split
    · rfl
    · split
      · rfl
      · split <;> rfl

structure Fits (f : Form) {α : Type} {c : Codec α} (lc : c.Law) : Prop where
  roles : lc.roles = (List.range f.size).map f.role
  checked : (lc.roles.zipIdx.filter fun x => x.1.isChecked) =
    (.version Codec.layout, 0) :: f.members.map fun m => (.member m.2, m.1)

structure Governs (f : Form) {α : Type} (read : List Byte → Except Fault α)
    (write : α → List Byte) : Prop where
  accepts : ∀ bs, (∃ x, read bs = .ok x) ↔ f.Accepts bs
  refuses : ∀ bs e, read bs = .error e ↔ f.fault? bs = some e
  rewrites : ∀ bs x, read bs = .ok x → write x = f.normal bs
  rereads : ∀ bs x, read bs = .ok x → read (write x) = .ok x
  alike : ∀ bs cs x y, read bs = .ok x → read cs = .ok y → (x = y ↔ f.Alike bs cs)

namespace Fits

variable {α : Type} {c : Codec α} {lc : c.Law}

theorem size_eq (h : f.Fits lc) : c.size = f.size := by
  rw [← lc.length_roles, h.roles, List.length_map, List.length_range]

theorem getElem?_checked (h : f.Fits lc) (hlen : bs.length = f.size) {x : Role × Nat}
    (hx : x ∈ (.version Codec.layout, 0) :: f.members.map fun m => (.member m.2, m.1)) :
    ∃ b, bs[x.2]? = some b := by
  rw [← h.checked] at hx
  have hlt := List.snd_lt_of_mem_zipIdx (List.mem_filter.1 hx).1
  rw [lc.length_roles, h.size_eq, ← hlen, Nat.add_zero] at hlt
  exact ⟨bs[x.2], List.getElem?_eq_getElem hlt⟩

theorem firstFault? (h : f.Fits lc) (hlen : bs.length = f.size) :
    Role.firstFault? lc.roles bs = f.fault? bs := by
  have hroles : lc.roles.length = bs.length := by rw [lc.length_roles, h.size_eq, hlen]
  have hversion := h.getElem?_checked hlen (List.mem_cons_self ..)
  have hmembers : ∀ m ∈ f.members, (bs[m.1]?.bind (Role.member m.2).fault?) =
      if ∃ b ∈ bs[m.1]?, b.val ≤ 1 then none else some (.unknownByte m.2) := by
    intro m hm
    obtain ⟨b, hb⟩ := h.getElem?_checked hlen (List.mem_cons_of_mem _ (List.mem_map_of_mem hm))
    simp [hb, Role.fault?]
  obtain ⟨b, hb⟩ := hversion
  rw [Role.firstFault?_eq_checked [] hroles, List.length_nil, h.checked, fault?_of_size_eq hlen]
  simp only [List.nil_append, List.findSome?_cons, List.findSome?_map, hb, Option.bind_some,
    Role.fault?, Option.some.injEq]
  by_cases hv : b = Codec.layout
  · simp only [hv, if_true]
    have hmap := congrArg (List.findSome? id) (List.map_congr_left hmembers)
    rwa [List.findSome?_map, List.findSome?_map] at hmap
  · simp only [hv, if_false]

theorem normals (h : f.Fits lc) (hlen : bs.length = f.size) :
    Role.normals lc.roles bs = f.normal bs := by
  rw [h.roles, normal, Role.normals]
  refine List.ext_getElem (by simp [hlen]) fun n _ _ => ?_
  simp [normal_role]

theorem decode_cases (h : f.Fits lc) (bs : List Byte) :
    (∃ e, f.fault? bs = some e ∧ c.decode bs = .error e) ∨
      f.Accepts bs ∧ ∃ x, lc.Declared x ∧ c.decode bs = .ok x ∧ c.write x = f.normal bs := by
  by_cases hlen : bs.length = f.size
  · cases hf : f.fault? bs with
    | some e =>
      rw [← h.firstFault? hlen] at hf
      exact .inl ⟨e, rfl, lc.decode_of_fault (hlen.trans h.size_eq.symm) hf⟩
    | none =>
      rw [← h.firstFault? hlen] at hf
      refine .inr ⟨fault?_eq_none.1 (h.firstFault? hlen ▸ hf), ?_⟩
      rw [← h.normals hlen]
      exact lc.exists_decode (hlen.trans h.size_eq.symm) hf
  · exact .inl ⟨.recordSize, fault?_of_size_ne hlen, if_neg (h.size_eq ▸ hlen)⟩

theorem accepted (h : f.Fits lc) {x : α} (hx : c.decode bs = .ok x) :
    f.Accepts bs ∧ lc.Declared x ∧ c.write x = f.normal bs := by
  rcases h.decode_cases bs with ⟨e, -, he⟩ | ⟨ha, y, hdy, hy, hwy⟩
  · rw [hx] at he
    cases he
  · rw [hx] at hy
    cases hy
    exact ⟨ha, hdy, hwy⟩

theorem governs (h : f.Fits lc) : f.Governs c.decode c.write where
  accepts bs := by
    constructor
    · rintro ⟨x, hx⟩
      exact (h.accepted hx).1
    · intro ha
      rcases h.decode_cases bs with ⟨e, he, -⟩ | ⟨-, x, -, hx, -⟩
      · rw [fault?_eq_none.2 ha] at he
        cases he
      · exact ⟨x, hx⟩
  refuses bs e := by
    rcases h.decode_cases bs with ⟨e', he, hd⟩ | ⟨ha, x, -, hx, -⟩
    · rw [he, hd, Except.error.injEq, Option.some.injEq]
    · rw [fault?_eq_none.2 ha, hx]
      exact ⟨nofun, nofun⟩
  rewrites bs x hx := (h.accepted hx).2.2
  rereads bs x hx := lc.decode_write (h.accepted hx).2.1
  alike bs cs x y hx hy := by
    obtain ⟨hbs, hdx, hwx⟩ := h.accepted hx
    obtain ⟨hcs, hdy, hwy⟩ := h.accepted hy
    rw [← normal_eq_iff (hbs.size.trans hcs.size.symm), ← hwx, ← hwy]
    exact ⟨congrArg c.write, lc.write_inj hdx hdy⟩

end Fits

end Form

end RangePool
