import Mathlib.Algebra.Order.Group.Nat
import Mathlib.Tactic.Ring

/-!
# C structs in memory

The layout that LP64 compilers give a struct: every field at the next multiple of
its alignment, and the size of the whole a multiple of the largest alignment.
Integers stand least significant byte first, and padding is zero.

Two declarations may describe the same memory. Reading a field of one from an
object that was built with the other gives the bytes at that address, and nothing
if the address is outside the object.
-/
namespace StructLayout

universe u
variable {ι : Type u} [DecidableEq ι]

inductive CType where
  | pointer
  | bool
  | int
  | int64
  | uint64
  | double
  | chars (n : Nat)
  deriving DecidableEq

def CType.size : CType → Nat
  | pointer => 8
  | bool => 1
  | int => 4
  | int64 => 8
  | uint64 => 8
  | double => 8
  | chars n => n

def CType.align : CType → Nat
  | chars _ => 1
  | t => t.size

abbrev Decl (ι : Type u) := List (ι × CType)

structure Slot (ι : Type u) where
  field : ι
  type : CType
  offset : Nat

def alignUp (align n : Nat) : Nat := (n + align - 1) / align * align

def slotsFrom : Nat → Decl ι → List (Slot ι)
  | _, [] => []
  | start, (field, type) :: rest =>
    let offset := alignUp type.align start
    ⟨field, type, offset⟩ :: slotsFrom (offset + type.size) rest

def endFrom : Nat → Decl ι → Nat
  | start, [] => start
  | start, (_, type) :: rest => endFrom (alignUp type.align start + type.size) rest

def slots (d : Decl ι) : List (Slot ι) := slotsFrom 0 d

def sizeOf (d : Decl ι) : Nat :=
  alignUp ((d.map fun f => f.2.align).foldl max 1) (endFrom 0 d)

/-- The field that a byte belongs to, and which of its bytes it is. -/
def fieldAt (d : Decl ι) (address : Nat) : Option (ι × Nat) :=
  ((slots d).find? fun s => s.offset ≤ address && address < s.offset + s.type.size).map
    fun s => (s.field, address - s.offset)

/-- The bytes of an object whose fields have these values. -/
def byteAt (d : Decl ι) (value : ι → Nat) (address : Nat) : Nat :=
  match fieldAt d address with
  | some (field, i) => value field / 256 ^ i % 256
  | none => 0

def load (byte : Nat → Nat) (address : Nat) : Nat → Nat
  | 0 => 0
  | width + 1 => byte address + 256 * load byte (address + 1) width

/-- Read a field of the declaration `reader` from an object built with `writer`. -/
def readField (reader writer : Decl ι) (value : ι → Nat) (field : ι) : Option Nat :=
  match (slots reader).find? fun s => s.field = field with
  | none => none
  | some s =>
    if s.offset + s.type.size ≤ sizeOf writer then
      some (load (byteAt writer value) s.offset s.type.size)
    else none

variable {d : Decl ι} {value : ι → Nat} {field : ι}

theorem load_add (byte : Nat → Nat) (address v w : Nat) : load byte address (v + w) =
    load byte address v + 256 ^ v * load byte (address + v) w := by
  induction v generalizing address with
  | zero => simp [load]
  | succ v ih =>
    have shifted : address + 1 + v = address + (v + 1) := by omega
    rw [Nat.succ_add, load, load, ih, shifted, pow_succ]
    ring

omit [DecidableEq ι] in
theorem load_field_from {address j w : Nat}
    (inside : ∀ i < w, fieldAt d (address + i) = some (field, j + i)) :
    load (byteAt d value) address w = value field / 256 ^ j % 256 ^ w := by
  induction w generalizing address j with
  | zero => simp [load, Nat.mod_one]
  | succ w ih =>
    have first := inside 0 (Nat.succ_pos w)
    simp only [Nat.add_zero] at first
    have later : ∀ i < w, fieldAt d (address + 1 + i) = some (field, j + 1 + i) := by
      intro i hi
      have next := inside (i + 1) (by omega)
      rwa [show address + (i + 1) = address + 1 + i by omega,
        show j + (i + 1) = j + 1 + i by omega] at next
    rw [load, byteAt, first, ih later, pow_succ' 256 w, Nat.mod_mul, Nat.div_div_eq_div_mul, ← pow_succ]

omit [DecidableEq ι] in
theorem load_field {address w : Nat}
    (inside : ∀ i < w, fieldAt d (address + i) = some (field, i)) :
    load (byteAt d value) address w = value field % 256 ^ w := by
  have whole : load (byteAt d value) address w = value field / 256 ^ 0 % 256 ^ w :=
    load_field_from (by simpa using inside)
  rwa [pow_zero, Nat.div_one] at whole

omit [DecidableEq ι] in
theorem load_padding {address w : Nat} (between : ∀ i < w, fieldAt d (address + i) = none) :
    load (byteAt d value) address w = 0 := by
  induction w generalizing address with
  | zero => rfl
  | succ w ih =>
    have first := between 0 (Nat.succ_pos w)
    have later : ∀ i < w, fieldAt d (address + 1 + i) = none := by
      intro i hi
      have next := between (i + 1) (by omega)
      rwa [show address + (i + 1) = address + 1 + i by omega] at next
    simp only [Nat.add_zero] at first
    rw [load, byteAt, first, ih later]

end StructLayout
