import Mathlib.Tactic

set_option autoImplicit false

/-!
# Heap blocks

A heap maps the addresses of its live blocks to their bytes. The allocator decides
every outcome of `malloc` and `realloc`; it never returns an address that is in use.
-/
namespace LeoUTF8.HeapBlocks

abbrev Address := ℕ

abbrev Heap := Address → Option (List UInt8)

/-- `none` is a null pointer; `contents` are the bytes found in memory just allocated. -/
structure Allocator where
  malloc : Heap → ℕ → Option Address
  realloc : Heap → Address → ℕ → Option Address
  contents : ℕ → UInt8
  malloc_fresh : ∀ heap size a, malloc heap size = some a → heap a = none
  realloc_fresh : ∀ heap a size b, realloc heap a size = some b → b = a ∨ heap b = none

def Heap.put (heap : Heap) (a : Address) (block : List UInt8) : Heap :=
  Function.update heap a (some block)

def Heap.free (heap : Heap) (a : Address) : Heap := Function.update heap a none

@[simp] theorem Heap.put_self (heap : Heap) (a : Address) (block : List UInt8) :
    heap.put a block a = some block := Function.update_self ..

theorem Heap.put_of_ne (heap : Heap) {a b : Address} (h : b ≠ a) (block : List UInt8) :
    heap.put a block b = heap b := Function.update_of_ne h _ _

@[simp] theorem Heap.put_put (heap : Heap) (a : Address) (block other : List UInt8) :
    (heap.put a block).put a other = heap.put a other := Function.update_idem ..

theorem Heap.free_put {heap : Heap} {a : Address} (h : heap a = none) (block : List UInt8) :
    (heap.put a block).free a = heap := by
  rw [free, put, Function.update_idem, ← h, Function.update_eq_self]

def Allocator.fresh (alloc : Allocator) (size : ℕ) : List UInt8 :=
  (List.range size).map alloc.contents

theorem Allocator.fresh_length (alloc : Allocator) (size : ℕ) :
    (alloc.fresh size).length = size := by
  simp [fresh]

/-- The block at `a` moved to `b` with a new size. Bytes past its old end are unspecified. -/
def Allocator.resize (alloc : Allocator) (heap : Heap) (a b : Address) (block : List UInt8)
    (size : ℕ) : Heap :=
  (heap.free a).put b (block.take size ++ alloc.fresh (size - block.length))

theorem Allocator.resize_put (alloc : Allocator) {heap : Heap} {a b : Address}
    {block : List UInt8} {size : ℕ} (h : heap a = none) :
    alloc.resize (heap.put a block) a b block size =
      heap.put b (block.take size ++ alloc.fresh (size - block.length)) := by
  rw [resize, Heap.free_put h]

theorem Allocator.resize_shrink (alloc : Allocator) {heap : Heap} {a b : Address}
    {block : List UInt8} {size : ℕ} (hsize : size ≤ block.length) (h : heap a = none) :
    alloc.resize (heap.put a block) a b block size = heap.put b (block.take size) := by
  rw [alloc.resize_put h, Nat.sub_eq_zero_of_le hsize]
  simp [fresh]

/-- The address of a moved block was not live before the block was allocated. -/
theorem Allocator.realloc_put_fresh (alloc : Allocator) {heap : Heap} {a b : Address}
    {block : List UInt8} {size : ℕ} (hfresh : heap a = none)
    (h : alloc.realloc (heap.put a block) a size = some b) : heap b = none := by
  rcases alloc.realloc_fresh _ _ _ _ h with rfl | hb
  · exact hfresh
  · by_cases hba : b = a
    · rw [hba, hfresh]
    · rwa [Heap.put_of_ne heap hba] at hb

/-- An allocator of one block, which it leaves where it is. -/
def Allocator.single : Allocator where
  malloc := fun heap _ => if heap 0 = none then some 0 else none
  realloc := fun _ a _ => some a
  contents := fun _ => 0
  malloc_fresh := by
    intro heap size a h
    split_ifs at h with h0
    obtain rfl := Option.some.inj h
    exact h0
  realloc_fresh := fun _ _ _ _ h => Or.inl (Option.some.inj h).symm

/-- An allocator of `n` blocks, which it leaves where they are. -/
def Allocator.slots (n : ℕ) : Allocator where
  malloc := fun heap _ => (List.range n).find? fun a => heap a = none
  realloc := fun _ a _ => some a
  contents := fun _ => 0
  malloc_fresh := by
    intro heap size a h
    simpa using List.find?_some h
  realloc_fresh := fun _ _ _ _ h => Or.inl (Option.some.inj h).symm

/-- A block that a caller received: live now, not live before, and the only change. -/
def Owned (before after : Heap) (a : Address) (block : List UInt8) : Prop :=
  before a = none ∧ after = before.put a block

theorem Owned.live {before after : Heap} {a : Address} {block : List UInt8}
    (h : Owned before after a block) : after a = some block := by
  rw [h.2, Heap.put_self]

end LeoUTF8.HeapBlocks
