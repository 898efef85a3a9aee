import Mathlib.Tactic

/-!
# A store of shared cells

Cells are allocated in order and never freed. An identifier below `next` names a
cell which some earlier allocation has produced.
-/

structure Heap (α : Type*) where
  get : ℕ → α
  next : ℕ

namespace Heap

variable {α : Type*}

def empty [Inhabited α] : Heap α := ⟨fun _ => default, 0⟩

def alloc (h : Heap α) (a : α) : Heap α := ⟨Function.update h.get h.next a, h.next + 1⟩

def modify (h : Heap α) (i : ℕ) (f : α → α) : Heap α :=
  ⟨Function.update h.get i (f (h.get i)), h.next⟩

@[simp] theorem modify_next (h : Heap α) (i : ℕ) (f : α → α) : (h.modify i f).next = h.next := rfl

@[simp] theorem alloc_get_next (h : Heap α) (a : α) : (h.alloc a).get h.next = a := by
  simp [alloc]

theorem alloc_get_of_ne (h : Heap α) (a : α) {i : ℕ} (hi : i ≠ h.next) :
    (h.alloc a).get i = h.get i := by
  simp [alloc, Function.update_of_ne hi]

theorem alloc_get_of_lt (h : Heap α) (a : α) {i : ℕ} (hi : i < h.next) :
    (h.alloc a).get i = h.get i :=
  h.alloc_get_of_ne a hi.ne

theorem modify_get (h : Heap α) (i j : ℕ) (f : α → α) :
    (h.modify i f).get j = if j = i then f (h.get j) else h.get j := by
  by_cases hj : j = i
  · subst hj
    simp [modify]
  · simp [modify, hj]

@[simp] theorem modify_get_self (h : Heap α) (i : ℕ) (f : α → α) :
    (h.modify i f).get i = f (h.get i) := by
  simp [modify_get]

theorem modify_get_of_ne (h : Heap α) {i j : ℕ} (hj : j ≠ i) (f : α → α) :
    (h.modify i f).get j = h.get j := by
  simp [modify_get, hj]

theorem modify_modify (h : Heap α) (i : ℕ) (f g : α → α) :
    (h.modify i f).modify i g = h.modify i (g ∘ f) := by
  simp [modify]

theorem alloc_modify (h : Heap α) (a : α) (f : α → α) :
    (h.alloc a).modify h.next f = h.alloc (f a) := by
  simp [alloc, modify]

end Heap
