/-!
# Arenas

A store that hands out its places in order and never hands one out twice. A place that has been
emptied stays empty, so an old handle can be told from a live one.
-/

namespace FlowGraph

set_option autoImplicit false

structure Arena (α : Type) where
  slots : Array (Option α) := #[]

namespace Arena

variable {α : Type}

/-- The number of places ever handed out, which is also the next place. -/
def size (a : Arena α) : Nat := a.slots.size

def get? (a : Arena α) (i : Nat) : Option α := (a.slots[i]?).join

def push (a : Arena α) (x : α) : Arena α := ⟨a.slots.push (some x)⟩

def set (a : Arena α) (i : Nat) (x : α) : Arena α := ⟨a.slots.setIfInBounds i (some x)⟩

def erase (a : Arena α) (i : Nat) : Arena α := ⟨a.slots.setIfInBounds i none⟩

def map (a : Arena α) (g : α → α) : Arena α := ⟨a.slots.map (Option.map g)⟩

/-- The stored values with their places, oldest first. -/
def toList (a : Arena α) : List (Nat × α) :=
  a.slots.toList.zipIdx.filterMap fun p => p.1.map (p.2, ·)

theorem get?_push (a : Arena α) (x : α) (i : Nat) :
    (a.push x).get? i = if i = a.size then some x else a.get? i := by
  simp only [get?, push, size, Array.getElem?_push]
  grind

theorem get?_set (a : Arena α) (x : α) (i j : Nat) :
    (a.set i x).get? j = if i = j ∧ i < a.size then some x else a.get? j := by
  simp only [get?, set, size, Array.getElem?_setIfInBounds]
  grind

theorem get?_erase (a : Arena α) (i j : Nat) :
    (a.erase i).get? j = if i = j then none else a.get? j := by
  simp only [get?, erase, Array.getElem?_setIfInBounds]
  grind

theorem get?_map (a : Arena α) (g : α → α) (i : Nat) :
    (a.map g).get? i = (a.get? i).map g := by
  simp only [get?, map, Array.getElem?_map]
  cases a.slots[i]? <;> rfl

theorem lt_size_of_get? {a : Arena α} {i : Nat} {x : α} (h : a.get? i = some x) :
    i < a.size := by
  simp only [get?, size] at *
  grind

@[simp] theorem size_push (a : Arena α) (x : α) : (a.push x).size = a.size + 1 := by
  simp [push, size]

@[simp] theorem size_set (a : Arena α) (i : Nat) (x : α) : (a.set i x).size = a.size := by
  simp [set, size]

@[simp] theorem size_erase (a : Arena α) (i : Nat) : (a.erase i).size = a.size := by
  simp [erase, size]

@[simp] theorem size_map (a : Arena α) (g : α → α) : (a.map g).size = a.size := by
  simp [map, size]

end Arena

end FlowGraph
