import Std.Data.TreeMap

/-!
# Handles

Blocks, instructions and registers of a function are named by their position in the function's
stores. A handle does not say whether the thing it names still exists.
-/

namespace FlowGraph

set_option autoImplicit false

/-- A basic block. -/
structure BlockId where
  index : Nat
deriving DecidableEq, Repr

/-- An instruction, linked or detached. -/
structure InsnId where
  index : Nat
deriving DecidableEq, Repr

structure RegId where
  index : Nat
deriving DecidableEq, Repr

namespace BlockId

/-- The block where a function starts. -/
def entry : BlockId := ⟨0⟩

/-- The block that a finished function reaches. -/
def exit : BlockId := ⟨1⟩

def text (b : BlockId) : String := "_" ++ Nat.repr b.index

instance : Ord BlockId := ⟨compareOn index⟩

instance : Std.TransOrd BlockId := inferInstanceAs (Std.TransCmp (compareOn index))

instance : Std.LawfulEqOrd BlockId where
  eq_of_compare {a b} h := by
    have h : a.index = b.index := Nat.compare_eq_eq.mp h
    cases a
    cases b
    simp_all

end BlockId

def InsnId.text (i : InsnId) : String := "i" ++ Nat.repr i.index

def RegId.text (r : RegId) : String := "r" ++ Nat.repr r.index

def optionText {α : Type} (text : α → String) : Option α → String
  | some a => "Some(" ++ text a ++ ")"
  | none => "None"

end FlowGraph
