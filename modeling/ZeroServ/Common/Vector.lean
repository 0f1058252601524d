import Mathlib.Data.List.Count

/-!
# The pointer vector

`vector.h` as the elements it holds at the indices `0, ..., size - 1`; an element is a pointer or a number cast to
one, so a natural number, and `NULL` is zero. `vector_insert` does not store `NULL`: the slot it counts in keeps what
it held, which the elements do not determine, so that content is an argument (`slot`).
-/

namespace ZeroServ

/-- `vector_insert`: append the object, or, for `NULL`, count in the next slot as it is. -/
def vectorInsert (v : List Nat) (object slot : Nat) : List Nat :=
  v ++ [if object ≠ 0 then object else slot]

/-- `vector_remove`: drop the first entry equal to the object. -/
def vectorRemove (v : List Nat) (object : Nat) : List Nat := v.erase object

/-- `vector_is_exist` -/
def vectorIsExist (v : List Nat) (object : Nat) : Bool := v.contains object

@[simp] theorem vectorIsExist_iff (v : List Nat) (object : Nat) : vectorIsExist v object = true ↔ object ∈ v := by
  simp [vectorIsExist]

/-- An object that is not `NULL` goes in at the end, whatever the slot held. -/
theorem vectorInsert_of_ne {object : Nat} (h : object ≠ 0) (v : List Nat) (slot : Nat) :
    vectorInsert v object slot = v ++ [object] := by
  simp [vectorInsert, h]

/-- What is in a vector after a removal was in it before. -/
theorem mem_of_mem_vectorRemove {v : List Nat} {object x : Nat} (h : x ∈ vectorRemove v object) : x ∈ v :=
  List.mem_of_mem_erase h

/-- A removal takes one entry equal to the object away, if there is one. -/
theorem count_vectorRemove_self (v : List Nat) (object : Nat) :
    (vectorRemove v object).count object = v.count object - 1 := by
  simp [vectorRemove, List.count_erase_self]

theorem mem_vectorRemove_of_ne {v : List Nat} {object x : Nat} (h : x ≠ object) :
    x ∈ vectorRemove v object ↔ x ∈ v :=
  List.mem_erase_of_ne h

end ZeroServ
