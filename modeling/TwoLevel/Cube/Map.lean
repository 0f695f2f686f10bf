import TwoLevel.Cube

/-!
# Maps from cubes

A `CubeMap` gives numbers to some cubes. It is a tree that branches on one digit after the other,
so that looking a cube up takes as many steps as the cube has digits. Inserting changes the value
of one cube and of no other (`find?_insert`).
-/

namespace TwoLevel

/-- A finite map from cubes to numbers. -/
inductive CubeMap where
  | empty
  /-- The value of the empty cube, and the maps for the cubes that start with each digit. -/
  | node (value : Option Nat) (zero one free : CubeMap)

namespace CubeMap

/-- The value of the empty cube. -/
def value : CubeMap → Option Nat
  | empty => none
  | node v _ _ _ => v

/-- The map for the cubes that start with a digit. -/
def child : CubeMap → Digit → CubeMap
  | empty, _ => empty
  | node _ z _ _, .zero => z
  | node _ _ o _, .one => o
  | node _ _ _ f, .free => f

/-- Gives a value to the empty cube. -/
def setValue (m : CubeMap) (n : Nat) : CubeMap :=
  node (some n) (m.child .zero) (m.child .one) (m.child .free)

/-- Replaces the map for the cubes that start with a digit. -/
def setChild (m : CubeMap) (d : Digit) (sub : CubeMap) : CubeMap :=
  match d with
  | .zero => node m.value sub (m.child .one) (m.child .free)
  | .one => node m.value (m.child .zero) sub (m.child .free)
  | .free => node m.value (m.child .zero) (m.child .one) sub

/-- The number of a cube, if it has one. -/
def find? (m : CubeMap) : Cube → Option Nat
  | [] => m.value
  | d :: c => (m.child d).find? c

/-- Gives a number to a cube. -/
def insert (m : CubeMap) (n : Nat) : Cube → CubeMap
  | [] => m.setValue n
  | d :: c => m.setChild d ((m.child d).insert n c)

@[simp] theorem find?_empty (c : Cube) : empty.find? c = none := by
  induction c with
  | nil => rfl
  | cons d c ih => exact ih

@[simp] theorem value_setValue (m : CubeMap) (n : Nat) : (m.setValue n).value = some n := rfl

@[simp] theorem child_setValue (m : CubeMap) (n : Nat) (d : Digit) :
    (m.setValue n).child d = m.child d := by cases d <;> rfl

@[simp] theorem value_setChild (m : CubeMap) (d : Digit) (sub : CubeMap) :
    (m.setChild d sub).value = m.value := by cases d <;> rfl

@[simp] theorem child_setChild (m : CubeMap) (d e : Digit) (sub : CubeMap) :
    (m.setChild d sub).child e = if d = e then sub else m.child e := by
  cases d <;> cases e <;> rfl

theorem find?_insert (m : CubeMap) (n : Nat) (c b : Cube) :
    (m.insert n c).find? b = if c = b then some n else m.find? b := by
  induction c generalizing m b with
  | nil => cases b <;> simp [insert, find?]
  | cons d c ih =>
    cases b with
    | nil => simp [insert, find?]
    | cons e b =>
      by_cases h : d = e
      · subst h; simp [insert, find?, ih]
      · simp [insert, find?, h]

end CubeMap

end TwoLevel
