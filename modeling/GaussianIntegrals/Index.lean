/-
  Positions in a list counted from its start by 0, 1, … and from its end by -1, -2, ….
-/
namespace GaussianIntegrals

/-- The position in a list of `size` entries that an index denotes. -/
def position? (size : Nat) (i : Int) : Option Nat :=
  if 0 ≤ i then if i.toNat < size then some i.toNat else none
  else if i.natAbs ≤ size then some (size - i.natAbs)
  else none

/-- The entry at an index. -/
def pick? {α : Type} (xs : List α) (i : Int) : Option α :=
  (position? xs.length i).bind fun k => xs[k]?

theorem position?_of_nonneg {size : Nat} {i : Int} (h₀ : 0 ≤ i) (h₁ : i.toNat < size) :
    position? size i = some i.toNat := by
  simp [position?, h₀, h₁]

theorem position?_of_le {size : Nat} {i : Int} (h₀ : 0 ≤ i) (h₁ : size ≤ i.toNat) :
    position? size i = none := by
  rw [position?, if_pos h₀, if_neg (Nat.not_lt.2 h₁)]

end GaussianIntegrals
