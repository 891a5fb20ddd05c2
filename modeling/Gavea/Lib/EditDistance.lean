import Mathlib.Data.List.Basic
import Mathlib.Tactic

namespace Gavea.Lib.EditDistance

variable {α : Type*} [DecidableEq α] (a b : List α)

/-- The recurrence over the prefixes of two words: a letter is deleted, inserted or substituted. -/
def distanceAt : Nat → Nat → Nat
  | 0, j => j
  | i + 1, 0 => i + 1
  | i + 1, j + 1 => min (distanceAt i (j + 1) + 1) (min (distanceAt (i + 1) j + 1)
      (distanceAt i j + if a[i]? = b[j]? then 0 else 1))

def editDistance : Nat := distanceAt a b a.length b.length

@[simp] theorem distanceAt_zero (j : Nat) : distanceAt a b 0 j = j := by rw [distanceAt]

@[simp] theorem distanceAt_zero_right (i : Nat) : distanceAt a b i 0 = i := by
  cases i <;> rw [distanceAt]

theorem distanceAt_succ (i j : Nat) : distanceAt a b (i + 1) (j + 1) =
    min (distanceAt a b i (j + 1) + 1) (min (distanceAt a b (i + 1) j + 1)
      (distanceAt a b i j + if a[i]? = b[j]? then 0 else 1)) := by
  rw [distanceAt]

theorem distanceAt_comm (i j : Nat) : distanceAt a b i j = distanceAt b a j i := by
  induction i generalizing j with
  | zero => rw [distanceAt_zero, distanceAt_zero_right]
  | succ i ih =>
    induction j with
    | zero => rw [distanceAt_zero, distanceAt_zero_right]
    | succ j ihj =>
      rw [distanceAt_succ, distanceAt_succ, ih, ih, ihj, min_left_comm]
      simp only [eq_comm]

theorem editDistance_comm : editDistance a b = editDistance b a := distanceAt_comm a b _ _

theorem distanceAt_succ_left_le (i j : Nat) : distanceAt a b (i + 1) j ≤ distanceAt a b i j + 1 := by
  cases j with
  | zero => rw [distanceAt_zero_right, distanceAt_zero_right]
  | succ j =>
    rw [distanceAt_succ]
    exact min_le_left _ _

theorem distanceAt_succ_right_le (i j : Nat) : distanceAt a b i (j + 1) ≤ distanceAt a b i j + 1 := by
  rw [distanceAt_comm, distanceAt_comm a b i j]
  exact distanceAt_succ_left_le b a j i

theorem le_distanceAt_succ_left (i j : Nat) : distanceAt a b i j ≤ distanceAt a b (i + 1) j + 1 := by
  induction j with
  | zero =>
    rw [distanceAt_zero_right, distanceAt_zero_right]
    omega
  | succ j ih =>
    have hright := distanceAt_succ_right_le a b i j
    rw [distanceAt_succ]
    omega

theorem le_distanceAt_succ_right (i j : Nat) : distanceAt a b i j ≤ distanceAt a b i (j + 1) + 1 := by
  rw [distanceAt_comm, distanceAt_comm a b i (j + 1)]
  exact le_distanceAt_succ_left b a j i

def vertical (i j : Nat) : Int := (distanceAt a b (i + 1) j : Int) - distanceAt a b i j

def horizontal (i j : Nat) : Int := (distanceAt a b i (j + 1) : Int) - distanceAt a b i j

theorem vertical_zero_right (i : Nat) : vertical a b i 0 = 1 := by
  rw [vertical, distanceAt_zero_right, distanceAt_zero_right]
  omega

theorem horizontal_zero (j : Nat) : horizontal a b 0 j = 1 := by
  rw [horizontal, distanceAt_zero, distanceAt_zero]
  omega

/-- The step along the diagonal costs nothing. -/
def Free (i j : Nat) : Prop := a[i]? = b[j]? ∨ vertical a b i j = -1 ∨ horizontal a b i j = -1

instance (i j : Nat) : Decidable (Free a b i j) := inferInstanceAs (Decidable (_ ∨ _ ∨ _))

theorem distanceAt_diagonal (i j : Nat) : (distanceAt a b (i + 1) (j + 1) : Int) =
    distanceAt a b i j + if Free a b i j then 0 else 1 := by
  have h1 := distanceAt_succ_left_le a b i j
  have h2 := le_distanceAt_succ_left a b i j
  have h3 := distanceAt_succ_right_le a b i j
  have h4 := le_distanceAt_succ_right a b i j
  rw [distanceAt_succ]
  by_cases heq : a[i]? = b[j]?
  · have hfree : Free a b i j := .inl heq
    rw [if_pos heq, if_pos hfree]
    omega
  · have hfree : Free a b i j ↔ vertical a b i j = -1 ∨ horizontal a b i j = -1 := by
      rw [Free, or_iff_right heq]
    simp only [if_neg heq, hfree, vertical, horizontal]
    split_ifs <;> omega

theorem cell_steps (i j : Nat) :
    (horizontal a b (i + 1) j = 1 ↔ vertical a b i j = -1 ∨ ¬(Free a b i j ∨ vertical a b i j = 1)) ∧
    (horizontal a b (i + 1) j = -1 ↔ vertical a b i j = 1 ∧ Free a b i j) ∧
    (vertical a b i (j + 1) = 1 ↔ horizontal a b i j = -1 ∨ ¬(Free a b i j ∨ horizontal a b i j = 1)) ∧
    (vertical a b i (j + 1) = -1 ↔ horizontal a b i j = 1 ∧ Free a b i j) := by
  have h1 := distanceAt_succ_left_le a b i j
  have h2 := le_distanceAt_succ_left a b i j
  have h3 := distanceAt_succ_right_le a b i j
  have h4 := le_distanceAt_succ_right a b i j
  have hdiagonal := distanceAt_diagonal a b i j
  have hfree (h : vertical a b i j = -1 ∨ horizontal a b i j = -1) : Free a b i j := .inr h
  simp only [vertical, horizontal] at hfree ⊢
  by_cases hf : Free a b i j
  · rw [if_pos hf] at hdiagonal
    simp only [hf, true_or, not_true_eq_false, or_false, and_true]
    omega
  · rw [if_neg hf] at hdiagonal
    have hno : ¬((distanceAt a b (i + 1) j : Int) - distanceAt a b i j = -1 ∨
        (distanceAt a b i (j + 1) : Int) - distanceAt a b i j = -1) := fun h => hf (hfree h)
    simp only [hf, false_or, and_false, iff_false]
    omega

end Gavea.Lib.EditDistance
