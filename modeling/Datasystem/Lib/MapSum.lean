import Mathlib

/-!
# Sums over a finite map

Writing or erasing one key changes the sum by the weights of the new and the old value, whatever else is in
the map.
-/

namespace Finmap

open Finset

variable {κ β : Type} [DecidableEq κ]

/-- The weight of a key; a key that is not in the map weighs nothing. -/
def weight (f : β → ℕ) (m : Finmap fun _ : κ => β) (k : κ) : ℕ := (m.lookup k).elim 0 f

def sumOver (f : β → ℕ) (m : Finmap fun _ : κ => β) : ℕ := ∑ k ∈ m.keys, weight f m k

variable {f : β → ℕ} {m : Finmap fun _ : κ => β} {k : κ} {b : β}

theorem weight_of_lookup (h : m.lookup k = some b) : weight f m k = f b := by rw [weight,h]; rfl

theorem weight_of_notMem (h : k ∉ m) : weight f m k = 0 := by rw [weight,lookup_eq_none.mpr h]; rfl

@[simp] theorem weight_insert (i : κ) : weight f (m.insert k b) i = if i = k then f b else weight f m i := by
  by_cases hi : i = k
  · subst hi
    simp [weight]
  · simp [weight,hi]

@[simp] theorem weight_erase (i : κ) : weight f (m.erase k) i = if i = k then 0 else weight f m i := by
  by_cases hi : i = k
  · subst hi
    simp [weight]
  · simp [weight,hi,lookup_erase_ne]

@[simp] theorem sumOver_empty : sumOver f (∅ : Finmap fun _ : κ => β) = 0 := by simp [sumOver]

theorem sumOver_eq_of_subset {s : Finset κ} (h : m.keys ⊆ s) : sumOver f m = ∑ k ∈ s, weight f m k := by
  apply sum_subset h
  intro i _ hi
  exact weight_of_notMem (fun hmem => hi (mem_keys.mpr hmem))

variable (m k b)

private theorem sumOver_eq : sumOver f m = weight f m k + ∑ i ∈ m.keys.erase k, weight f m i := by
  rw [sumOver_eq_of_subset (subset_insert k m.keys),← add_sum_erase _ _ (mem_insert_self k m.keys)]
  congr 1
  apply sum_congr _ fun _ _ => rfl
  ext i
  simp

theorem sumOver_insert : sumOver f (m.insert k b) + weight f m k = sumOver f m + f b := by
  have hsame : ∑ i ∈ (m.insert k b).keys.erase k, weight f (m.insert k b) i = ∑ i ∈ m.keys.erase k, weight f m i := by
    apply sum_congr
    · ext i
      simp [mem_keys]
      tauto
    · intro i hi
      simp [(Finset.mem_erase.mp hi).1]
  rw [sumOver_eq (m.insert k b) k,sumOver_eq m k,hsame,weight_insert,if_pos rfl]
  omega

theorem sumOver_erase : sumOver f (m.erase k) + weight f m k = sumOver f m := by
  have hsame : ∑ i ∈ (m.erase k).keys.erase k, weight f (m.erase k) i = ∑ i ∈ m.keys.erase k, weight f m i := by
    apply sum_congr
    · simp
    · intro i hi
      simp [(Finset.mem_erase.mp hi).1]
  rw [sumOver_eq (m.erase k) k,sumOver_eq m k,hsame,weight_erase,if_pos rfl]
  omega

theorem weight_le_sumOver : weight f m k ≤ sumOver f m := by
  rw [sumOver_eq m k]
  exact Nat.le_add_right _ _

end Finmap
