import Mathlib

/-!
# Versioned cells

Emptying a cell lets the version start again, so a version alone does not tell whether a cell has changed.
-/

structure Versioned (ν : Type) where
  value : ν
  version : Nat
  modRevision : Nat
deriving DecidableEq, Repr

abbrev VersionedCell (ν : Type) := Option (Versioned ν)

namespace VersionedCell

variable {ν : Type}

def version (c : VersionedCell ν) : Nat := c.elim 0 Versioned.version

def put (c : VersionedCell ν) (value : ν) (revision : Nat) : VersionedCell ν := some ⟨value,version c + 1,revision⟩

@[simp] theorem version_none : version (none : VersionedCell ν) = 0 := rfl

@[simp] theorem version_some (v : Versioned ν) : version (some v) = v.version := rfl

@[simp] theorem version_put (c : VersionedCell ν) (value : ν) (revision : Nat) :
    version (put c value revision) = version c + 1 :=
  rfl

inductive PutsTo (c : VersionedCell ν) : VersionedCell ν → Prop
  | refl : PutsTo c c
  | put {c' : VersionedCell ν} (h : PutsTo c c') (value : ν) (revision : Nat) :
      PutsTo c (put c' value revision)

namespace PutsTo

variable {c c' c'' : VersionedCell ν}

theorem trans (h : PutsTo c c') (h' : PutsTo c' c'') : PutsTo c c'' := by
  induction h' with
  | refl => exact h
  | put _ value revision ih => exact ih.put value revision

theorem version_le (h : PutsTo c c') : version c ≤ version c' := by
  induction h with
  | refl => exact le_rfl
  | put _ value revision ih =>
    rw [version_put]
    omega

/-- Without removals the version tells whether a cell has changed. -/
theorem eq_of_version_eq (h : PutsTo c c') (hversion : version c' = version c) : c' = c := by
  cases h with
  | refl => rfl
  | put h value revision =>
    have := h.version_le
    rw [version_put] at hversion
    omega

theorem eq_none (h : PutsTo c none) : c = none := by
  generalize hn : (none : VersionedCell ν) = c' at h
  cases h with
  | refl => rfl
  | put => cases hn

end PutsTo

end VersionedCell
