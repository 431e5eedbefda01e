import Mathlib

/-!
# Writes to a map

The effect of a list of writes is settled key by key: the last write to a key decides, and dropping writes to
other keys changes nothing.
-/

namespace MapWrites

variable {κ ν : Type*} [DecidableEq κ] (m : κ → Option ν)

def write (w : κ × Option ν) : κ → Option ν := Function.update m w.1 w.2

def writeAll (ws : List (κ × Option ν)) : κ → Option ν := ws.foldl write m

@[simp] theorem writeAll_nil : writeAll m [] = m := rfl

@[simp] theorem writeAll_concat (ws : List (κ × Option ν)) (w : κ × Option ν) :
    writeAll m (ws ++ [w]) = write (writeAll m ws) w := by
  simp [writeAll]

theorem write_apply (w : κ × Option ν) (k : κ) : write m w k = if k = w.1 then w.2 else m k := by
  simp [write,Function.update_apply]

theorem writeAll_filter_apply {α : Type*} {p : α → Bool} {f : α → κ × Option ν} {l : List α} {k : κ}
    (h : ∀ x ∈ l, p x = false → (f x).1 ≠ k) {m m' : κ → Option ν} (hm : m k = m' k) :
    writeAll m ((l.filter p).map f) k = writeAll m' (l.map f) k := by
  induction l generalizing m m' with
  | nil => exact hm
  | cons x l ih =>
    have hrest : ∀ y ∈ l, p y = false → (f y).1 ≠ k := fun y hy => h y (List.mem_cons_of_mem _ hy)
    rw [List.filter_cons]
    cases hp : p x with
    | true =>
      apply ih hrest
      simp [write_apply,hm]
    | false =>
      apply ih hrest
      rw [write_apply,if_neg (Ne.symm (h x List.mem_cons_self hp))]
      exact hm

end MapWrites
