import Mathlib

/-!
# Ordered maps as key-sorted lists

An ordered map is a list of records that is strictly sorted by a key of the record.
-/

namespace Keyed

open List

variable {κ ν : Type*} [LinearOrder κ] (key : ν → κ)

def Sorted (l : List ν) : Prop := l.Pairwise fun a b => key a < key b

def lookup (k : κ) (l : List ν) : Option ν := l.find? fun e => key e = k

def upsert (e : ν) : List ν → List ν
  | [] => [e]
  | a :: l =>
    if key e < key a then e :: a :: l
    else if key e = key a then e :: l
    else a :: upsert e l

def remove (k : κ) (l : List ν) : List ν := l.filter fun e => key e ≠ k

def modify (k : κ) (f : ν → ν) (l : List ν) : List ν := l.map fun e => if key e = k then f e else e

/-- The records between a lower bound and an exclusive end, walked from the lower bound. -/
def slice (lo hi : κ) (l : List ν) : List ν := (l.dropWhile fun e => key e < lo).takeWhile fun e => key e < hi

@[simp] theorem lookup_nil (k : κ) : lookup key k [] = none := rfl

theorem lookup_cons (k : κ) (a : ν) (l : List ν) :
    lookup key k (a :: l) = if key a = k then some a else lookup key k l := by
  unfold lookup
  rw [find?_cons]
  by_cases h : key a = k <;> simp [h]

variable {l : List ν} {e : ν}

theorem lookup_key {k : κ} (h : lookup key k l = some e) : key e = k := by
  simpa using find?_some h

theorem mem_of_lookup {k : κ} (h : lookup key k l = some e) : e ∈ l := mem_of_find?_eq_some h

/-- A record is found by its key when no other record has that key. -/
theorem find?_of_nodup {α β : Type*} [DecidableEq β] {f : α → β} {l : List α} (hnodup : (l.map f).Nodup) {x : α}
    (hx : x ∈ l) : l.find? (fun y => f y = f x) = some x := by
  cases hfind : l.find? (fun y => f y = f x) with
  | none => simpa using find?_eq_none.mp hfind x hx
  | some y =>
    have hy : f y = f x := by simpa using find?_some hfind
    rw [inj_on_of_nodup_map hnodup (mem_of_find?_eq_some hfind) hx hy]

variable {key}

theorem Sorted.tail {a : ν} (h : Sorted key (a :: l)) : Sorted key l := (pairwise_cons.mp h).2

theorem Sorted.head_lt {a b : ν} (h : Sorted key (a :: l)) (hb : b ∈ l) : key a < key b := (pairwise_cons.mp h).1 b hb

theorem Sorted.filter (h : Sorted key l) (p : ν → Bool) : Sorted key (l.filter p) := List.Pairwise.filter p h

theorem Sorted.lookup_of_mem (h : Sorted key l) (he : e ∈ l) : lookup key (key e) l = some e :=
  find?_of_nodup (pairwise_map.mpr (h.imp ne_of_lt)) he

theorem Sorted.lookup_eq_some (h : Sorted key l) {k : κ} : lookup key k l = some e ↔ e ∈ l ∧ key e = k := by
  constructor
  · intro hl
    exact ⟨mem_of_lookup key hl,lookup_key key hl⟩
  · rintro ⟨hmem,rfl⟩
    exact h.lookup_of_mem hmem

theorem lookup_eq_none {k : κ} : lookup key k l = none ↔ ∀ e ∈ l, key e ≠ k := by
  simp [lookup,find?_eq_none]

theorem mem_upsert {e b : ν} (h : b ∈ upsert key e l) : b = e ∨ b ∈ l := by
  induction l with
  | nil => simpa [upsert] using h
  | cons a l ih =>
    unfold upsert at h
    split_ifs at h
    · simpa using h
    · rcases mem_cons.mp h with rfl | hb
      · exact Or.inl rfl
      · exact Or.inr (mem_cons_of_mem _ hb)
    · rcases mem_cons.mp h with rfl | hb
      · exact Or.inr mem_cons_self
      · exact (ih hb).imp_right (mem_cons_of_mem _)

theorem Sorted.upsert (h : Sorted key l) (e : ν) : Sorted key (upsert key e l) := by
  induction l with
  | nil => simp [Keyed.upsert,Sorted]
  | cons a l ih =>
    unfold Keyed.upsert
    split_ifs with hlt heq
    · refine pairwise_cons.mpr ⟨?_,h⟩
      intro b hb
      rcases mem_cons.mp hb with rfl | hb
      · exact hlt
      · exact hlt.trans (h.head_lt hb)
    · refine pairwise_cons.mpr ⟨?_,h.tail⟩
      intro b hb
      rw [heq]
      exact h.head_lt hb
    · refine pairwise_cons.mpr ⟨?_,ih h.tail⟩
      intro b hb
      rcases mem_upsert hb with rfl | hb
      · exact lt_of_le_of_ne (not_lt.mp hlt) (Ne.symm heq)
      · exact h.head_lt hb

theorem upsert_eq_append (h : ∀ a ∈ l, key a < key e) : upsert key e l = l ++ [e] := by
  induction l with
  | nil => rfl
  | cons a l ih =>
    have ha := h a mem_cons_self
    rw [Keyed.upsert,if_neg (lt_asymm ha),if_neg (ne_of_gt ha),ih fun b hb => h b (mem_cons_of_mem _ hb),cons_append]

theorem lookup_upsert (e : ν) (l : List ν) (k : κ) :
    lookup key k (upsert key e l) = if k = key e then some e else lookup key k l := by
  induction l with
  | nil => simp [upsert,lookup,eq_comm]
  | cons a l ih =>
    unfold upsert
    by_cases hk : k = key e
    · subst hk
      rw [if_pos rfl]
      split_ifs with hlt heq
      · simp [lookup_cons]
      · simp [lookup_cons]
      · rw [lookup_cons,if_neg (Ne.symm heq),ih,if_pos rfl]
    · rw [if_neg hk]
      split_ifs with hlt heq
      · rw [lookup_cons,if_neg (Ne.symm hk)]
      · rw [lookup_cons,lookup_cons,if_neg (Ne.symm hk),if_neg (heq ▸ Ne.symm hk)]
      · rw [lookup_cons,lookup_cons,ih,if_neg hk]

theorem Sorted.mem_upsert_iff (h : Sorted key l) {e b : ν} :
    b ∈ Keyed.upsert key e l ↔ b = e ∨ b ∈ l ∧ key b ≠ key e := by
  have hmem : ∀ {l : List ν}, Sorted key l → (b ∈ l ↔ lookup key (key b) l = some b) := by
    intro l hl
    rw [hl.lookup_eq_some,and_iff_left rfl]
  rw [hmem (h.upsert e),hmem h,lookup_upsert]
  split_ifs with hk
  · simp [hk,eq_comm]
  · have hne : b ≠ e := fun heq => hk (congrArg key heq)
    simp [hk,hne]

theorem Sorted.remove (h : Sorted key l) (k : κ) : Sorted key (remove key k l) := h.filter _

theorem lookup_filter (p : κ → Bool) (k : κ) :
    lookup key k (l.filter fun e => p (key e)) = if p k then lookup key k l else none := by
  induction l with
  | nil => simp [lookup]
  | cons a l ih =>
    rw [filter_cons]
    by_cases ha : key a = k
    · subst ha
      cases hp : p (key a) <;> simp [hp,lookup_cons,ih]
    · cases hp : p (key a) <;> simp [lookup_cons,ih,ha]

theorem lookup_remove (l : List ν) (k j : κ) :
    lookup key j (remove key k l) = if j = k then none else lookup key j l := by
  have h : lookup key j (l.filter fun e => decide (key e ≠ k)) =
      if decide (j ≠ k) then lookup key j l else none := lookup_filter (fun x => decide (x ≠ k)) j
  rw [remove,h]
  by_cases hj : j = k <;> simp [hj]

theorem lookup_map {f : ν → ν} (hf : ∀ e, key (f e) = key e) (l : List ν) (k : κ) :
    lookup key k (l.map f) = (lookup key k l).map f := by
  induction l with
  | nil => rfl
  | cons a l ih =>
    rw [map_cons,lookup_cons,lookup_cons,hf,ih]
    split_ifs <;> rfl

theorem lookup_modify {f : ν → ν} (hf : ∀ e, key (f e) = key e) (l : List ν) (k j : κ) :
    lookup key j (modify key k f l) = if j = k then (lookup key j l).map f else lookup key j l := by
  have hkey : ∀ e, key (if key e = k then f e else e) = key e := by
    intro e
    split_ifs
    · exact hf e
    · rfl
  rw [modify,lookup_map hkey]
  cases hl : lookup key j l with
  | none => split_ifs <;> rfl
  | some e =>
    have he := lookup_key key hl
    simp only [Option.map_some,he]
    split_ifs <;> rfl

/-- A sorted list is determined by its lookups. -/
theorem Sorted.ext {l₁ l₂ : List ν} (h₁ : Sorted key l₁) (h₂ : Sorted key l₂)
    (h : ∀ k, lookup key k l₁ = lookup key k l₂) : l₁ = l₂ := by
  have hnodup : ∀ {l : List ν}, Sorted key l → l.Nodup := by
    intro l hl
    exact hl.imp fun hab => fun he => absurd (congrArg key he) (ne_of_lt hab)
  have hmem : ∀ e, e ∈ l₁ ↔ e ∈ l₂ := by
    intro e
    have he := h (key e)
    constructor
    · intro hm
      rw [h₁.lookup_of_mem hm] at he
      exact mem_of_lookup key he.symm
    · intro hm
      rw [h₂.lookup_of_mem hm] at he
      exact mem_of_lookup key he
  have hperm : l₁.Perm l₂ := (perm_ext_iff_of_nodup (hnodup h₁) (hnodup h₂)).mpr hmem
  refine hperm.eq_of_pairwise ?_ h₁ h₂
  intro a b _ _ hab hba
  exact absurd hab (lt_asymm hba)

theorem Sorted.takeWhile_eq (h : Sorted key l) (hi : κ) :
    l.takeWhile (fun e => key e < hi) = l.filter fun e => decide (key e < hi) := by
  induction l with
  | nil => rfl
  | cons a l ih =>
    rw [takeWhile_cons,filter_cons]
    by_cases ha : key a < hi
    · simp [ha,ih h.tail]
    · have hnone : l.filter (fun e => decide (key e < hi)) = [] := by
        rw [filter_eq_nil_iff]
        intro b hb
        simpa using (not_lt.mp ha).trans (h.head_lt hb).le
      simp only [ha,decide_false,Bool.false_eq_true,if_false,hnone]

theorem Sorted.dropWhile_eq (h : Sorted key l) (lo : κ) :
    l.dropWhile (fun e => key e < lo) = l.filter fun e => decide (lo ≤ key e) := by
  induction l with
  | nil => rfl
  | cons a l ih =>
    rw [dropWhile_cons,filter_cons]
    by_cases ha : key a < lo
    · simp [ha,ih h.tail]
    · have hall : l.filter (fun e => decide (lo ≤ key e)) = l := by
        rw [filter_eq_self]
        intro b hb
        simpa using (not_lt.mp ha).trans (h.head_lt hb).le
      simp [ha,not_lt.mp ha,hall]

/-- Walking a sorted list from the lower bound to the end visits exactly the keys in between. -/
theorem Sorted.slice_eq (h : Sorted key l) (lo hi : κ) :
    slice key lo hi l = l.filter fun e => decide (lo ≤ key e ∧ key e < hi) := by
  rw [slice,h.dropWhile_eq,(h.filter _).takeWhile_eq,filter_filter]
  apply filter_congr
  intro e _
  rw [Bool.decide_and,Bool.and_comm]

end Keyed
