import Mathlib

/-!
# Ring buffers

A buffer of fixed capacity that overwrites its oldest element when it is full.
-/

structure RingBuffer (n : Nat) (α : Type*) where
  entries : Fin n → α
  /-- The place of the next element. -/
  head : Fin n
  count : Nat
  count_le : count ≤ n
deriving DecidableEq

namespace RingBuffer

open List

variable {n : Nat} [NeZero n] {α : Type*}

/-- The buffer before anything was added; its places hold a value that is never read. -/
def empty (a : α) : RingBuffer n α := ⟨fun _ => a,0,0,n.zero_le⟩

variable (b : RingBuffer n α)

def add (a : α) : RingBuffer n α where
  entries := Function.update b.entries b.head a
  head := ⟨(b.head + 1) % n,Nat.mod_lt _ (NeZero.pos n)⟩
  count := if b.count < n then b.count + 1 else b.count
  count_le := by
    split_ifs
    · omega
    · exact b.count_le

def place (i : Nat) : Fin n := ⟨((b.head + n - b.count) % n + i) % n,Nat.mod_lt _ (NeZero.pos n)⟩

def toList : List α := (List.range b.count).map fun i => b.entries (b.place i)

@[simp] theorem toList_empty (a : α) : (empty a : RingBuffer n α).toList = [] := rfl

@[simp] theorem length_toList : b.toList.length = b.count := by
  simp [toList]

private theorem mod_of_lt_double {x m : Nat} (h : x < 2 * m) : x % m = if x < m then x else x - m := by
  split_ifs with hx
  · exact Nat.mod_eq_of_lt hx
  · rw [Nat.mod_eq_sub_mod (by omega),Nat.mod_eq_of_lt (by omega)]

theorem place_val {i : Nat} (hi : i ≤ b.count) : (b.place i : Nat) =
      if b.count ≤ b.head + i then b.head + i - b.count else b.head + i + n - b.count := by
  have hhead := b.head.isLt
  have hcount := b.count_le
  have hfirst : (b.head + n - b.count) % n =
      if b.head + n - b.count < n then b.head + n - b.count else b.head + n - b.count - n :=
    mod_of_lt_double (by omega)
  rw [place]
  dsimp only
  rw [hfirst,mod_of_lt_double (by split_ifs <;> omega)]
  split_ifs <;> omega

theorem head_add (a : α) : ((b.add a).head : Nat) = if (b.head : Nat) + 1 < n then (b.head : Nat) + 1 else 0 := by
  have hhead := b.head.isLt
  have h : ((b.head : Nat) + 1) % n = if (b.head : Nat) + 1 < n then (b.head : Nat) + 1 else b.head + 1 - n :=
    mod_of_lt_double (by omega)
  rw [add]
  dsimp only
  rw [h]
  split_ifs <;> omega

theorem place_count : b.place b.count = b.head := by
  ext
  rw [place_val b le_rfl]
  split_ifs <;> omega

theorem place_ne_head {i : Nat} (hi : i < b.count) (hfull : b.count = n → 0 < i) : b.place i ≠ b.head := by
  have hhead := b.head.isLt
  have hcount := b.count_le
  intro heq
  have hval := congrArg Fin.val heq
  rw [place_val b hi.le] at hval
  split_ifs at hval <;> omega

variable {b}

theorem toList_add_of_lt (h : b.count < n) (a : α) : (b.add a).toList = b.toList ++ [a] := by
  have hhead := b.head.isLt
  have hcount : (b.add a).count = b.count + 1 := by simp [add,h]
  have hplace : ∀ i ≤ b.count, (b.add a).place i = b.place i := by
    intro i hi
    ext
    rw [place_val _ (by omega),place_val _ hi,hcount,head_add]
    split_ifs <;> omega
  rw [toList,hcount,range_succ,map_append,map_singleton,toList,hplace _ le_rfl,place_count]
  congr 1
  · apply map_congr_left
    intro i hi
    have hi := mem_range.mp hi
    rw [hplace i hi.le]
    exact Function.update_of_ne (b.place_ne_head hi (by omega)) _ _
  · simp [add]

theorem toList_add_of_full (h : b.count = n) (a : α) : (b.add a).toList = b.toList.tail ++ [a] := by
  have hhead := b.head.isLt
  have hcount : (b.add a).count = n := by simp [add,h]
  have hplace : ∀ i < n, (b.add a).place i = b.place (i + 1) := by
    intro i hi
    ext
    rw [place_val _ (by omega),place_val _ (by omega),hcount,head_add,h]
    split_ifs <;> omega
  obtain ⟨m,rfl⟩ : ∃ m, n = m + 1 := ⟨n - 1,by omega⟩
  have hlast : b.place (m + 1) = b.head := (congrArg b.place h.symm).trans b.place_count
  have htail : b.toList.tail = (List.range m).map fun i => b.entries (b.place (i + 1)) := by
    rw [toList,h,range_succ_eq_map,map_cons,tail_cons,map_map]
    rfl
  rw [toList,hcount,range_succ,map_append,map_singleton,htail,hplace m (by omega),hlast]
  congr 1
  · apply map_congr_left
    intro i hi
    have hi := mem_range.mp hi
    rw [hplace i (by omega)]
    exact Function.update_of_ne (b.place_ne_head (by omega) (by omega)) _ _
  · simp [add]

theorem map_toList_add {β : Type*} {f : α → β} {l : List β} (h : b.toList.map f = l.rtake n) (a : α) :
    (b.add a).toList.map f = (l ++ [f a]).rtake n := by
  have hcount := b.count_le
  have hlength : b.count = min l.length n := by
    rw [← b.length_toList,← length_map f,h,List.rtake,length_drop]
    omega
  unfold List.rtake at h ⊢
  rw [length_append,length_singleton]
  by_cases hlt : b.count < n
  · rw [toList_add_of_lt hlt,map_append,h]
    simp [show l.length - n = 0 by omega,show l.length + 1 - n = 0 by omega]
  · have hpos := NeZero.pos n
    have hdrop : (l ++ [f a]).drop (l.length + 1 - n) = l.drop (l.length + 1 - n) ++ [f a] :=
      drop_append_of_le_length (by omega)
    rw [toList_add_of_full (by omega),map_append,map_tail,h,tail_drop,hdrop]
    congr 2
    omega

/-- A buffer that holds the last elements of a list goes on doing so. -/
theorem toList_add {l : List α} (h : b.toList = l.rtake n) (a : α) : (b.add a).toList = (l ++ [a]).rtake n := by
  have hmap : b.toList.map id = l.rtake n := by rwa [map_id]
  simpa using map_toList_add hmap a

end RingBuffer
