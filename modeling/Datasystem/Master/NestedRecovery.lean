import Datasystem.Lib.Machine
import Datasystem.Master.NestedManager

/-!
# Recovery of the nested objects

What is nested in an object is stored under the text of both keys, and the count of a nested object as a number.
-/

namespace Datasystem.Master

open ObjectCache List ObjectRefInfo Finmap Status

namespace OCNestedManager

/-- The entries of a table, in any order. -/
def Lists {κ ν : Type} [DecidableEq κ] (table : Finmap fun _ : κ => ν) (metas : List (κ × ν)) : Prop :=
  ∀ k v, (k, v) ∈ metas ↔ table.lookup k = some v

theorem exists_lists {κ ν : Type} [DecidableEq κ] (table : Finmap fun _ : κ => ν) : ∃ metas, Lists table metas := by
  refine ⟨table.entries.toList.map fun e => (e.1, e.2),fun k v => ?_⟩
  rw [Finmap.lookup_eq_some_iff,mem_map]
  constructor
  · rintro ⟨e,he,heq⟩
    cases heq
    exact Multiset.mem_toList.mp he
  · intro h
    exact ⟨⟨k,v⟩,Multiset.mem_toList.mpr h,rfl⟩

variable (n : OCNestedManager)

/-- The recovery succeeds with what is in memory, whatever the order in which the tables are read. -/
def Recoverable : Prop :=
  ∀ metas counts, Lists n.nestedTable metas → Lists n.nestedCountTable counts →
    let recovered := recoverRelationshipData {} metas counts
    recovered.1.isOk ∧ (∀ p id, id ∈ recovered.2.childrenOf p ↔ id ∈ n.childrenOf p) ∧
      ∀ id, recovered.2.nestedRef.objectKeys.lookup id = n.nestedRef.objectKeys.lookup id

/-- The stored keys can be parsed, to the objects in which the keys are nested. -/
def RelationsStored : Prop :=
  (∀ key id, n.nestedTable.lookup key = some id → parentIdOf key ≠ none) ∧
  ∀ p id, id ∈ n.childrenOf p ↔ ∃ key, n.nestedTable.lookup key = some id ∧ parentIdOf key = some p

/-- The stored counts are the counts, and can be parsed. -/
def CountsStored : Prop :=
  ∀ id, n.nestedCountTable.lookup id = n.nestedRef.objectKeys.lookup id ∧
    ∀ count, n.nestedCountTable.lookup id = some count → count ≤ 2147483647

theorem childrenOf_insert (p q : Bytes) (ids : List Bytes) :
    childrenOf { n with dependencyTable := n.dependencyTable.insert p ids } q = if q = p then ids else n.childrenOf q := by
  unfold childrenOf
  split_ifs with h
  · rw [h,lookup_insert,Option.getD_some]
  · rw [lookup_insert_of_ne _ h]

theorem childrenOf_erase (p q : Bytes) :
    childrenOf { n with dependencyTable := n.dependencyTable.erase p } q = if q = p then [] else n.childrenOf q := by
  unfold childrenOf
  split_ifs with h
  · rw [h,lookup_erase,Option.getD_none]
  · rw [lookup_erase_ne h]

variable {n n' : OCNestedManager}

theorem recoverRelationships_spec (metas : List (Bytes × Bytes)) (n : OCNestedManager) :
    ((recoverRelationships metas n).1.isOk ↔ ∀ m ∈ metas, parentIdOf m.1 ≠ none) ∧
    (recoverRelationships metas n).2.nestedRef = n.nestedRef ∧
    ((recoverRelationships metas n).1.isOk → ∀ p id, id ∈ (recoverRelationships metas n).2.childrenOf p ↔
      id ∈ n.childrenOf p ∨ ∃ key, (key, id) ∈ metas ∧ parentIdOf key = some p) := by
  induction metas generalizing n with
  | nil => simp [recoverRelationships,success,isOk]
  | cons m metas ih =>
    obtain ⟨key,child⟩ := m
    unfold recoverRelationships
    cases hparent : parentIdOf key with
    | none => simp [isOk,hparent]
    | some parent =>
      obtain ⟨hok,href,hchildren⟩ := ih { n with
        dependencyTable := n.dependencyTable.insert parent (if child ∈ n.childrenOf parent then n.childrenOf parent
            else (n.childrenOf parent).orderedInsert (· ≤ ·) child) }
      refine ⟨hok.trans (by simp [hparent]),href,fun h p id => ?_⟩
      rw [hchildren h,childrenOf_insert]
      have hmem : id ∈ (if child ∈ n.childrenOf parent then n.childrenOf parent
          else (n.childrenOf parent).orderedInsert (· ≤ ·) child) ↔ id = child ∨ id ∈ n.childrenOf parent := by
        split_ifs <;> grind [mem_orderedInsert]
      grind

theorem recoverCounts_spec (counts : List (Bytes × UInt32)) (n : OCNestedManager) :
    ((recoverCounts counts n).1.isOk ↔ ∀ m ∈ counts, m.2 ≤ 2147483647) ∧
    (recoverCounts counts n).2.dependencyTable = n.dependencyTable ∧
    ∀ table : Finmap fun _ : Bytes => UInt32, (∀ m ∈ counts, table.lookup m.1 = some m.2) →
      (recoverCounts counts n).1.isOk → ∀ id, (recoverCounts counts n).2.nestedRef.objectKeys.lookup id =
        if id ∈ counts.map Prod.fst then table.lookup id else n.nestedRef.objectKeys.lookup id := by
  induction counts generalizing n with
  | nil => simp [recoverCounts,success,isOk]
  | cons m counts ih =>
    obtain ⟨key,count⟩ := m
    unfold recoverCounts
    split_ifs with hcount
    · obtain ⟨hok,hdep,hlookup⟩ := ih { n with nestedRef := ⟨n.nestedRef.objectKeys.insert key count⟩ }
      refine ⟨hok.trans (by simp [hcount]),hdep,fun table htable h id => ?_⟩
      rw [hlookup table (fun m hm => htable m (mem_cons_of_mem _ hm)) h id]
      by_cases hid : id = key
      · subst hid
        have := htable (id, count) mem_cons_self
        simp [this]
      · simp [hid,lookup_insert_of_ne]
    · simp [isOk,hcount]

/-- What the recovery reads from the tables. -/
theorem recoverRelationshipData_spec {metas : List (Bytes × Bytes)} {counts : List (Bytes × UInt32)}
    (hmetas : Lists n.nestedTable metas) (hcounts : Lists n.nestedCountTable counts) :
    let recovered := recoverRelationshipData {} metas counts
    (recovered.1.isOk ↔ (∀ key id, n.nestedTable.lookup key = some id → parentIdOf key ≠ none) ∧
      ∀ id count, n.nestedCountTable.lookup id = some count → count ≤ 2147483647) ∧
    (recovered.1.isOk →
      (∀ p id, id ∈ recovered.2.childrenOf p ↔ ∃ key, n.nestedTable.lookup key = some id ∧ parentIdOf key = some p) ∧
      ∀ id, recovered.2.nestedRef.objectKeys.lookup id = n.nestedCountTable.lookup id) := by
  obtain ⟨hok,href,hchildren⟩ := recoverRelationships_spec metas {}
  obtain ⟨hok',hdep,hlookup⟩ := recoverCounts_spec counts (recoverRelationships metas {}).2
  simp only [Prod.forall,hmetas _ _] at hok
  simp only [Prod.forall,hcounts _ _] at hok'
  dsimp only [recoverRelationshipData]
  cases hrel : (recoverRelationships metas {}).1.isOk with
  | false =>
    rw [hrel] at hok
    simp [hrel,← hok]
  | true =>
    simp only [Bool.not_true,Bool.false_eq_true,if_false]
    refine ⟨hok'.trans (and_iff_right (hok.mp hrel)).symm,fun h => ⟨fun p id => ?_,fun id => ?_⟩⟩
    · rw [childrenOf,hdep,← childrenOf,hchildren hrel]
      simp [childrenOf,hmetas _ _]
    · rw [hlookup n.nestedCountTable (fun m hm => (hcounts m.1 m.2).mp hm) h,href]
      split_ifs with hid
      · rfl
      · cases hcount : n.nestedCountTable.lookup id with
        | none => rfl
        | some count => exact absurd (mem_map_of_mem ((hcounts id count).mpr hcount)) hid

theorem recoverable_iff (n : OCNestedManager) : n.Recoverable ↔ n.RelationsStored ∧ n.CountsStored := by
  constructor
  · intro h
    obtain ⟨metas,hmetas⟩ := exists_lists n.nestedTable
    obtain ⟨counts,hcounts⟩ := exists_lists n.nestedCountTable
    obtain ⟨hok,hchildren,hrefs⟩ := h metas counts hmetas hcounts
    obtain ⟨hparsed,hread⟩ := recoverRelationshipData_spec hmetas hcounts
    obtain ⟨hstored,hlookup⟩ := hread hok
    exact ⟨⟨(hparsed.mp hok).1,fun p id => (hchildren p id).symm.trans (hstored p id)⟩,
      fun id => ⟨(hlookup id).symm.trans (hrefs id),(hparsed.mp hok).2 id⟩⟩
  · intro ⟨⟨hrel,hstored⟩,hcounted⟩ metas counts hmetas hcounts
    obtain ⟨hparsed,hread⟩ := recoverRelationshipData_spec hmetas hcounts
    have hok := hparsed.mpr ⟨hrel,fun id => (hcounted id).2⟩
    exact ⟨hok,fun p id => ((hread hok).1 p id).trans (hstored p id).symm,
      fun id => ((hread hok).2 id).trans (hcounted id).1⟩

variable (p : Bytes)

theorem parentIdOf_nestedKey {child : Bytes} (h : 95 ∉ child) : parentIdOf (nestedKey p child) = some p := by
  have hdrop : (child.reverse ++ 95 :: p.reverse).dropWhile (· ≠ 95) = 95 :: p.reverse := by
    rw [dropWhile_append_of_pos]
    · simp
    · intro b hb
      simpa using fun heq : b = 95 => h (heq ▸ mem_reverse.mp hb)
  have hreverse : (nestedKey p child).reverse = child.reverse ++ 95 :: p.reverse := by simp [nestedKey]
  rw [parentIdOf,hreverse,hdrop,if_pos (by simp [nestedKey]),tail_cons,reverse_reverse]

/-- A key with an underscore is found in another object than it is nested in. -/
theorem parentIdOf_nestedKey_ne {child : Bytes} (h : 95 ∈ child) : parentIdOf (nestedKey p child) ≠ some p := by
  obtain ⟨x,y,rfl,hy⟩ : ∃ x y, child = x ++ 95 :: y ∧ 95 ∉ y := by
    obtain ⟨y,x,heq,hy⟩ := eq_append_cons_of_mem (mem_reverse.mpr h)
    exact ⟨x.reverse,y.reverse,by simpa using congrArg List.reverse heq,by simpa using hy⟩
  have hkey : nestedKey p (x ++ 95 :: y) = nestedKey (nestedKey p x) y := by simp [nestedKey]
  rw [hkey,parentIdOf_nestedKey _ hy]
  intro heq
  have hlen := congrArg List.length (Option.some.inj heq)
  simp only [nestedKey,length_append,length_cons] at hlen
  omega

/-- What is in memory is stored under its own text, which no other pair of keys has. -/
structure Stored (n : OCNestedManager) : Prop where
  table : ∀ key id, n.nestedTable.lookup key = some id ↔ ∃ p, id ∈ n.childrenOf p ∧ key = nestedKey p id
  plain : ∀ p, ∀ id ∈ n.childrenOf p, 95 ∉ id
  nodup : ∀ p, (n.childrenOf p).Nodup
  counts : n.CountsStored

theorem Stored.relationsStored (h : n.Stored) : n.RelationsStored := by
  constructor
  · intro key id hkey
    obtain ⟨p,hid,rfl⟩ := (h.table key id).mp hkey
    rw [parentIdOf_nestedKey p (h.plain p id hid)]
    simp
  · intro p id
    constructor
    · intro hid
      exact ⟨nestedKey p id,(h.table _ _).mpr ⟨p,hid,rfl⟩,parentIdOf_nestedKey p (h.plain p id hid)⟩
    · rintro ⟨key,hkey,hparent⟩
      obtain ⟨q,hid,rfl⟩ := (h.table key id).mp hkey
      rw [parentIdOf_nestedKey q (h.plain q id hid)] at hparent
      exact Option.some.inj hparent ▸ hid

theorem nestedKey_ne {p q id id' : Bytes} (hid : 95 ∉ id) (hid' : 95 ∉ id') (hq : q ≠ p) :
    nestedKey q id ≠ nestedKey p id' := by
  intro heq
  have hparent := congrArg parentIdOf heq
  rw [parentIdOf_nestedKey q hid,parentIdOf_nestedKey p hid'] at hparent
  exact hq (Option.some.inj hparent)

/-- The loops over the keys that are nested in an object, when RocksDB takes every write. -/
theorem addNestedRelationships_eq (ids : List Bytes) (n : OCNestedManager) :
    addNestedRelationships {} p (fun _ => {}) ids n = (.success,
      { n with nestedTable := ids.foldl (fun t id => t.insert (nestedKey p id) id) n.nestedTable }) := by
  induction ids generalizing n with
  | nil => rfl
  | cons id ids ih => exact ih _

theorem decreaseNestedLoop_eq (ids : List Bytes) (n : OCNestedManager) :
    (decreaseNestedLoop {} p (fun _ => {}) ids n).1 = .success ∧
    (decreaseNestedLoop {} p (fun _ => {}) ids n).2.2 = { n with
      nestedRef := ids.foldl (fun info id => (info.removeRef id).2) n.nestedRef
      nestedTable := ids.foldl (fun t id => t.erase (nestedKey p id)) n.nestedTable } := by
  induction ids generalizing n with
  | nil => exact ⟨rfl,rfl⟩
  | cons id ids ih => exact ih { n with
      nestedRef := (n.nestedRef.removeRef id).2, nestedTable := n.nestedTable.erase (nestedKey p id) }

theorem removeNestedRelationships_eq (ids : List Bytes) (n : OCNestedManager) :
    ids.foldl (fun n id => (n.removeNestedRelationship {} p id {}).2) n =
      { n with nestedTable := ids.foldl (fun t id => t.erase (nestedKey p id)) n.nestedTable } := by
  induction ids generalizing n with
  | nil => rfl
  | cons id ids ih => exact ih _

theorem nestedKey_inj {p id id' : Bytes} : nestedKey p id = nestedKey p id' ↔ id = id' := by
  simp [nestedKey]

theorem lookup_insertAll (ids : List Bytes) (t : Finmap fun _ : Bytes => Bytes) (key v : Bytes) :
    (ids.foldl (fun t id => t.insert (nestedKey p id) id) t).lookup key = some v ↔
      v ∈ ids ∧ key = nestedKey p v ∨ (∀ id ∈ ids, key ≠ nestedKey p id) ∧ t.lookup key = some v := by
  induction ids generalizing t with
  | nil => simp
  | cons id ids ih =>
    rw [foldl_cons,ih]
    by_cases hkey : key = nestedKey p id
    · subst hkey
      simp only [ne_eq,nestedKey_inj,lookup_insert,Option.some_inj,mem_cons]
      grind
    · rw [lookup_insert_of_ne _ hkey]
      grind

theorem lookup_eraseAll (ids : List Bytes) (t : Finmap fun _ : Bytes => Bytes) (key v : Bytes) :
    (ids.foldl (fun t id => t.erase (nestedKey p id)) t).lookup key = some v ↔
      (∀ id ∈ ids, key ≠ nestedKey p id) ∧ t.lookup key = some v := by
  induction ids generalizing t with
  | nil => simp
  | cons id ids ih =>
    rw [foldl_cons,ih]
    by_cases hkey : key = nestedKey p id
    · subst hkey
      simp
    · simp [hkey,lookup_erase_ne]

end OCNestedManager

/-- A call of the manager; the keys that are nested in an object are a set. -/
inductive NestedCall where
  | increaseNestedKeys (parentObjectKey : Bytes) (nestedObjectKeys : List Bytes) (nodup : nestedObjectKeys.Nodup)
  | increaseNestedRefCnt (nestedObjectKey : Bytes) (ref : UInt32)
  | decreaseNestedRefCnt (nestedObjectKey : Bytes)
  | decreaseNestedKeys (parentObjectKey : Bytes)
  | removeRelationshipData (parentObjectKey : Bytes)
  | removeNestIdsRef (nestedKeys : List Bytes)

namespace OCNestedManager

variable {n n' : OCNestedManager}

/-- A call when RocksDB is enabled and takes every write. -/
def step (n : OCNestedManager) : NestedCall → OCNestedManager
  | .increaseNestedKeys p ids _ => (n.increaseNestedKeys {} p ids fun _ => {}).2
  | .increaseNestedRefCnt id ref => (n.increaseNestedRefCnt {} id ref {}).2
  | .decreaseNestedRefCnt id => (n.decreaseNestedRefCnt {} id {}).2
  | .decreaseNestedKeys p => (n.decreaseNestedKeys {} p fun _ => {}).2.2
  | .removeRelationshipData p => n.removeRelationshipData {} p fun _ => {}
  | .removeNestIdsRef ids => removeNestIdsRef {} (fun _ => {}) ids n

variable (info : ObjectRefInfo false Bytes)

theorem lookup_removeRef (id k : Bytes) : (info.removeRef id).2.objectKeys.lookup k =
      if k = id then (info.objectKeys.lookup id).bind fun count => if count - 1 = 0 then none else some (count - 1)
      else info.objectKeys.lookup k := by
  unfold removeRef removeAndGetRefCnt
  by_cases hk : k = id
  · subst hk
    cases hlookup : info.objectKeys.lookup k with
    | none => simpa using hlookup
    | some count => by_cases hlast : count - 1 = 0 <;> simp [hlast]
  · cases info.objectKeys.lookup id with
    | none => simp [hk]
    | some count => by_cases hlast : count - 1 = 0 <;> simp [hk,hlast,lookup_erase_ne,lookup_insert_of_ne]

theorem removeRef_fst_false (id : Bytes) : (info.removeRef id).1 = info.contains id := by
  unfold ObjectRefInfo.removeRef ObjectRefInfo.removeAndGetRefCnt ObjectRefInfo.contains
  cases info.objectKeys.lookup id with
  | none => rfl
  | some count =>
    simp only [Bool.false_eq_true,if_false]
    split_ifs <;> rfl

theorem removeRef_of_contains_eq_false {info : ObjectRefInfo false Bytes} {id : Bytes} (h : info.contains id = false) :
    (info.removeRef id).2 = info := by
  rw [removeRef,removeAndGetRefCnt,Option.isSome_eq_false_iff.mp h |> Option.isNone_iff_eq_none.mp]

/-- A reference that goes changes the count of its object. -/
theorem lookup_removeRef_ne {id : Bytes} (h : info.contains id) :
    (info.removeRef id).2.objectKeys.lookup id ≠ info.objectKeys.lookup id := by
  obtain ⟨count,hcount⟩ := Option.isSome_iff_exists.mp h
  rw [lookup_removeRef,if_pos rfl,hcount,Option.bind_some]
  split_ifs
  · simp
  · simp

theorem lookup_removeRefs {ids : List Bytes} (hnodup : ids.Nodup) (k : Bytes) :
    (ids.foldl (fun info id => (info.removeRef id).2) info).objectKeys.lookup k =
      if k ∈ ids then (info.removeRef k).2.objectKeys.lookup k else info.objectKeys.lookup k := by
  induction ids generalizing info with
  | nil => rfl
  | cons id ids ih =>
    obtain ⟨hid,hids⟩ := nodup_cons.mp hnodup
    rw [foldl_cons,ih _ hids]
    by_cases hk : k = id
    · subst hk
      simp [hid]
    · simp [hk,lookup_removeRef]

theorem step_removeNestIdsRef (ids : List Bytes) (n : OCNestedManager) :
    ∃ info counts, n.step (.removeNestIdsRef ids) = { n with nestedRef := info, nestedCountTable := counts } ∧
      ∀ k, (k ∉ ids → counts.lookup k = n.nestedCountTable.lookup k ∧
          info.objectKeys.lookup k = n.nestedRef.objectKeys.lookup k) ∧
        (k ∈ ids → n.nestedCountTable.lookup k = none ∨ n.nestedRef.contains k → counts.lookup k = none) := by
  induction ids generalizing n with
  | nil => exact ⟨_,_,rfl,by simp⟩
  | cons id ids ih =>
    let m : OCNestedManager := { n with
      nestedRef := (n.nestedRef.removeRef id).2
      nestedCountTable := if n.nestedRef.contains id then n.nestedCountTable.erase id else n.nestedCountTable }
    have hround : n.step (.removeNestIdsRef (id :: ids)) = m.step (.removeNestIdsRef ids) := by
      rw [step,removeNestIdsRef,removeRef_fst_false]
      dsimp only [m]
      split_ifs <;> rfl
    obtain ⟨info,counts,hm,hspec⟩ := ih m
    refine ⟨info,counts,hround.trans hm,fun k => ?_⟩
    obtain ⟨hkept,hgone⟩ := hspec k
    by_cases hid : k = id
    · subst hid
      have hnone : n.nestedCountTable.lookup k = none ∨ n.nestedRef.contains k → m.nestedCountTable.lookup k = none := by
        intro hor
        dsimp only [m]
        split_ifs with hc
        · exact lookup_erase k _
        · exact hor.resolve_right hc
      grind
    · have hother : m.nestedCountTable.lookup k = n.nestedCountTable.lookup k ∧
          m.nestedRef.objectKeys.lookup k = n.nestedRef.objectKeys.lookup k := by
        dsimp only [m]
        rw [lookup_removeRef,if_neg hid]
        split_ifs <;> simp [lookup_erase_ne hid]
      grind [ObjectRefInfo.contains]

theorem CountsStored.removed (h : n.CountsStored) {ids : List Bytes} {k : Bytes} (hk : k ∈ ids) :
    (n.step (.removeNestIdsRef ids)).nestedCountTable.lookup k = none := by
  obtain ⟨info,counts,hstep,hspec⟩ := step_removeNestIdsRef ids n
  rw [hstep]
  apply (hspec k).2 hk
  rw [(h k).1,ObjectRefInfo.contains]
  cases n.nestedRef.objectKeys.lookup k <;> simp

/-- The calls after which the tables agree with what is in memory. No nested key has an underscore or is dropped for
others, counts are in the range that can be parsed, no key that goes with its object is counted here, and counts are
removed with the last reference. -/
def Keeps (n : OCNestedManager) : NestedCall → Prop
  | .increaseNestedKeys p ids _ => (∀ id ∈ ids, 95 ∉ id) ∧ ∀ id ∈ n.childrenOf p, id ∈ ids
  | .increaseNestedRefCnt id ref => n.getRefCount id + ref ≤ 2147483647
  | .decreaseNestedRefCnt id => n.nestedRef.objectKeys.lookup id ≠ some 0
  | .decreaseNestedKeys p => ∀ id ∈ n.childrenOf p, n.nestedRef.contains id = false
  | .removeRelationshipData _ => True
  | .removeNestIdsRef ids => ∀ id ∈ ids, (n.step (.removeNestIdsRef ids)).nestedRef.contains id = false

/-- A call that only concerns the counts. -/
theorem Stored.of_counts (h : n.Stored) (hdep : n'.dependencyTable = n.dependencyTable)
    (htable : n'.nestedTable = n.nestedTable) (hcounts : n'.CountsStored) : n'.Stored := by
  have hchildren : ∀ p, n'.childrenOf p = n.childrenOf p := by simp [childrenOf,hdep]
  refine ⟨?_,?_,?_,hcounts⟩
  · simpa only [htable,hchildren] using h.table
  · simpa only [hchildren] using h.plain
  · simpa only [hchildren] using h.nodup

/-- The keys that are nested in an object go, in memory and from the table. -/
theorem Stored.removed (h : n.Stored) (p : Bytes) (hdep : n'.dependencyTable = n.dependencyTable.erase p)
    (htable : n'.nestedTable = (n.childrenOf p).foldl (fun t id => t.erase (nestedKey p id)) n.nestedTable)
    (hcounts : n'.CountsStored) : n'.Stored := by
  have hchildren : ∀ q, n'.childrenOf q = if q = p then [] else n.childrenOf q := by
    intro q
    rw [← childrenOf_erase,childrenOf,hdep,childrenOf]
  refine ⟨fun key id => ?_,fun q => ?_,fun q => ?_,hcounts⟩
  · rw [htable,lookup_eraseAll,h.table]
    constructor
    · rintro ⟨hne,q,hid,rfl⟩
      refine ⟨q,?_,rfl⟩
      rw [hchildren,if_neg]
      · exact hid
      · rintro rfl
        exact hne id hid rfl
    · rintro ⟨q,hid,rfl⟩
      rw [hchildren] at hid
      split_ifs at hid with hq
      · cases hid
      · exact ⟨fun id' hid' => nestedKey_ne (h.plain q id hid) (h.plain p id' hid') hq,q,hid,rfl⟩
  · rw [hchildren]
    split_ifs
    · simp
    · exact h.plain q
  · rw [hchildren]
    split_ifs
    · exact nodup_nil
    · exact h.nodup q

theorem step_increaseNestedKeys (p : Bytes) (ids : List Bytes) (nodup : ids.Nodup) :
    n.step (.increaseNestedKeys p ids nodup) = { n with
      dependencyTable := n.dependencyTable.insert p ids
      nestedTable := ids.foldl (fun t id => t.insert (nestedKey p id) id) n.nestedTable } := by
  rw [step,increaseNestedKeys,addNestedRelationships_eq]
  rfl

theorem step_increaseNestedRefCnt (id : Bytes) (ref : UInt32) : n.step (.increaseNestedRefCnt id ref) = { n with
      nestedRef := ⟨n.nestedRef.objectKeys.insert id (n.getRefCount id + ref)⟩
      nestedCountTable := n.nestedCountTable.insert id (n.getRefCount id + ref) } := by
  have hadd : (n.nestedRef.addRef id ref).2 = ⟨n.nestedRef.objectKeys.insert id (n.getRefCount id + ref)⟩ := by
    unfold addRef getRefCount
    cases n.nestedRef.objectKeys.lookup id <;> simp
  rw [step,increaseNestedRefCnt,hadd]
  simp [updateNestedRefCount,getRefCount,WriteAnswer.effect,success,isOk]

theorem step_decreaseNestedRefCnt (h : n.CountsStored) (id : Bytes) : ∃ counts, n.step (.decreaseNestedRefCnt id) =
        { n with nestedRef := (n.nestedRef.removeRef id).2, nestedCountTable := counts } ∧
      ∀ k, counts.lookup k = (n.nestedRef.removeRef id).2.objectKeys.lookup k := by
  have hother : ∀ k, k ≠ id → n.nestedCountTable.lookup k = (n.nestedRef.removeRef id).2.objectKeys.lookup k := by
    intro k hk
    rw [(h k).1,lookup_removeRef,if_neg hk]
  have hnew := lookup_removeRef n.nestedRef id id
  rw [step,decreaseNestedRefCnt,removeRef_fst_false]
  cases hcontains : n.nestedRef.contains id with
  | false =>
    rw [removeRef_of_contains_eq_false hcontains]
    exact ⟨n.nestedCountTable,rfl,fun k => (h k).1⟩
  | true =>
    obtain ⟨count,hold⟩ := Option.isSome_iff_exists.mp hcontains
    rw [if_pos rfl,hold,Option.bind_some] at hnew
    by_cases hlast : count - 1 = 0
    · rw [if_pos hlast] at hnew
      simp only [getRefCount,hnew,Option.getD_none,ne_eq,not_true_eq_false,if_true,if_false]
      refine ⟨n.nestedCountTable.erase id,rfl,fun k => ?_⟩
      by_cases hk : k = id
      · rw [hk,hnew,lookup_erase]
      · exact (lookup_erase_ne hk).trans (hother k hk)
    · rw [if_neg hlast] at hnew
      simp only [getRefCount,hnew,Option.getD_some,ne_eq,hlast,not_false_eq_true,if_true]
      refine ⟨n.nestedCountTable.insert id (count - 1),rfl,fun k => ?_⟩
      by_cases hk : k = id
      · rw [hk,hnew,lookup_insert]
      · exact (lookup_insert_of_ne _ hk).trans (hother k hk)

theorem erase_of_lookup_eq_none {p : Bytes} (h : n.dependencyTable.lookup p = none) : n.dependencyTable.erase p = n.dependencyTable := by
  apply ext_lookup
  intro q
  by_cases hq : q = p
  · rw [hq,lookup_erase,h]
  · exact lookup_erase_ne hq

theorem step_decreaseNestedKeys (p : Bytes) : n.step (.decreaseNestedKeys p) = { n with
      dependencyTable := n.dependencyTable.erase p
      nestedRef := (n.childrenOf p).foldl (fun info id => (info.removeRef id).2) n.nestedRef
      nestedTable := (n.childrenOf p).foldl (fun t id => t.erase (nestedKey p id)) n.nestedTable } := by
  rw [step,decreaseNestedKeys,childrenOf]
  cases hids : n.dependencyTable.lookup p with
  | none =>
    rw [erase_of_lookup_eq_none hids]
    rfl
  | some ids =>
    obtain ⟨hrc,hn⟩ := decreaseNestedLoop_eq p ids n
    simp only [hrc,hn]
    rfl

theorem step_removeRelationshipData (p : Bytes) : n.step (.removeRelationshipData p) = { n with
      dependencyTable := n.dependencyTable.erase p
      nestedTable := (n.childrenOf p).foldl (fun t id => t.erase (nestedKey p id)) n.nestedTable } := by
  rw [step,removeRelationshipData,childrenOf]
  cases hids : n.dependencyTable.lookup p with
  | none =>
    rw [erase_of_lookup_eq_none hids]
    rfl
  | some ids =>
    simp only [removeNestedRelationships_eq]
    rfl

theorem childrenOf_increaseNestedKeys (p q : Bytes) (ids : List Bytes) (nodup : ids.Nodup) :
    (n.step (.increaseNestedKeys p ids nodup)).childrenOf q = if q = p then ids else n.childrenOf q := by
  rw [step_increaseNestedKeys,← childrenOf_insert]
  rfl

theorem Stored.step (h : n.Stored) {call : NestedCall} (hkeeps : n.Keeps call) : (n.step call).Stored := by
  cases call with
  | increaseNestedKeys p ids nodup =>
    obtain ⟨hplain,hold⟩ := hkeeps
    refine ⟨fun key id => ?_,fun q => ?_,fun q => ?_,?_⟩
    · simp only [childrenOf_increaseNestedKeys]
      rw [step_increaseNestedKeys,lookup_insertAll,h.table]
      constructor
      · grind
      · rintro ⟨q,hid,rfl⟩
        split_ifs at hid with hq
        · exact Or.inl ⟨hid,by rw [hq]⟩
        · exact Or.inr ⟨fun id' hid' => nestedKey_ne (h.plain q id hid) (hplain id' hid') hq,q,hid,rfl⟩
    · rw [childrenOf_increaseNestedKeys]
      split_ifs
      · exact hplain
      · exact h.plain q
    · rw [childrenOf_increaseNestedKeys]
      split_ifs
      · exact nodup
      · exact h.nodup q
    · rw [step_increaseNestedKeys]
      exact h.counts
  | increaseNestedRefCnt id ref =>
    rw [step_increaseNestedRefCnt]
    refine h.of_counts rfl rfl fun k => ?_
    have hbound : n.getRefCount id + ref ≤ 2147483647 := hkeeps
    by_cases hk : k = id
    · subst hk
      simpa using hbound
    · simpa [lookup_insert_of_ne,hk] using h.counts k
  | decreaseNestedRefCnt id =>
    obtain ⟨counts,hstep,hcount⟩ := step_decreaseNestedRefCnt h.counts id
    rw [hstep]
    refine h.of_counts rfl rfl fun k => ⟨hcount k,fun c hc => ?_⟩
    rw [hcount,lookup_removeRef] at hc
    split_ifs at hc with hk
    · obtain ⟨count,hold,hlast⟩ := Option.bind_eq_some_iff.mp hc
      have hbound := (h.counts id).2 count ((h.counts id).1.trans hold)
      have hzero : count ≠ 0 := fun hz => hkeeps (hz ▸ hold)
      split_ifs at hlast
      cases hlast
      grind
    · exact (h.counts k).2 c ((h.counts k).1.trans hc)
  | decreaseNestedKeys p =>
    rw [step_decreaseNestedKeys]
    refine h.removed p rfl rfl fun k => ⟨?_,(h.counts k).2⟩
    rw [lookup_removeRefs _ (h.nodup p)]
    split_ifs with hk
    · rw [removeRef_of_contains_eq_false (hkeeps k hk)]
      exact (h.counts k).1
    · exact (h.counts k).1
  | removeRelationshipData p =>
    rw [step_removeRelationshipData]
    exact h.removed p rfl rfl h.counts
  | removeNestIdsRef ids =>
    have hnone : ∀ k ∈ ids, _ := fun k => h.counts.removed
    obtain ⟨info,counts,hstep,hspec⟩ := step_removeNestIdsRef ids n
    simp only [Keeps,hstep] at hkeeps hnone ⊢
    refine h.of_counts rfl rfl fun k => ?_
    by_cases hk : k ∈ ids
    · have hgone : info.objectKeys.lookup k = none := by simpa [ObjectRefInfo.contains] using hkeeps k hk
      simp [hnone k hk,hgone]
    · simpa [(hspec k).1 hk] using h.counts k

theorem Stored.keeps_of_recoverable (h : n.Stored) {call : NestedCall} (hrec : (n.step call).Recoverable) :
    n.Keeps call := by
  obtain ⟨⟨_,hrel⟩,hcounts⟩ := (recoverable_iff _).mp hrec
  cases call with
  | increaseNestedKeys p ids nodup =>
    simp only [childrenOf_increaseNestedKeys] at hrel
    rw [step_increaseNestedKeys] at hrel
    constructor
    · -- the key would have to be found in this object
      intro id hid hunderscore
      obtain ⟨key,hkey,hparent⟩ := (hrel p id).mp (by simpa using hid)
      rw [lookup_insertAll] at hkey
      rcases hkey with ⟨_,rfl⟩ | ⟨_,hold⟩
      · exact parentIdOf_nestedKey_ne p hunderscore hparent
      · obtain ⟨q,hq,_⟩ := (h.table key id).mp hold
        exact h.plain q id hq hunderscore
    · -- a key that is not among the new ones is still in the table
      intro id hid
      by_contra hnot
      have hfound := (hrel p id).mpr ⟨nestedKey p id,?_,parentIdOf_nestedKey p (h.plain p id hid)⟩
      · simp only [if_true] at hfound
        exact hnot hfound
      · rw [lookup_insertAll]
        refine Or.inr ⟨fun id' hid' heq => hnot (nestedKey_inj.mp heq ▸ hid'),(h.table _ _).mpr ⟨p,hid,rfl⟩⟩
  | increaseNestedRefCnt id ref =>
    rw [step_increaseNestedRefCnt] at hcounts
    exact (hcounts id).2 _ (lookup_insert _)
  | decreaseNestedRefCnt id =>
    intro hzero
    obtain ⟨counts,hstep,hcount⟩ := step_decreaseNestedRefCnt h.counts id
    have hlookup := hcount id
    rw [lookup_removeRef,if_pos rfl,hzero] at hlookup
    rw [hstep] at hcounts
    exact absurd ((hcounts id).2 _ hlookup) (by decide)
  | decreaseNestedKeys p =>
    intro id hid
    rw [step_decreaseNestedKeys] at hcounts
    have hsame := (hcounts id).1
    rw [lookup_removeRefs _ (h.nodup p),if_pos hid] at hsame
    by_contra hcontains
    exact lookup_removeRef_ne _ (Bool.not_eq_false _ ▸ hcontains) (hsame.symm.trans (h.counts id).1)
  | removeRelationshipData p => trivial
  | removeNestIdsRef ids =>
    intro id hid
    rw [ObjectRefInfo.contains,← (hcounts id).1]
    exact congrArg Option.isSome (h.counts.removed hid)

def run (n : OCNestedManager) (calls : List NestedCall) : OCNestedManager := calls.foldl step n

theorem stored_start : Stored {} := by
  refine ⟨fun key id => ?_,fun p => ?_,fun p => ?_,fun k => ?_⟩ <;> simp [childrenOf]

/-- The recovery gives what is in memory after every call of a run if and only if every call keeps the tables in
agreement with the memory. -/
theorem recoverable_along_iff (calls : List NestedCall) :
    (∀ before, before <+: calls → (run {} before).Recoverable) ↔ EachStep step Keeps {} calls :=
  good_along_iff step (fun n h => (recoverable_iff n).mpr ⟨h.relationsStored,h.counts⟩)
    (fun _ _ h => h.keeps_of_recoverable) (fun _ _ h => h.step) stored_start calls

/-- The key `b_c` is nested in `a`. The recovery finds it in `a_b`. -/
theorem underscore_key_recovered_elsewhere :
    let n := run {} [.increaseNestedKeys [97] [[98,95,99]] (by simp)]
    let recovered := (recoverRelationshipData {} [([97,95,98,95,99], [98,95,99])] []).2
    n.nestedTable.lookup [97,95,98,95,99] = some [98,95,99] ∧ n.childrenOf [97] = [[98,95,99]] ∧
    recovered.childrenOf [97] = [] ∧ recovered.childrenOf [97,95,98] = [[98,95,99]] ∧ ¬ n.Recoverable := by
  refine ⟨by decide,by decide,by decide,by decide,fun h => ?_⟩
  have hkeeps : Keeps {} (.increaseNestedKeys [97] [[98,95,99]] (by simp)) := stored_start.keeps_of_recoverable h
  exact hkeeps.1 _ mem_cons_self (by decide)

end OCNestedManager

end Datasystem.Master
