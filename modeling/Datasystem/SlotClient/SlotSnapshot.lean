import Datasystem.Lib.Keyed
import Datasystem.SlotClient.SlotIndexCodec

/-!
# Slot snapshots

A snapshot holds what the records of an index amount to: for each key the last put of each version, and the
version up to which the key has been deleted.
-/

namespace Datasystem.SlotClient

open Keyed SlotPutRecord Keyed
open List hiding lookup

structure KeyPuts where
  key : Bytes
  versions : List SlotPutRecord
  sorted : Sorted version versions
  owned : ∀ r ∈ versions, r.key = key

structure SlotSnapshotValue where
  key : Bytes
  fileId : UInt32 := 0
  offset : Nat := 0
  size : Nat := 0
  version : UInt64 := 0
  writeMode : UInt8 := 0
  deleted : Bool := false
deriving DecidableEq, Repr

theorem KeyPuts.sorted_nil : Sorted KeyPuts.key [] := List.Pairwise.nil

structure SlotSnapshot where
  putsByKey : List KeyPuts := []
  deletedUpToByKey : List SlotDeleteRecord := []
  sorted : Sorted KeyPuts.key putsByKey := by exact KeyPuts.sorted_nil

namespace SlotSnapshot

variable (s : SlotSnapshot) (key : Bytes)

def putsOf : List SlotPutRecord :=
  match lookup KeyPuts.key key s.putsByKey with
  | some e => e.versions
  | none => []

def deletedUpTo : Option UInt64 := (lookup SlotDeleteRecord.key key s.deletedUpToByKey).map SlotDeleteRecord.version

theorem sorted_putsOf : Sorted version (s.putsOf key) := by
  unfold putsOf
  split
  · exact KeyPuts.sorted _
  · exact List.Pairwise.nil

theorem key_of_mem_putsOf {s : SlotSnapshot} {key : Bytes} {r : SlotPutRecord}
    (h : r ∈ s.putsOf key) : r.key = key := by
  unfold putsOf at h
  split at h
  · rename_i e he
    rw [e.owned r h,lookup_key _ he]
  · cases h

def applyPut (record : SlotPutRecord) : SlotSnapshot where
  putsByKey := upsert KeyPuts.key
    { key := record.key
      versions := upsert version record (s.putsOf record.key)
      sorted := (s.sorted_putsOf record.key).upsert record
      owned := fun r hr => (mem_upsert hr).elim (fun h => by rw [h]) key_of_mem_putsOf }
    s.putsByKey
  deletedUpToByKey := s.deletedUpToByKey
  sorted := s.sorted.upsert _

def applyDelete (record : SlotDeleteRecord) : SlotSnapshot :=
  { s with
    deletedUpToByKey := upsert SlotDeleteRecord.key
      ⟨record.key,max ((s.deletedUpTo record.key).getD 0) record.version⟩ s.deletedUpToByKey }

def valueOf (r : SlotPutRecord) : SlotSnapshotValue := ⟨key,r.fileId,r.offset,r.size,r.version,r.writeMode,false⟩

def findVersion (version : UInt64) : Option SlotPutRecord := lookup SlotPutRecord.version version (s.putsOf key)

def findExact (version : UInt64) : Except Status SlotSnapshotValue :=
  match lookup KeyPuts.key key s.putsByKey with
  | none => .error ⟨.notFoundInL2Cache,"Key not found"⟩
  | some e =>
    match lookup SlotPutRecord.version version e.versions with
    | none => .error ⟨.notFoundInL2Cache,"Version not found"⟩
    | some r =>
      match s.deletedUpTo key with
      | none => .ok (valueOf key r)
      | some deleted =>
        if deleted < version then .ok (valueOf key r)
        else .error ⟨.notFoundInL2Cache,"Version deleted"⟩

def findLatest (minVersion : UInt64) : Except Status SlotSnapshotValue :=
  match lookup KeyPuts.key key s.putsByKey with
  | none => .error ⟨.notFoundInL2Cache,"Key not found"⟩
  | some e =>
    match e.versions.reverse.find? fun r =>
      minVersion < r.version ∧ (s.deletedUpTo key).getD 0 < r.version with
    | some r => .ok (valueOf key r)
    | none => .error ⟨.notFoundInL2Cache,"No visible version found"⟩

/-- The visible puts by key and version; the maps are sorted, which leaves nothing to sort. -/
def collectVisiblePuts : List SlotPutRecord :=
  s.putsByKey.flatMap fun e =>
    e.versions.filter fun r => (s.deletedUpTo e.key).getD 0 < r.version

theorem putsOf_applyPut (r : SlotPutRecord) (k : Bytes) : (s.applyPut r).putsOf k =
      if k = r.key then upsert version r (s.putsOf r.key) else s.putsOf k := by
  simp only [putsOf,applyPut,lookup_upsert]
  split_ifs with h <;> simp [h]

theorem findVersion_applyPut (r : SlotPutRecord) (k : Bytes) (v : UInt64) : (s.applyPut r).findVersion k v =
      if k = r.key ∧ v = r.version then some r else s.findVersion k v := by
  simp only [findVersion,putsOf_applyPut]
  by_cases hk : k = r.key
  · subst hk
    simp [lookup_upsert]
  · simp [hk]

theorem deletedUpTo_applyDelete (r : SlotDeleteRecord) (k : Bytes) : (s.applyDelete r).deletedUpTo k =
      if k = r.key then some (max ((s.deletedUpTo r.key).getD 0) r.version)
      else s.deletedUpTo k := by
  simp only [deletedUpTo,applyDelete,lookup_upsert]
  split_ifs <;> rfl

theorem findVersion_eq_some {s : SlotSnapshot} {k : Bytes} {v : UInt64} {r : SlotPutRecord}
    (h : s.findVersion k v = some r) : r.key = k ∧ r.version = v :=
  ⟨key_of_mem_putsOf (mem_of_lookup _ h),lookup_key _ h⟩

theorem findExact_eq (s : SlotSnapshot) (k : Bytes) (v : UInt64) :
    (∃ r, s.findVersion k v = some r ∧ (∀ w, s.deletedUpTo k = some w → w < v) ∧ s.findExact k v = .ok (valueOf k r)) ∨
      ((∀ r, s.findVersion k v = some r → ∃ w, s.deletedUpTo k = some w ∧ v ≤ w) ∧
        ∃ e, s.findExact k v = .error e ∧ e.code = .notFoundInL2Cache) := by
  cases hk : lookup KeyPuts.key k s.putsByKey with
  | none =>
    exact Or.inr ⟨by simp [findVersion,putsOf,hk],⟨.notFoundInL2Cache,"Key not found"⟩,
      by simp [findExact,hk],rfl⟩
  | some e =>
    cases hv : lookup version v e.versions with
    | none =>
      exact Or.inr ⟨by simp [findVersion,putsOf,hk,hv],
        ⟨.notFoundInL2Cache,"Version not found"⟩,by simp [findExact,hk,hv],rfl⟩
    | some r =>
      have hfind : s.findVersion k v = some r := by simp [findVersion,putsOf,hk,hv]
      cases hw : s.deletedUpTo k with
      | none => exact Or.inl ⟨r,hfind,by simp,by simp [findExact,hk,hv,hw]⟩
      | some w =>
        by_cases hlt : w < v
        · exact Or.inl ⟨r,hfind,by simpa using hlt,by simp [findExact,hk,hv,hw,hlt]⟩
        · exact Or.inr ⟨fun _ _ => ⟨w,rfl,not_lt.mp hlt⟩,
            ⟨.notFoundInL2Cache,"Version deleted"⟩,by simp [findExact,hk,hv,hw,hlt],rfl⟩

/-- The latest search finds the largest version above both bounds. -/
theorem findLatest_eq (s : SlotSnapshot) (k : Bytes) (minVersion : UInt64) :
    (∃ r, s.findVersion k r.version = some r ∧ minVersion < r.version ∧
        (s.deletedUpTo k).getD 0 < r.version ∧ s.findLatest k minVersion = .ok (valueOf k r) ∧
        ∀ v r', s.findVersion k v = some r' → r.version < v → v ≤ minVersion ∨ v ≤ (s.deletedUpTo k).getD 0) ∨
      ((∀ v r, s.findVersion k v = some r → v ≤ minVersion ∨ v ≤ (s.deletedUpTo k).getD 0) ∧
        ∃ e, s.findLatest k minVersion = .error e ∧ e.code = .notFoundInL2Cache) := by
  unfold findLatest
  cases hk : lookup KeyPuts.key k s.putsByKey with
  | none =>
    refine Or.inr ⟨?_,_,rfl,rfl⟩
    intro v r hr
    simp [findVersion,putsOf,hk] at hr
  | some e =>
    have hputs : s.putsOf k = e.versions := by simp [putsOf,hk]
    dsimp only
    split
    · rename_i r hfind
      obtain ⟨hcond,before,after,hsplit,hbefore⟩ := find?_eq_some_iff_append.mp hfind
      simp only [decide_eq_true_eq] at hcond
      have hmem : r ∈ e.versions := by
        rw [← mem_reverse,hsplit]
        simp
      refine Or.inl ⟨r,?_,hcond.1,hcond.2,rfl,?_⟩
      · rw [findVersion,hputs]
        exact e.sorted.lookup_of_mem hmem
      · intro v r' hr' hlt
        -- a larger version stands behind in the sorted list, in front in the reversed one
        have hr'mem : r' ∈ before := by
          rw [findVersion,hputs] at hr'
          have hv := lookup_key _ hr'
          have hin : r' ∈ before ++ r :: after := by
            rw [← hsplit,mem_reverse]
            exact mem_of_lookup _ hr'
          rcases mem_append.mp hin with h | h
          · exact h
          · have hdesc : (before ++ r :: after).Pairwise fun a b => b.version < a.version := by
              rw [← hsplit,pairwise_reverse]
              exact e.sorted
            have hdesc := (pairwise_append.mp hdesc).2.1
            rcases mem_cons.mp h with rfl | h
            · exact absurd hv (ne_of_lt hlt)
            · have hless := (pairwise_cons.mp hdesc).1 r' h
              rw [hv] at hless
              exact absurd hless (not_lt.mpr hlt.le)
        have hnot := hbefore r' hr'mem
        have hv := (findVersion_eq_some hr').2
        simp only [hv,Bool.not_eq_true',decide_eq_false_iff_not,not_and_or,not_lt] at hnot
        exact hnot
    · rename_i hfind
      refine Or.inr ⟨?_,_,rfl,rfl⟩
      intro v r hr
      rw [findVersion,hputs] at hr
      have hnot := find?_eq_none.mp hfind r (mem_reverse.mpr (mem_of_lookup _ hr))
      rw [lookup_key _ hr] at hnot
      simpa only [decide_eq_true_eq,not_and_or,not_lt] using hnot

end SlotSnapshot

end Datasystem.SlotClient
