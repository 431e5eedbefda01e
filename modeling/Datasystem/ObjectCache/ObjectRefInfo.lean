import Datasystem.Lib.Bytes
import Datasystem.Lib.Machine
import Datasystem.Status

/-!
# Global references to objects

A call works through its keys twice: first in the table of the referrer, with the callbacks, then in the table
of the objects.
-/

namespace Datasystem.ObjectCache

open Bytes List

/-- The objects that one referrer holds. With unique counts an object is held once or not at all. -/
structure ObjectRefInfo (isUniqueCnt : Bool) (α : Type) where
  objectKeys : Finmap fun _ : α => UInt32 := ∅

namespace ObjectRefInfo

variable {isUniqueCnt : Bool} {α : Type} [DecidableEq α] (info : ObjectRefInfo isUniqueCnt α) (objectKey : α)

def addRef (ref : UInt32 := 1) : Bool × ObjectRefInfo isUniqueCnt α :=
  match info.objectKeys.lookup objectKey with
  | none => (true, ⟨info.objectKeys.insert objectKey ref⟩)
  | some count =>
    if isUniqueCnt then (false, info)
    else (true, ⟨info.objectKeys.insert objectKey (count + ref)⟩)

/-- Whether the object was held, and the count that is left. -/
def removeAndGetRefCnt : (Bool × UInt32) × ObjectRefInfo isUniqueCnt α :=
  match info.objectKeys.lookup objectKey with
  | none => ((false, 0), info)
  | some count =>
    if isUniqueCnt then ((true, 0), ⟨info.objectKeys.erase objectKey⟩)
    else if count - 1 = 0 then ((true, 0), ⟨info.objectKeys.erase objectKey⟩)
    else ((true, count - 1), ⟨info.objectKeys.insert objectKey (count - 1)⟩)

def removeRef : Bool × ObjectRefInfo isUniqueCnt α :=
  ((info.removeAndGetRefCnt objectKey).1.1, (info.removeAndGetRefCnt objectKey).2)

def contains : Bool := (info.objectKeys.lookup objectKey).isSome

def checkIsRefIdsEmpty : Bool := info.objectKeys = ∅

@[simp] theorem contains_empty : ({} : ObjectRefInfo isUniqueCnt α).contains objectKey = false :=
  rfl

theorem contains_of_checkIsRefIdsEmpty {info : ObjectRefInfo isUniqueCnt α}
    (h : info.checkIsRefIdsEmpty = true) (objectKey : α) : info.contains objectKey = false := by
  have hempty : info.objectKeys = ∅ := by simpa [checkIsRefIdsEmpty] using h
  rw [contains,hempty,Finmap.lookup_empty,Option.isSome_none]

variable (info : ObjectRefInfo true α)

theorem addRef_fst (objectKey : α) : (info.addRef objectKey).1 = !info.contains objectKey := by
  unfold addRef contains
  cases info.objectKeys.lookup objectKey <;> simp

theorem contains_addRef (objectKey o : α) :
    (info.addRef objectKey).2.contains o = (decide (o = objectKey) || info.contains o) := by
  unfold addRef contains
  by_cases ho : o = objectKey
  · subst ho
    cases h : info.objectKeys.lookup o <;> simp [h]
  · cases info.objectKeys.lookup objectKey <;> simp [ho,Finmap.lookup_insert_of_ne]

theorem removeRef_fst (objectKey : α) : (info.removeRef objectKey).1 = info.contains objectKey := by
  unfold removeRef removeAndGetRefCnt contains
  cases info.objectKeys.lookup objectKey <;> simp

theorem contains_removeRef (objectKey o : α) :
    (info.removeRef objectKey).2.contains o = (decide (o ≠ objectKey) && info.contains o) := by
  unfold removeRef removeAndGetRefCnt contains
  by_cases ho : o = objectKey
  · subst ho
    cases h : info.objectKeys.lookup o <;> simp [h]
  · cases info.objectKeys.lookup objectKey <;> simp [ho,Finmap.lookup_erase_ne]

end ObjectRefInfo

structure ObjectGlobalRefTable (κ : Type) where
  clientRefTable : Finmap fun _ : κ => ObjectRefInfo true Bytes := ∅
  objectRefTable : Finmap fun _ : Bytes => Finset κ := ∅
  remoteClientIdTable : Finset κ := ∅

def refsOf {κ : Type} (table : Finmap fun _ : Bytes => Finset κ) (objectKey : Bytes) : Finset κ :=
  (table.lookup objectKey).getD ∅

structure KeyLoop where
  info : ObjectRefInfo true Bytes
  successVec : List Bytes := []
  failedIds : List Bytes := []
  rc : Status := .success

/-- What a call reports: the keys whose persistence failed, and the keys that got their first or
lost their last referrer. -/
structure RefReport where
  status : Status
  failedIds : List Bytes := []
  changedIds : List Bytes := []
deriving DecidableEq, Repr

namespace ObjectGlobalRefTable

variable {κ : Type} [DecidableEq κ]

/-- One turn of the first loop of `GIncreaseRef`; `saved` is what the callback returns, success when
none is registered. -/
def increaseKey (st : KeyLoop) (objectKey : Bytes) (saved : Status) : KeyLoop :=
  let added := st.info.addRef objectKey
  if !added.1 then st
  else if saved.isOk then
    { st with info := added.2, successVec := st.successVec ++ [objectKey], rc := saved }
  else
    { st with
      info := (added.2.removeRef objectKey).2
      failedIds := st.failedIds ++ [objectKey]
      rc := saved }

def recordReferrer (refId : κ) (st : (Finmap fun _ : Bytes => Finset κ) × List Bytes)
    (objectKey : Bytes) : (Finmap fun _ : Bytes => Finset κ) × List Bytes :=
  let refs := refsOf st.1 objectKey
  (st.1.insert objectKey (insert refId refs), if refs = ∅ then st.2 ++ [objectKey] else st.2)

variable (t : ObjectGlobalRefTable κ)

def gIncreaseRef (refId : κ) (objectKeys : List (Bytes × Status)) (isRemoteClient : Bool) : RefReport × ObjectGlobalRefTable κ :=
  let known := t.clientRefTable.lookup refId
  let st := objectKeys.foldl (fun st p => increaseKey st p.1 p.2) { info := known.getD {} }
  let done := (st.successVec.insertionSort (· ≤ ·)).foldl (recordReferrer refId) (t.objectRefTable, [])
  (⟨st.rc,st.failedIds,done.2⟩,
    { clientRefTable := t.clientRefTable.insert refId st.info
      objectRefTable := done.1
      remoteClientIdTable :=
        if known.isNone && isRemoteClient then insert refId t.remoteClientIdTable
        else t.remoteClientIdTable })

/-- One turn of the first loop of `GDecreaseRef`. The key counts as removed before the callback is
asked; a callback that fails only puts it back into the table of the referrer. -/
def decreaseKey (st : KeyLoop) (objectKey : Bytes) (removed : Status) : KeyLoop :=
  let without := st.info.removeRef objectKey
  if !without.1 then st
  else if removed.isOk then
    { st with info := without.2, successVec := st.successVec ++ [objectKey], rc := removed }
  else
    { info := (without.2.addRef objectKey).2
      successVec := st.successVec ++ [objectKey]
      failedIds := st.failedIds ++ [objectKey]
      rc := removed }

def tryEraseClientId (refId : κ) (isRemoteClient : Bool) : ObjectGlobalRefTable κ :=
  match t.clientRefTable.lookup refId with
  | none =>
    if isRemoteClient then { t with remoteClientIdTable := t.remoteClientIdTable.erase refId } else t
  | some info =>
    if info.checkIsRefIdsEmpty then
      { t with
        clientRefTable := t.clientRefTable.erase refId
        remoteClientIdTable :=
          if isRemoteClient then t.remoteClientIdTable.erase refId else t.remoteClientIdTable }
    else t

/-- The second loop of `GDecreaseRef`, which stops at the first pair it does not find. -/
def eraseReferrer (refId : κ) : List Bytes → (Finmap fun _ : Bytes => Finset κ) → List Bytes →
    Option Status × (Finmap fun _ : Bytes => Finset κ) × List Bytes
  | [], table, finishDecIds => (none, table, finishDecIds)
  | objectKey :: rest, table, finishDecIds =>
    match table.lookup objectKey with
    | none => (some ⟨.runtimeError,"Fail to find objectKey"⟩, table, finishDecIds)
    | some refs =>
      if refId ∈ refs then
        if refs.erase refId = ∅ then
          eraseReferrer refId rest (table.erase objectKey) (finishDecIds ++ [objectKey])
        else eraseReferrer refId rest (table.insert objectKey (refs.erase refId)) finishDecIds
      else (some ⟨.runtimeError,"Fail to erase refId"⟩, table, finishDecIds)

def gDecreaseRef (refId : κ) (objectKeys : List (Bytes × Status)) (isRemoteClient : Bool) : RefReport × ObjectGlobalRefTable κ :=
  match t.clientRefTable.lookup refId with
  | none => (⟨.success,[],[]⟩, t)
  | some info =>
    let st := objectKeys.foldl (fun st p => decreaseKey st p.1 p.2) { info := info }
    let t' := tryEraseClientId { t with clientRefTable := t.clientRefTable.insert refId st.info }
      refId isRemoteClient
    let done := eraseReferrer refId (st.successVec.insertionSort (· ≤ ·)) t'.objectRefTable []
    (⟨done.1.getD st.rc,st.failedIds,done.2.2⟩, { t' with objectRefTable := done.2.1 })

end ObjectGlobalRefTable

inductive RefCall (κ : Type) where
  | increase (refId : κ) (objectKeys : List (Bytes × Status)) (isRemoteClient : Bool)
  | decrease (refId : κ) (objectKeys : List (Bytes × Status)) (isRemoteClient : Bool)

namespace RefCall

variable {κ : Type} [DecidableEq κ]

def run (t : ObjectGlobalRefTable κ) : RefCall κ → RefReport × ObjectGlobalRefTable κ
  | increase refId objectKeys isRemoteClient => t.gIncreaseRef refId objectKeys isRemoteClient
  | decrease refId objectKeys isRemoteClient => t.gDecreaseRef refId objectKeys isRemoteClient

end RefCall

/-- Calls one after the other on tables that are empty at first. -/
def refTableMachine (κ : Type) [DecidableEq κ] : Machine (ObjectGlobalRefTable κ) (RefCall κ) :=
  ⟨{},fun t c => some (c.run t).2⟩

namespace ObjectGlobalRefTable

/-- The keys that were added, each of them once, are new in the table of the referrer. -/
structure Increased (info : ObjectRefInfo true Bytes) (st : KeyLoop) : Prop where
  contains : ∀ o, st.info.contains o = true ↔ info.contains o = true ∨ o ∈ st.successVec
  new : ∀ o ∈ st.successVec, info.contains o = false
  nodup : st.successVec.Nodup

theorem Increased.start (info : ObjectRefInfo true Bytes) : Increased info { info := info } :=
  ⟨by simp,by simp,nodup_nil⟩

variable {info : ObjectRefInfo true Bytes} {st : KeyLoop}

theorem Increased.increaseKey (h : Increased info st) (objectKey : Bytes) (saved : Status) :
    Increased info (increaseKey st objectKey saved) := by
  simp only [ObjectGlobalRefTable.increaseKey,ObjectRefInfo.addRef_fst,Bool.not_not]
  split_ifs with hheld hsaved
  · exact h
  · have hnot : ¬ (info.contains objectKey = true ∨ objectKey ∈ st.successVec) := by
      rwa [← h.contains objectKey]
    push Not at hnot
    refine ⟨?_,?_,?_⟩
    · intro o
      simp only [ObjectRefInfo.contains_addRef,Bool.or_eq_true,decide_eq_true_eq,h.contains,mem_append,mem_singleton]
      tauto
    · intro o ho
      rcases mem_append.mp ho with ho | ho
      · exact h.new o ho
      · rw [mem_singleton.mp ho]
        simpa using hnot.1
    · exact nodup_append.mpr ⟨h.nodup,nodup_singleton _,by
        intro a ha b hb heq
        exact hnot.2 (by rwa [← mem_singleton.mp hb,← heq])⟩
  · -- the key is taken out again
    refine ⟨?_,h.new,h.nodup⟩
    intro o
    simp only [ObjectRefInfo.contains_removeRef,ObjectRefInfo.contains_addRef,Bool.and_eq_true,
      Bool.or_eq_true,decide_eq_true_eq]
    rw [← h.contains o]
    constructor
    · rintro ⟨hne,heq | ho⟩
      · exact absurd heq hne
      · exact ho
    · intro ho
      refine ⟨?_,Or.inr ho⟩
      rintro rfl
      exact hheld ho

theorem Increased.foldl (h : Increased info st) (objectKeys : List (Bytes × Status)) :
    Increased info (objectKeys.foldl (fun st p => ObjectGlobalRefTable.increaseKey st p.1 p.2) st) := by
  induction objectKeys generalizing st with
  | nil => exact h
  | cons p objectKeys ih => exact ih (h.increaseKey p.1 p.2)

/-- The keys that were removed, each of them once, were in the table of the referrer. -/
structure Decreased (info : ObjectRefInfo true Bytes) (st : KeyLoop) : Prop where
  contains : ∀ o, st.info.contains o = true ↔ info.contains o = true ∧ o ∉ st.successVec
  held : ∀ o ∈ st.successVec, info.contains o = true
  nodup : st.successVec.Nodup

theorem Decreased.start (info : ObjectRefInfo true Bytes) : Decreased info { info := info } :=
  ⟨by simp,by simp,nodup_nil⟩

theorem Decreased.decreaseKey (h : Decreased info st) {objectKey : Bytes} {removed : Status}
    (hremoved : info.contains objectKey = true → removed.isOk = true) :
    Decreased info (decreaseKey st objectKey removed) := by
  simp only [ObjectGlobalRefTable.decreaseKey,ObjectRefInfo.removeRef_fst,Bool.not_eq_true']
  split_ifs with hheld hok
  · exact h
  · have hin : info.contains objectKey = true ∧ objectKey ∉ st.successVec := by
      rw [← h.contains objectKey]
      simpa using hheld
    refine ⟨?_,?_,?_⟩
    · intro o
      simp only [ObjectRefInfo.contains_removeRef,Bool.and_eq_true,decide_eq_true_eq,h.contains,
        mem_append,mem_singleton]
      tauto
    · intro o ho
      rcases mem_append.mp ho with ho | ho
      · exact h.held o ho
      · rw [mem_singleton.mp ho]
        exact hin.1
    · exact nodup_append.mpr ⟨h.nodup,nodup_singleton _,by
        intro a ha b hb heq
        exact hin.2 (by rwa [← mem_singleton.mp hb,← heq])⟩
  · have hin : st.info.contains objectKey = true := by simpa using hheld
    exact absurd (hremoved ((h.contains objectKey).mp hin).1) hok

theorem Decreased.foldl (h : Decreased info st) {objectKeys : List (Bytes × Status)}
    (hremoved : ∀ p ∈ objectKeys, info.contains p.1 = true → p.2.isOk = true) :
    Decreased info (objectKeys.foldl (fun st p => ObjectGlobalRefTable.decreaseKey st p.1 p.2) st) := by
  induction objectKeys generalizing st with
  | nil => exact h
  | cons p objectKeys ih =>
    exact ih (h.decreaseKey (hremoved p mem_cons_self)) fun q hq => hremoved q (mem_cons_of_mem _ hq)

section Loops

variable {κ : Type} (table : Finmap fun _ : Bytes => Finset κ)

theorem refsOf_insert (objectKey o : Bytes) (refs : Finset κ) :
    refsOf (table.insert objectKey refs) o = if o = objectKey then refs else refsOf table o := by
  unfold refsOf
  split_ifs with h
  · rw [h,Finmap.lookup_insert,Option.getD_some]
  · rw [Finmap.lookup_insert_of_ne _ h]

theorem refsOf_erase (objectKey o : Bytes) :
    refsOf (table.erase objectKey) o = if o = objectKey then ∅ else refsOf table o := by
  unfold refsOf
  split_ifs with h
  · rw [h,Finmap.lookup_erase,Option.getD_none]
  · rw [Finmap.lookup_erase_ne h]

variable [DecidableEq κ] (refId : κ)

/-- Every key gets the referrer; those without any referrer before are reported. -/
theorem foldl_recordReferrer {keys : List Bytes} (hnodup : keys.Nodup) (firstIncIds : List Bytes) :
    (∀ o, refsOf (keys.foldl (recordReferrer refId) (table, firstIncIds)).1 o =
      if o ∈ keys then insert refId (refsOf table o) else refsOf table o) ∧
    (keys.foldl (recordReferrer refId) (table, firstIncIds)).2 =
      firstIncIds ++ keys.filter fun o => refsOf table o = ∅ := by
  induction keys generalizing table firstIncIds with
  | nil => simp
  | cons k keys ih =>
    obtain ⟨hk,hnodup⟩ := nodup_cons.mp hnodup
    obtain ⟨hrefs,hfirst⟩ := ih (table.insert k (insert refId (refsOf table k))) hnodup
      (if refsOf table k = ∅ then firstIncIds ++ [k] else firstIncIds)
    have hsame : keys.filter (fun o => decide (refsOf (table.insert k (insert refId (refsOf table k))) o = ∅)) =
        keys.filter fun o => decide (refsOf table o = ∅) := by
      apply filter_congr
      intro o ho
      have hne : o ≠ k := fun heq => hk (heq ▸ ho)
      simp [refsOf_insert,hne]
    constructor
    · intro o
      rw [foldl_cons]
      refine (hrefs o).trans ?_
      by_cases ho : o = k
      · simp [ho,hk,refsOf_insert]
      · simp [ho,refsOf_insert]
    · rw [foldl_cons]
      refine hfirst.trans ?_
      rw [hsame,filter_cons]
      split_ifs with hempty <;> simp_all

/-- When all pairs are there, every key loses the referrer; those without any left are reported. -/
theorem eraseReferrer_of_mem {keys : List Bytes} (hnodup : keys.Nodup)
    (hmem : ∀ o ∈ keys, refId ∈ refsOf table o) (finishDecIds : List Bytes) :
    ∃ table', eraseReferrer refId keys table finishDecIds =
        (none, table', finishDecIds ++ keys.filter fun o => (refsOf table o).erase refId = ∅) ∧
      ∀ o, refsOf table' o = if o ∈ keys then (refsOf table o).erase refId else refsOf table o := by
  induction keys generalizing table finishDecIds with
  | nil => exact ⟨table,by simp [eraseReferrer],by simp⟩
  | cons k keys ih =>
    obtain ⟨hk,hnodup⟩ := nodup_cons.mp hnodup
    have hin := hmem k mem_cons_self
    have hlookup : table.lookup k = some (refsOf table k) := by
      unfold refsOf at hin ⊢
      cases hl : table.lookup k with
      | none => simp [hl] at hin
      | some refs => rfl
    -- what the first turn leaves, whether the entry stays or goes
    obtain ⟨table₁,finish₁,hturn,hfinish,hrefs₁⟩ : ∃ table₁ finish₁,
        eraseReferrer refId (k :: keys) table finishDecIds = eraseReferrer refId keys table₁ finish₁ ∧
        finish₁ = finishDecIds ++ (if (refsOf table k).erase refId = ∅ then [k] else []) ∧
        ∀ o, refsOf table₁ o = if o = k then (refsOf table k).erase refId else refsOf table o := by
      by_cases hempty : (refsOf table k).erase refId = ∅
      · refine ⟨table.erase k,finishDecIds ++ [k],by simp [eraseReferrer,hlookup,hin,hempty],
          by simp [hempty],?_⟩
        intro o
        rw [refsOf_erase,hempty]
      · exact ⟨table.insert k ((refsOf table k).erase refId),finishDecIds,
          by simp [eraseReferrer,hlookup,hin,hempty],by simp [hempty],
          fun o => refsOf_insert table k o _⟩
    have hother : ∀ o ∈ keys, refsOf table₁ o = refsOf table o := by
      intro o ho
      have hne : o ≠ k := fun heq => hk (heq ▸ ho)
      rw [hrefs₁,if_neg hne]
    obtain ⟨table',hrest,hrefs⟩ := ih table₁ hnodup
      (fun o ho => by rw [hother o ho]; exact hmem o (mem_cons_of_mem _ ho)) finish₁
    refine ⟨table',?_,?_⟩
    · rw [hturn,hrest,hfinish,filter_cons,append_assoc]
      have hsame : keys.filter (fun o => decide ((refsOf table₁ o).erase refId = ∅)) =
          keys.filter fun o => decide ((refsOf table o).erase refId = ∅) :=
        filter_congr fun o ho => by rw [hother o ho]
      rw [hsame]
      split_ifs with hempty <;> simp_all
    · intro o
      rw [hrefs,hrefs₁]
      by_cases ho : o = k
      · simp [ho,hk]
      · simp [ho]

end Loops

section Calls

variable {κ : Type} [DecidableEq κ] (t : ObjectGlobalRefTable κ)

def holds (refId : κ) (objectKey : Bytes) : Bool := ((t.clientRefTable.lookup refId).getD {}).contains objectKey

def referrers (objectKey : Bytes) : Finset κ := refsOf t.objectRefTable objectKey

def TablesAgree : Prop := ∀ refId objectKey, t.holds refId objectKey = true ↔ refId ∈ t.referrers objectKey

theorem gIncreaseRef_spec (refId : κ) (objectKeys : List (Bytes × Status)) (isRemoteClient : Bool) :
    ∃ keys : List Bytes, keys.Nodup ∧ (∀ o ∈ keys, t.holds refId o = false) ∧
      (∀ r o, (t.gIncreaseRef refId objectKeys isRemoteClient).2.holds r o = true ↔
        t.holds r o = true ∨ r = refId ∧ o ∈ keys) ∧
      (∀ o, (t.gIncreaseRef refId objectKeys isRemoteClient).2.referrers o =
        if o ∈ keys then insert refId (t.referrers o) else t.referrers o) ∧
      (t.gIncreaseRef refId objectKeys isRemoteClient).1.changedIds = keys.filter fun o => t.referrers o = ∅ := by
  have hloop := (Increased.start ((t.clientRefTable.lookup refId).getD {})).foldl objectKeys
  unfold gIncreaseRef
  dsimp only
  generalize objectKeys.foldl (fun st p => increaseKey st p.1 p.2) _ = st at hloop ⊢
  have hperm := perm_insertionSort (· ≤ ·) st.successVec
  obtain ⟨hrefs,hfirst⟩ := foldl_recordReferrer t.objectRefTable refId (hperm.nodup_iff.mpr hloop.nodup) []
  refine ⟨st.successVec.insertionSort (· ≤ ·),hperm.nodup_iff.mpr hloop.nodup,?_,?_,hrefs,hfirst⟩
  · intro o ho
    exact hloop.new o (hperm.mem_iff.mp ho)
  · intro r o
    rw [hperm.mem_iff]
    unfold holds
    by_cases hr : r = refId
    · subst hr
      simp [hloop.contains]
    · simp [hr,Finmap.lookup_insert_of_ne]

theorem holds_tryEraseClientId (refId : κ) (isRemoteClient : Bool) (r : κ) (o : Bytes) : (t.tryEraseClientId refId isRemoteClient).holds r o = t.holds r o := by
  unfold tryEraseClientId holds
  cases hinfo : t.clientRefTable.lookup refId with
  | none => cases isRemoteClient <;> rfl
  | some info =>
    by_cases hempty : info.checkIsRefIdsEmpty = true
    · simp only [hempty,if_true]
      by_cases hr : r = refId
      · subst hr
        simp [hinfo,ObjectRefInfo.contains_of_checkIsRefIdsEmpty hempty]
      · simp [Finmap.lookup_erase_ne hr]
    · simp [hempty]

theorem objectRefTable_tryEraseClientId (refId : κ) (isRemoteClient : Bool) :
    (t.tryEraseClientId refId isRemoteClient).objectRefTable = t.objectRefTable := by
  unfold tryEraseClientId
  split <;> split_ifs <;> rfl

theorem gDecreaseRef_spec {t : ObjectGlobalRefTable κ} (hagree : t.TablesAgree) {refId : κ}
    {objectKeys : List (Bytes × Status)} (isRemoteClient : Bool)
    (hremoved : ∀ p ∈ objectKeys, t.holds refId p.1 = true → p.2.isOk = true) :
    ∃ keys : List Bytes, keys.Nodup ∧ (∀ o ∈ keys, t.holds refId o = true) ∧
      (∀ r o, (t.gDecreaseRef refId objectKeys isRemoteClient).2.holds r o = true ↔
        t.holds r o = true ∧ ¬ (r = refId ∧ o ∈ keys)) ∧
      (∀ o, (t.gDecreaseRef refId objectKeys isRemoteClient).2.referrers o =
        if o ∈ keys then (t.referrers o).erase refId else t.referrers o) ∧
      (t.gDecreaseRef refId objectKeys isRemoteClient).1.changedIds =
        keys.filter fun o => (t.referrers o).erase refId = ∅ := by
  unfold gDecreaseRef
  cases hinfo : t.clientRefTable.lookup refId with
  | none => exact ⟨[],by simp⟩
  | some info =>
    have hholds : ∀ o, t.holds refId o = info.contains o := by
      intro o
      rw [holds,hinfo,Option.getD_some]
    have hloop := (Decreased.start info).foldl fun p hp hc => hremoved p hp (hholds p.1 ▸ hc)
    dsimp only
    generalize objectKeys.foldl (fun st p => decreaseKey st p.1 p.2) _ = st at hloop ⊢
    have hperm := perm_insertionSort (· ≤ ·) st.successVec
    have hnodup := hperm.nodup_iff.mpr hloop.nodup
    have hheld : ∀ o ∈ st.successVec.insertionSort (· ≤ ·), t.holds refId o = true := by
      intro o ho
      rw [hholds]
      exact hloop.held o (hperm.mem_iff.mp ho)
    rw [objectRefTable_tryEraseClientId]
    obtain ⟨table',herase,hrefs⟩ := eraseReferrer_of_mem t.objectRefTable refId hnodup
      (fun o ho => (hagree refId o).mp (hheld o ho)) []
    rw [herase]
    refine ⟨_,hnodup,hheld,?_,hrefs,rfl⟩
    intro r o
    change holds (tryEraseClientId _ refId isRemoteClient) r o = true ↔ _
    rw [holds_tryEraseClientId,hperm.mem_iff]
    by_cases hr : r = refId
    · subst hr
      rw [hholds]
      simp [holds,hloop.contains]
    · simp [hr,holds,Finmap.lookup_insert_of_ne]

end Calls

end ObjectGlobalRefTable

namespace RefCall

open ObjectGlobalRefTable

variable {κ : Type} [DecidableEq κ]

/-- The persistence callback of every pair that the call removes succeeds. -/
def RemovalsSucceed (t : ObjectGlobalRefTable κ) : RefCall κ → Prop
  | increase _ _ _ => True
  | decrease refId objectKeys _ => ∀ p ∈ objectKeys, t.holds refId p.1 = true → p.2.isOk = true

/-- An object is reported, once, when its referrers become non-empty by an increase or empty by a
decrease. -/
def ReportsChanges (t : ObjectGlobalRefTable κ) (c : RefCall κ) : Prop :=
  (c.run t).1.changedIds.Nodup ∧
  ∀ o, o ∈ (c.run t).1.changedIds ↔
    match c with
    | increase _ _ _ => t.referrers o = ∅ ∧ (c.run t).2.referrers o ≠ ∅
    | decrease _ _ _ => t.referrers o ≠ ∅ ∧ (c.run t).2.referrers o = ∅

/-- What one call does to tables that agree. -/
theorem run_spec {t : ObjectGlobalRefTable κ} (hagree : t.TablesAgree) {c : RefCall κ}
    (hc : c.RemovalsSucceed t) : (c.run t).2.TablesAgree ∧ c.ReportsChanges t := by
  cases c with
  | increase refId objectKeys isRemoteClient =>
    obtain ⟨keys,hnodup,hnew,hholds,hrefs,hfirst⟩ := gIncreaseRef_spec t refId objectKeys isRemoteClient
    refine ⟨?_,?_,?_⟩
    · intro r o
      simp only [run,hholds,hrefs]
      have ho := hagree r o
      split_ifs with hk
      · simp [ho,hk,or_comm]
      · simp [ho,hk]
    · simp only [run,hfirst]
      exact hnodup.filter _
    · intro o
      simp only [run,hfirst,hrefs,mem_filter,decide_eq_true_eq]
      split_ifs with hk
      · simp [hk]
      · simp [hk]
  | decrease refId objectKeys isRemoteClient =>
    obtain ⟨keys,hnodup,hheld,hholds,hrefs,hfinish⟩ := gDecreaseRef_spec hagree isRemoteClient hc
    refine ⟨?_,?_,?_⟩
    · intro r o
      simp only [run,hholds,hrefs]
      have ho := hagree r o
      split_ifs with hk
      · simp [ho,hk,and_comm]
      · simp [ho,hk]
    · simp only [run,hfinish]
      exact hnodup.filter _
    · intro o
      simp only [run,hfinish,hrefs,mem_filter,decide_eq_true_eq]
      split_ifs with hk
      · have hmem := (hagree refId o).mp (hheld o hk)
        have hne : t.referrers o ≠ ∅ := Finset.ne_empty_of_mem hmem
        simp [hk,hne]
      · simp [hk]

end RefCall

section Results

open ObjectGlobalRefTable

variable {κ : Type} [DecidableEq κ]

/-- As long as no removal fails to persist, the two tables agree after every sequence of calls, a
call reports exactly the objects that get their first or lose their last referrer, and no object
reported as finished is held by anyone. -/
theorem references_agree {t : ObjectGlobalRefTable κ}
    (h : (refTableMachine κ).ReachableBy (fun t c => c.RemovalsSucceed t) t) :
    t.TablesAgree ∧ ∀ c : RefCall κ, c.RemovalsSucceed t → c.ReportsChanges t ∧
      ∀ refId objectKeys isRemoteClient, c = .decrease refId objectKeys isRemoteClient →
        ∀ o ∈ (c.run t).1.changedIds, ∀ r, (c.run t).2.holds r o = false := by
  have hagree : t.TablesAgree := by
    refine h.invariant ?_ ?_
    · intro r o
      simp [refTableMachine,holds,referrers,refsOf]
    · intro t c t' ht hc hstep
      obtain rfl : (c.run t).2 = t' := Option.some.inj hstep
      exact (RefCall.run_spec ht hc).1
  refine ⟨hagree,?_⟩
  intro c hc
  obtain ⟨hagree',hreports⟩ := RefCall.run_spec hagree hc
  refine ⟨hreports,?_⟩
  rintro refId objectKeys isRemoteClient rfl o ho r
  have hempty := ((hreports.2 o).mp ho).2
  rw [← Bool.not_eq_true,hagree' r o,hempty]
  exact Finset.notMem_empty r

end Results

/-- A removal that fails to persist: the referrer keeps the object, the object loses the referrer
and is reported as finished. -/
theorem references_disagree_after_failed_removal :
    let t := ((RefCall.increase (ascii "r") [(ascii "o", .success)] false).run {}).2
    let c := RefCall.decrease (ascii "r") [(ascii "o", ⟨.kvstoreError,"remove"⟩)] false
    (refTableMachine Bytes).Reachable t ∧ (c.run t).1.changedIds = [ascii "o"] ∧
      (c.run t).2.holds (ascii "r") (ascii "o") = true ∧
      ascii "r" ∉ (c.run t).2.referrers (ascii "o") := by
  refine ⟨Machine.Reachable.step .init rfl,?_,?_,?_⟩ <;> decide

/-- Two referrers hold an object and one lets it go. -/
theorem references_agree_two_referrers :
    let t := ((RefCall.increase (ascii "r") [(ascii "o", .success)] false).run {}).2
    let t' := ((RefCall.increase (ascii "s") [(ascii "o", .success)] true).run t).2
    let c := RefCall.decrease (ascii "r") [(ascii "o", .success)] false
    t'.TablesAgree ∧ c.RemovalsSucceed t' ∧ (c.run t').1.changedIds = [] ∧ c.ReportsChanges t' := by
  intro t t' c
  have hfirst : (refTableMachine Bytes).ReachableBy (fun t c => c.RemovalsSucceed t) t :=
    .step (a := .increase (ascii "r") [(ascii "o", .success)] false) .init trivial rfl
  have hreach : (refTableMachine Bytes).ReachableBy (fun t c => c.RemovalsSucceed t) t' :=
    .step (a := .increase (ascii "s") [(ascii "o", .success)] true) hfirst trivial rfl
  have hc : c.RemovalsSucceed t' := by
    intro p hp _
    rw [mem_singleton.mp hp]
    rfl
  obtain ⟨hagree,hcalls⟩ := references_agree hreach
  exact ⟨hagree,hc,by decide,(hcalls c hc).1⟩

end Datasystem.ObjectCache
