import Datasystem.Lib.Bytes
import Datasystem.Lib.Keyed
import Datasystem.Lib.RingBuffer
import Datasystem.Status

/-!
# The keys of the metastore

A record of a key is the message that is sent to clients and three integers that repeat fields of the message;
compares and later puts read the integers. The functions here are the sections of `KVManager` that hold its
mutex.
-/

namespace Datasystem.Metastore

open Bytes Keyed

structure KeyValue where
  key : Bytes := []
  createRevision : Int := 0
  modRevision : Int := 0
  version : Int := 0
  value : Bytes := []
  lease : Int := 0
deriving DecidableEq, Repr

inductive EventType where
  | put
  | delete
deriving DecidableEq, Repr

structure HistoricalEntry where
  revision : Int
  type : EventType
  kv : KeyValue
deriving DecidableEq, Repr

def maxHistoryEntries : Nat := 5

abbrev HistoryRingBuffer := RingBuffer maxHistoryEntries HistoricalEntry

instance instNeZeroMaxHistoryEntries : NeZero maxHistoryEntries := ⟨by decide⟩

def HistoryRingBuffer.empty : HistoryRingBuffer := RingBuffer.empty ⟨0,.put,{}⟩

/-- `GetRange`; no end stands for `INT64_MAX`. -/
def HistoryRingBuffer.getRange (history : HistoryRingBuffer) (startRevision : Int)
    (endRevision : Option Int) : List HistoricalEntry :=
  history.toList.filter fun entry =>
    startRevision ≤ entry.revision && endRevision.all fun e => entry.revision < e

structure Numbers where
  createRevision : Int
  modRevision : Int
  version : Int
deriving DecidableEq, Repr

/-- The integers repeat the fields of a message. -/
def KeyValue.numbers (kv : KeyValue) : Numbers := ⟨kv.createRevision,kv.modRevision,kv.version⟩

structure KeyInfo where
  kv : KeyValue
  numbers : Numbers
  history : HistoryRingBuffer := HistoryRingBuffer.empty
deriving DecidableEq

/-- `PreparePutInfo` does not set the integers; they are whatever the memory holds. -/
def preparePutInfo (key value : Bytes) (lease : Int) (uninitialized : Numbers) : KeyInfo where
  kv := { key := key, value := value, lease := lease }
  numbers := uninitialized

def recordPutHistory (info : KeyInfo) (revision : Int) : KeyInfo :=
  { info with history := info.history.add ⟨revision,.put,info.kv⟩ }

/-- What `UpdatePutData` reports: the record that was replaced, the new revision, and the message with
the fields that it has set. -/
structure PutUpdate where
  prevKv : Option KeyValue
  newRevision : Int
  kv : KeyValue
deriving DecidableEq, Repr

def PutUpdate.oldLease (u : PutUpdate) : Int := u.prevKv.elim 0 KeyValue.lease

/-- The message that `Put` has when it is done; the stored record does not get the modification
revision. -/
def PutUpdate.newKv (u : PutUpdate) : KeyValue := { u.kv with modRevision := u.newRevision }

theorem KeyInfo.sorted_nil : Sorted Prod.fst ([] : List (Bytes × KeyInfo)) := List.Pairwise.nil

theorem HistoryRingBuffer.sorted_nil : Sorted Prod.fst ([] : List (Bytes × HistoryRingBuffer)) := List.Pairwise.nil

structure KvManager where
  data : List (Bytes × KeyInfo) := []
  deletedHistory : List (Bytes × HistoryRingBuffer) := []
  revision : Int := 1
  /-- The mutex is held exclusively. -/
  locked : Bool := false
  data_sorted : Sorted Prod.fst data := by exact KeyInfo.sorted_nil
  deletedHistory_sorted : Sorted Prod.fst deletedHistory := by exact HistoryRingBuffer.sorted_nil
deriving DecidableEq

/-- `KeyInRange`: one key, all keys from the start on, or the keys up to the end. -/
def keyInRange (key start rangeEnd : Bytes) : Bool :=
  if key < start then false
  else if rangeEnd.isEmpty then key = start
  else if rangeEnd = [0] then true
  else key < rangeEnd

namespace KvManager

variable (s : KvManager)

def find (key : Bytes) : Option KeyInfo := (lookup Prod.fst key s.data).map Prod.snd

def findDeleted (key : Bytes) : Option HistoryRingBuffer := (lookup Prod.fst key s.deletedHistory).map Prod.snd

def setInfo (key : Bytes) (info : KeyInfo) : KvManager :=
  { s with data := upsert Prod.fst (key, info) s.data, data_sorted := s.data_sorted.upsert _ }

def eraseInfo (key : Bytes) : KvManager :=
  { s with data := remove Prod.fst key s.data, data_sorted := s.data_sorted.remove key }

def setDeleted (key : Bytes) (history : HistoryRingBuffer) : KvManager :=
  { s with
    deletedHistory := upsert Prod.fst (key, history) s.deletedHistory
    deletedHistory_sorted := s.deletedHistory_sorted.upsert _ }

def eraseDeleted (key : Bytes) : KvManager :=
  { s with
    deletedHistory := remove Prod.fst key s.deletedHistory
    deletedHistory_sorted := s.deletedHistory_sorted.remove key }

@[simp] theorem find_setInfo (key : Bytes) (info : KeyInfo) (k : Bytes) :
    (s.setInfo key info).find k = if k = key then some info else s.find k := by
  simp only [find,setInfo,lookup_upsert]
  split_ifs <;> rfl

@[simp] theorem find_eraseInfo (key k : Bytes) : (s.eraseInfo key).find k = if k = key then none else s.find k := by
  simp only [find,eraseInfo,lookup_remove]
  split_ifs <;> rfl

@[simp] theorem find_setDeleted (key : Bytes) (history : HistoryRingBuffer) (k : Bytes) :
    (s.setDeleted key history).find k = s.find k := rfl

@[simp] theorem findDeleted_setDeleted (key : Bytes) (history : HistoryRingBuffer) (k : Bytes) :
    (s.setDeleted key history).findDeleted k = if k = key then some history else s.findDeleted k := by
  simp only [findDeleted,setDeleted,lookup_upsert]
  split_ifs <;> rfl

@[simp] theorem findDeleted_eraseDeleted (key k : Bytes) :
    (s.eraseDeleted key).findDeleted k = if k = key then none else s.findDeleted k := by
  simp only [findDeleted,eraseDeleted,lookup_remove]
  split_ifs <;> rfl

@[simp] theorem findDeleted_setInfo (key : Bytes) (info : KeyInfo) (k : Bytes) :
    (s.setInfo key info).findDeleted k = s.findDeleted k := rfl

@[simp] theorem findDeleted_eraseInfo (key k : Bytes) : (s.eraseInfo key).findDeleted k = s.findDeleted k := rfl

def inRange (start rangeEnd : Bytes) : List (Bytes × KeyInfo) := s.data.filter fun e => keyInRange e.1 start rangeEnd

theorem mem_inRange {s : KvManager} {start rangeEnd : Bytes} {e : Bytes × KeyInfo} :
    e ∈ s.inRange start rangeEnd ↔ s.find e.1 = some e.2 ∧ keyInRange e.1 start rangeEnd = true := by
  rw [inRange,List.mem_filter]
  apply and_congr_left
  intro _
  rw [find,Option.map_eq_some_iff]
  constructor
  · intro he
    exact ⟨e,s.data_sorted.lookup_of_mem he,rfl⟩
  · rintro ⟨e',he',hinfo⟩
    obtain ⟨hmem,hkey⟩ := s.data_sorted.lookup_eq_some.mp he'
    exact (Prod.ext hkey hinfo : e' = e) ▸ hmem

variable (key : Bytes) (info : KeyInfo)

/-- `InheritKeyHistory`: the history of the key, or the one it had when it was deleted. -/
def inheritKeyHistory : KeyInfo × KvManager :=
  match s.find key with
  | some old => ({ info with history := old.history }, s)
  | none =>
    match s.findDeleted key with
    | some history => ({ info with history := history }, s.eraseDeleted key)
    | none => (info, s)

/-- The end of every put: the record inherits the history of its key, notes the put in it and is stored. -/
def storePut (revision : Int) : KvManager :=
  let inherited := s.inheritKeyHistory key info
  inherited.2.setInfo key (recordPutHistory inherited.1 revision)

def updatePutData (key value : Bytes) (lease : Int) (uninitialized : Numbers) : PutUpdate × KvManager :=
  let newRevision := s.revision + 1
  let info := preparePutInfo key value lease uninitialized
  let kv :=
    match s.find key with
    | some old =>
      { info.kv with createRevision := old.numbers.createRevision, version := old.numbers.version + 1 }
    | none => { info.kv with createRevision := newRevision, version := 1 }
  (⟨(s.find key).map KeyInfo.kv,newRevision,kv⟩,
    ({ s with revision := newRevision }).storePut key { info with kv := kv } newRevision)

/-- The part of `AttachNewLeaseWithRollback` that puts the data back. -/
def restore : Option KeyValue → KvManager
  | some prevKv => s.setInfo key { kv := prevKv, numbers := prevKv.numbers }
  | none => s.eraseInfo key

def recordDeleteHistory (kv : KeyValue) (revision : Int) : KvManager :=
  match s.find key with
  | none => s
  | some info => s.setDeleted key (info.history.add ⟨revision,.delete,kv⟩)

/-- A record leaves the store: its last message gets the revision of the delete. -/
def eraseRecorded (revision : Int) (s : KvManager) (e : Bytes × KeyInfo) : KvManager :=
  (s.recordDeleteHistory e.1 { e.2.kv with modRevision := revision } revision).eraseInfo e.1

/-- The section of `Delete` that holds the mutex, with the messages of the deleted records. -/
def deleteData (key rangeEnd : Bytes) : List KeyValue × KvManager :=
  let revision := s.revision + 1
  let deleted := s.inRange key rangeEnd
  (deleted.map fun e => { e.2.kv with modRevision := revision },
    deleted.foldl (eraseRecorded revision) { s with revision := revision })

@[simp] theorem kv_inheritKeyHistory : (s.inheritKeyHistory key info).1.kv = info.kv := by
  unfold inheritKeyHistory
  split
  · rfl
  · split <;> rfl

@[simp] theorem revision_inheritKeyHistory : (s.inheritKeyHistory key info).2.revision = s.revision := by
  unfold inheritKeyHistory
  split
  · rfl
  · split <;> rfl

@[simp] theorem revision_storePut (revision : Int) : (s.storePut key info revision).revision = s.revision :=
  revision_inheritKeyHistory s key info

theorem eraseRecorded_of_find {s : KvManager} {e : Bytes × KeyInfo} (he : s.find e.1 = some e.2) (revision : Int) :
    s.eraseRecorded revision e = (s.setDeleted e.1
      (e.2.history.add ⟨revision,.delete,{ e.2.kv with modRevision := revision }⟩)).eraseInfo e.1 := by
  simp [eraseRecorded,recordDeleteHistory,he]

@[simp] theorem revision_eraseRecorded (revision : Int) (e : Bytes × KeyInfo) :
    (s.eraseRecorded revision e).revision = s.revision := by
  simp only [eraseRecorded,eraseInfo,recordDeleteHistory]
  split <;> rfl

@[simp] theorem revision_eraseAll (revision : Int) (l : List (Bytes × KeyInfo)) :
    (l.foldl (eraseRecorded revision) s).revision = s.revision := by
  induction l generalizing s with
  | nil => rfl
  | cons e l ih => rw [List.foldl_cons,ih,revision_eraseRecorded]

section Locked

variable (locked : Bool)

theorem setLocked_self {s : KvManager} {locked : Bool} (h : s.locked = locked) : { s with locked := locked } = s := by
  subst h
  rfl

theorem storePut_setLocked (key : Bytes) (info : KeyInfo) (revision : Int) :
    ({ s with locked := locked }).storePut key info revision =
      { s.storePut key info revision with locked := locked } := by
  have hfind : ({ s with locked := locked } : KvManager).find key = s.find key := rfl
  have hdeleted : ({ s with locked := locked } : KvManager).findDeleted key = s.findDeleted key := rfl
  unfold storePut inheritKeyHistory
  rw [hfind,hdeleted]
  cases s.find key with
  | some old => rfl
  | none => cases s.findDeleted key <;> rfl

theorem eraseRecorded_setLocked (revision : Int) (e : Bytes × KeyInfo) :
    ({ s with locked := locked }).eraseRecorded revision e = { s.eraseRecorded revision e with locked := locked } := by
  have hfind : ({ s with locked := locked } : KvManager).find e.1 = s.find e.1 := rfl
  unfold eraseRecorded recordDeleteHistory
  rw [hfind]
  cases s.find e.1 <;> rfl

theorem eraseAll_setLocked (revision : Int) (l : List (Bytes × KeyInfo)) :
    l.foldl (eraseRecorded revision) { s with locked := locked } =
      { l.foldl (eraseRecorded revision) s with locked := locked } := by
  induction l generalizing s with
  | nil => rfl
  | cons e l ih => rw [List.foldl_cons,eraseRecorded_setLocked,ih,List.foldl_cons]

@[simp] theorem locked_storePut (key : Bytes) (info : KeyInfo) (revision : Int) :
    (s.storePut key info revision).locked = s.locked := by
  have h := congrArg KvManager.locked (storePut_setLocked s s.locked key info revision)
  exact h

@[simp] theorem locked_eraseAll (revision : Int) (l : List (Bytes × KeyInfo)) :
    (l.foldl (eraseRecorded revision) s).locked = s.locked := by
  have h := congrArg KvManager.locked (eraseAll_setLocked s s.locked revision l)
  exact h

end Locked

def get (s : KvManager) (key : Bytes) : Except Status KeyValue :=
  match s.find key with
  | none => .error ⟨.notFound,"Key not found"⟩
  | some info => .ok info.kv

/-- `Range`, which takes the mutex shared: `none` while it is held exclusively. -/
def range (s : KvManager) (start rangeEnd : Bytes) (limit : Int) (countOnly keysOnly : Bool) :
    Option (List KeyValue) :=
  if s.locked then none
  else
    let results := (s.inRange start rangeEnd).map fun e => if keysOnly then { key := e.1 } else e.2.kv
    let limited := if 0 < limit ∧ limit < results.length then results.take limit.toNat else results
    some (if countOnly then [] else limited)

def getHistory (s : KvManager) (key : Bytes) (startRevision : Int) (endRevision : Option Int) :
    List HistoricalEntry :=
  match s.find key with
  | some info => info.history.getRange startRevision endRevision
  | none => (s.findDeleted key).elim [] fun history => history.getRange startRevision endRevision

/-- `RangeHistory`, which takes the mutex shared: the histories of all keys of a range, sorted by key and
then by revision. -/
def rangeHistory (s : KvManager) (start rangeEnd : Bytes) (startRevision : Int) : Option (List HistoricalEntry) :=
  if s.locked then none
  else
    let live := (s.inRange start rangeEnd).flatMap fun e =>
      (e.2.history.getRange startRevision none).map fun entry => (e.1, entry)
    let deleted := (s.deletedHistory.filter fun e => keyInRange e.1 start rangeEnd).flatMap fun e =>
      (e.2.getRange startRevision none).map fun entry => (e.1, entry)
    some (((live ++ deleted).insertionSort fun a b =>
      a.1 < b.1 ∨ (a.1 = b.1 ∧ a.2.revision ≤ b.2.revision)).map Prod.snd)

end KvManager

end Datasystem.Metastore
