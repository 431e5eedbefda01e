import Datasystem.Lib.MapSum
import Datasystem.ObjectCache.ObjectRefInfo

/-!
# References to shared memory

A client has its own counts, unique or multiple, the unit has one count over all clients, and the allocator
counts the units that are referenced at all.
-/

namespace Datasystem.ObjectCache

structure ShmClientInfo where
  isUniqueCnt : Bool := true
  refs : ObjectRefInfo isUniqueCnt Bytes := {}

structure MaybeExpiredShmItem where
  requestTimeoutMs : Int
  expireTimeMs : Nat
  clientId : Bytes
  shmId : Bytes
deriving DecidableEq, Repr

structure SharedMemoryRefTable where
  clientRefTable : Finmap fun _ : Bytes => ShmClientInfo := ∅
  /-- The clients of a unit. -/
  shmRefTable : Finmap fun _ : Bytes => Finset Bytes := ∅
  /-- By the time of expiry. -/
  maybeExpiredShmQueue : List MaybeExpiredShmItem := []
  maybeExpiredShmTable : Finmap fun _ : Bytes => List Bytes := ∅
  /-- What the units themselves count. -/
  refCount : Bytes → Int32 := fun _ => 0
  /-- The counters of the allocator. -/
  refPageCount : Int := 0
  noRefPageCount : Int := 0

namespace SharedMemoryRefTable

def shmRefReconcileMinExpireMs : Int := 1000

def shmRefReconcileMaxExpireMs : Nat := 60000

def maxMaybeExpiredShmIdsPerReconcile : Nat := 1024

def getMaybeExpiredDeadlineMs (requestTimeoutMs : Int) (nowMs : Nat) : Nat :=
  nowMs + min (max requestTimeoutMs shmRefReconcileMinExpireMs).toNat shmRefReconcileMaxExpireMs

variable (t : SharedMemoryRefTable)

def recordMaybeExpiredShm (clientId shmId : Bytes) (requestTimeoutMs : Int) (nowMs : Nat) : SharedMemoryRefTable :=
  { t with
    maybeExpiredShmQueue := t.maybeExpiredShmQueue.orderedInsert (fun a b => a.expireTimeMs ≤ b.expireTimeMs)
      ⟨requestTimeoutMs,getMaybeExpiredDeadlineMs requestTimeoutMs nowMs,clientId,shmId⟩ }

variable (clientId : Bytes)

def initShmRefForClient (supportMultiShmRefCount : Bool) : SharedMemoryRefTable :=
  if clientId ∈ t.clientRefTable then t
  else { t with clientRefTable := t.clientRefTable.insert clientId ⟨!supportMultiShmRefCount,{}⟩ }

def clientTableGetOrInsert : ShmClientInfo := (t.clientRefTable.lookup clientId).getD {}

/-- `AddShmUnit`, and the treatment of one unit in `AddShmUnits`. -/
def addShmUnit (clientId shmId : Bytes) (requestTimeoutMs : Int) (nowMs : Nat) : SharedMemoryRefTable :=
  let info := t.clientTableGetOrInsert clientId
  let added := info.refs.addRef shmId
  let count := if added.1 then t.refCount shmId + 1 else t.refCount shmId
  let first := decide (count = 1)
  recordMaybeExpiredShm
    { t with
      clientRefTable := t.clientRefTable.insert clientId ⟨info.isUniqueCnt,added.2⟩
      refCount := Function.update t.refCount shmId count
      shmRefTable := t.shmRefTable.insert shmId (insert clientId (refsOf t.shmRefTable shmId))
      noRefPageCount := if first then t.noRefPageCount - 1 else t.noRefPageCount
      refPageCount := if first then t.refPageCount + 1 else t.refPageCount }
    clientId shmId requestTimeoutMs nowMs

/-- `AddShmUnits` for a client that `ClientTableGetOrInsert` has found or entered; null pointers are skipped. -/
def addShmUnits (shmUnits : List (Option Bytes)) (requestTimeoutMs : Int) (nowMs : Nat) : SharedMemoryRefTable :=
  shmUnits.foldl (fun t shmUnit =>
    match shmUnit with
    | none => t
    | some shmId => t.addShmUnit clientId shmId requestTimeoutMs nowMs)
    { t with clientRefTable := t.clientRefTable.insert clientId (t.clientTableGetOrInsert clientId) }

/-- `RemoveShmUnitDetail` for a client and a unit that were found in the tables. -/
def removeShmUnitDetail (forceRemoveClient : Bool) (shmId : Bytes)
    (clientIds : Finset Bytes) (info : ShmClientInfo) : SharedMemoryRefTable :=
  let removed := info.refs.removeAndGetRefCnt shmId
  let count :=
    if removed.1.1 then
      if 0 < t.refCount shmId then t.refCount shmId - 1 else t.refCount shmId
    else t.refCount shmId
  let last := decide (count = 0)
  let left := clientIds.erase clientId
  { t with
    clientRefTable := t.clientRefTable.insert clientId ⟨info.isUniqueCnt,removed.2⟩
    refCount := Function.update t.refCount shmId count
    noRefPageCount := if last then t.noRefPageCount + 1 else t.noRefPageCount
    refPageCount := if last then t.refPageCount - 1 else t.refPageCount
    shmRefTable :=
      if !forceRemoveClient && decide (0 < removed.1.2) then t.shmRefTable
      else if left = ∅ then t.shmRefTable.erase shmId
      else t.shmRefTable.insert shmId left }

def clearMaybeExpiredShmIds (shmIds : List Bytes) : SharedMemoryRefTable :=
  if shmIds = [] then t
  else
    match t.maybeExpiredShmTable.lookup clientId with
    | none => t
    | some ids =>
      let left := ids.filter fun i => i ∉ shmIds
      { t with
        maybeExpiredShmTable :=
          if left = [] then t.maybeExpiredShmTable.erase clientId else t.maybeExpiredShmTable.insert clientId left }

def removeShmUnit (clientId shmId : Bytes) : SharedMemoryRefTable :=
  match t.clientRefTable.lookup clientId with
  | none => t
  | some info =>
    match t.shmRefTable.lookup shmId with
    | none => t
    | some clientIds =>
      (t.removeShmUnitDetail clientId false shmId clientIds info).clearMaybeExpiredShmIds clientId [shmId]

def getMaybeExpiredShmIds : List Bytes :=
  ((t.maybeExpiredShmTable.lookup clientId).getD []).take maxMaybeExpiredShmIdsPerReconcile

def reconcileClientShmRefs (confirmedExpiredShmIds : List Bytes) : List Bytes × SharedMemoryRefTable :=
  let t' := (confirmedExpiredShmIds.foldl (fun t shmId => t.removeShmUnit clientId shmId) t).clearMaybeExpiredShmIds
    clientId confirmedExpiredShmIds
  (t'.getMaybeExpiredShmIds clientId, t')

def removeOfClient (t : SharedMemoryRefTable) (shmId : Bytes) : SharedMemoryRefTable :=
  match t.clientRefTable.lookup clientId, t.shmRefTable.lookup shmId with
  | some info, some clientIds => t.removeShmUnitDetail clientId true shmId clientIds info
  | _, _ => t

/-- `RemoveClient`, with the ids of the client's units in the order in which `GetRefIds` finds them. -/
def removeClient (shmIds : List Bytes) : Option SharedMemoryRefTable :=
  match t.clientRefTable.lookup clientId with
  | none => some t
  | some info =>
    if shmIds.Nodup ∧ shmIds.toFinset = info.refs.objectKeys.keys then
      let t' := shmIds.foldl (removeOfClient clientId) t
      some { t' with
        clientRefTable := t'.clientRefTable.erase clientId
        maybeExpiredShmTable := t'.maybeExpiredShmTable.erase clientId }
    else none

def clientContainsShm (clientId shmId : Bytes) : Bool :=
  match t.clientRefTable.lookup clientId with
  | none => false
  | some info => info.refs.contains shmId

/-- An item of the queue whose time is over enters the table, or goes back to the queue if it is there. -/
def flushItem (nowMs : Nat) (t : SharedMemoryRefTable) (item : MaybeExpiredShmItem) : SharedMemoryRefTable :=
  if !t.clientContainsShm item.clientId item.shmId then t
  else
    let shmIds := (t.maybeExpiredShmTable.lookup item.clientId).getD []
    if item.shmId ∈ shmIds then t.recordMaybeExpiredShm item.clientId item.shmId item.requestTimeoutMs nowMs
    else
      { t with maybeExpiredShmTable := t.maybeExpiredShmTable.insert item.clientId (shmIds ++ [item.shmId]) }

def flushMaybeExpiredQueue (nowMs : Nat) : SharedMemoryRefTable :=
  (t.maybeExpiredShmQueue.takeWhile fun item => item.expireTimeMs ≤ nowMs).foldl (flushItem nowMs)
    { t with maybeExpiredShmQueue := t.maybeExpiredShmQueue.dropWhile fun item => item.expireTimeMs ≤ nowMs }

end SharedMemoryRefTable

inductive ShmCall where
  | initShmRefForClient (clientId : Bytes) (supportMultiShmRefCount : Bool)
  | addShmUnit (clientId shmId : Bytes) (requestTimeoutMs : Int) (nowMs : Nat)
  | addShmUnits (clientId : Bytes) (shmUnits : List (Option Bytes)) (requestTimeoutMs : Int) (nowMs : Nat)
  | removeShmUnit (clientId shmId : Bytes)
  | reconcileClientShmRefs (clientId : Bytes) (confirmedExpiredShmIds : List Bytes)
  | removeClient (clientId : Bytes) (shmIds : List Bytes)
  | flushMaybeExpiredQueue (nowMs : Nat)
deriving DecidableEq, Repr

def ShmCall.step (t : SharedMemoryRefTable) : ShmCall → Option SharedMemoryRefTable
  | .initShmRefForClient clientId supportMultiShmRefCount => some (t.initShmRefForClient clientId supportMultiShmRefCount)
  | .addShmUnit clientId shmId requestTimeoutMs nowMs => some (t.addShmUnit clientId shmId requestTimeoutMs nowMs)
  | .addShmUnits clientId shmUnits requestTimeoutMs nowMs =>
    some (t.addShmUnits clientId shmUnits requestTimeoutMs nowMs)
  | .removeShmUnit clientId shmId => some (t.removeShmUnit clientId shmId)
  | .reconcileClientShmRefs clientId confirmedExpiredShmIds =>
    some (t.reconcileClientShmRefs clientId confirmedExpiredShmIds).2
  | .removeClient clientId shmIds => t.removeClient clientId shmIds
  | .flushMaybeExpiredQueue nowMs => some (t.flushMaybeExpiredQueue nowMs)

def shmMachine : Machine SharedMemoryRefTable ShmCall := ⟨{},ShmCall.step⟩

end Datasystem.ObjectCache
