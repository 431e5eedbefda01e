import Datasystem.Master.NestedManager

/-!
# Operations that workers are notified of

There is one record for a worker and an object, into which further operations are merged.
-/

namespace Datasystem.Master

/-- A set of operations: three for the worker and two for other masters. -/
structure NotifyWorkerOpType where
  primaryCopyInvalid : Bool := false
  removeMeta : Bool := false
  cacheInvalid : Bool := false
  deleteAllCopyMeta : Bool := false
  delete : Bool := false
deriving DecidableEq, Repr

namespace NotifyWorkerOpType

def clearNotifyWorkerOp (t : NotifyWorkerOpType) : NotifyWorkerOpType :=
  { t with primaryCopyInvalid := false, cacheInvalid := false, delete := false }

def clearNotifyMasterOp (t : NotifyWorkerOpType) : NotifyWorkerOpType :=
  { t with removeMeta := false, deleteAllCopyMeta := false }

def setFlag (target source : NotifyWorkerOpType) : NotifyWorkerOpType :=
  ⟨target.primaryCopyInvalid || source.primaryCopyInvalid,target.removeMeta || source.removeMeta,
    target.cacheInvalid || source.cacheInvalid,target.deleteAllCopyMeta || source.deleteAllCopyMeta,
    target.delete || source.delete⟩

def clearFlag (target source : NotifyWorkerOpType) : NotifyWorkerOpType :=
  ⟨target.primaryCopyInvalid && !source.primaryCopyInvalid,target.removeMeta && !source.removeMeta,
    target.cacheInvalid && !source.cacheInvalid,target.deleteAllCopyMeta && !source.deleteAllCopyMeta,
    target.delete && !source.delete⟩

def testAnyFlag (lhs rhs : NotifyWorkerOpType) : Bool :=
  lhs.primaryCopyInvalid && rhs.primaryCopyInvalid || lhs.removeMeta && rhs.removeMeta ||
    lhs.cacheInvalid && rhs.cacheInvalid || lhs.deleteAllCopyMeta && rhs.deleteAllCopyMeta || lhs.delete && rhs.delete

def value (t : NotifyWorkerOpType) : Nat :=
  t.primaryCopyInvalid.toNat + 2 * t.removeMeta.toNat + 4 * t.cacheInvalid.toNat + 8 * t.deleteAllCopyMeta.toNat +
    16 * t.delete.toNat

end NotifyWorkerOpType

structure NotifyWorkerOp where
  type : NotifyWorkerOpType := {}
  removeMetaVersion : Int := 0
  removeMetaAzNames : Finset Bytes := ∅
  deleteAllCopyMetaVersion : Int := 0
  deleteAllCopyMetaAzNames : Finset Bytes := ∅
  delObjectVersion : Int := 0
deriving DecidableEq

def cacheInvalidOp : NotifyWorkerOp := { type := { cacheInvalid := true } }

namespace NotifyWorkerOp

def merge (entry op : NotifyWorkerOp) : NotifyWorkerOp :=
  let notifyMasterOp := op.type.clearNotifyWorkerOp
  let entry := { entry with type := entry.type.setFlag notifyMasterOp }
  let entry :=
    if op.type.removeMeta then
      { entry with
        removeMetaVersion := op.removeMetaVersion
        removeMetaAzNames := entry.removeMetaAzNames ∪ op.removeMetaAzNames }
    else entry
  let entry :=
    if op.type.deleteAllCopyMeta then
      { entry with
        deleteAllCopyMetaVersion := op.deleteAllCopyMetaVersion
        deleteAllCopyMetaAzNames := entry.deleteAllCopyMetaAzNames ∪ op.deleteAllCopyMetaAzNames }
    else entry
  if op.type.clearNotifyMasterOp.value = 0 then entry
  else
    let entry :=
      if op.type.delete then { entry with delObjectVersion := max entry.delObjectVersion op.delObjectVersion } else entry
    let currWorkerOp := entry.type.clearNotifyMasterOp
    if op.type.value ≤ currWorkerOp.value then entry
    else { entry with type := (entry.type.clearFlag currWorkerOp).setFlag op.type }

end NotifyWorkerOp

/-- How the stores answer when an operation is persisted; if ETCD fails, it is taken back from RocksDB. -/
structure PersistOpAnswer extends StoreAnswer where
  takeBack : WriteAnswer := {}
deriving DecidableEq, Repr

def PersistOpAnswer.accepted (a : PersistOpAnswer) (c : StoreConfig) (type : WriteType) : Bool :=
  !c.isPersistenceEnabled ||
    a.rocks.status.isOk && (!c.etcdEnable || type = .rocksOnly || a.etcd.status.isOk)

section AddRecord

variable {κ ν : Type} [DecidableEq κ] (t : StoreTable κ ν) (c : StoreConfig) (key : κ) (value : ν) (type : WriteType)
  (a : PersistOpAnswer)

/-- A record is put into RocksDB, then into ETCD, and taken back from RocksDB if ETCD has failed. -/
def StoreTable.addRecord : Status × StoreTable κ ν :=
  if !c.isPersistenceEnabled then (.success, t)
  else
    let (rc, t) := t.putToRocksStore key value a.rocks
    if !rc.isOk then (rc, t)
    else
      let (rc, t) := t.putToEtcdStore c key value type a.etcd
      if !rc.isOk then (rc, (t.removeRocksKey key a.takeBack).2) else (rc, t)

theorem isOk_addRecord : (t.addRecord c key value type a).1.isOk = a.accepted c type := by
  unfold StoreTable.addRecord PersistOpAnswer.accepted
  cases hpersist : c.isPersistenceEnabled
  · simp
  · cases hrocks : a.rocks.status.isOk
    · simp [StoreTable.putToRocksStore,hrocks]
    · simp only [StoreTable.putToRocksStore,hrocks]
      rw [← StoreTable.isOk_putToEtcdStore c (if a.rocks.effect = true then { t with rocks := t.rocks.insert key value }
        else t) key value type a.etcd]
      simp
      split_ifs <;> simp_all

end AddRecord

structure NotifyWorkerOpEntry where
  op : NotifyWorkerOp
  writeType : WriteType := .rocksOnly
deriving DecidableEq

structure OCNotifyWorkerManager where
  /-- By worker and object. -/
  notifyWorkerOpTable : Finmap fun _ : Bytes × Bytes => NotifyWorkerOpEntry := ∅
  asyncWorkerOps : StoreTable (Bytes × Bytes) NotifyWorkerOp := {}
  /-- The workers that have failed, and whether they are dead. -/
  faultWorkers : Finmap fun _ : Bytes => Bool := ∅

namespace OCNotifyWorkerManager

variable (m : OCNotifyWorkerManager)

def isWorkerDead (workerId : Bytes) : Bool := m.faultWorkers.lookup workerId = some true

variable (c : StoreConfig)

def addAsyncWorkerOp (t : StoreTable (Bytes × Bytes) NotifyWorkerOp) (key : Bytes × Bytes)
    (op : NotifyWorkerOp) (type : WriteType) (a : PersistOpAnswer) :
    Status × StoreTable (Bytes × Bytes) NotifyWorkerOp :=
  if !c.isPersistenceEnabled then (.success, t)
  else
    let (rc, t) := t.putToRocksStore key op a.rocks
    if !rc.isOk then (rc, t)
    else
      let (rc, t) := t.putToEtcdStore c key op type a.etcd
      if !rc.isOk then (rc, (t.removeRocksKey key a.takeBack).2) else (rc, t)

def insertAsyncWorkerOp (workerId objectKey : Bytes) (op : NotifyWorkerOp)
    (type : WriteType) (a : PersistOpAnswer) : Status × OCNotifyWorkerManager :=
  if m.isWorkerDead workerId then (.success, m)
  else
    let op := (m.notifyWorkerOpTable.lookup (workerId, objectKey)).elim op fun entry => entry.op.merge op
    let (rc, t) := addAsyncWorkerOp c m.asyncWorkerOps (workerId, objectKey) op type a
    if !rc.isOk then (rc, { m with asyncWorkerOps := t })
    else
      (.success, { m with
        asyncWorkerOps := t
        notifyWorkerOpTable := m.notifyWorkerOpTable.insert (workerId, objectKey) ⟨op,type⟩ })

def removePersistedOp (t : StoreTable (Bytes × Bytes) NotifyWorkerOp) (key : Bytes × Bytes)
    (needRemoveEtcdData : Bool) (a : StoreAnswer) : Status × StoreTable (Bytes × Bytes) NotifyWorkerOp :=
  if !c.isPersistenceEnabled then (.success, t)
  else
    let (rc, t) := t.removeRocksKey key a.rocks
    if !rc.isOk then (rc, t)
    else if needRemoveEtcdData then t.removeEtcdKey c key a.etcd
    else (.success, t)

/-- `RemoveAsyncWorkerOp` for one object: some operations are no longer to be done. -/
def removeAsyncWorkerOp (workerId objectKey : Bytes)
    (op : NotifyWorkerOpType) (isDataMigration : Bool) (a : PersistOpAnswer) : Status × OCNotifyWorkerManager :=
  match m.notifyWorkerOpTable.lookup (workerId, objectKey) with
  | none => (.success, m)
  | some entry =>
    let afterModify := entry.op.type.clearFlag op
    if afterModify.value = 0 then
      let (rc, t) := removePersistedOp c m.asyncWorkerOps (workerId, objectKey) (!isDataMigration) a.toStoreAnswer
      if !rc.isOk then (rc, { m with asyncWorkerOps := t })
      else
        (.success, { m with
          asyncWorkerOps := t
          notifyWorkerOpTable := m.notifyWorkerOpTable.erase (workerId, objectKey) })
    else if afterModify ≠ entry.op.type then
      let opAfterModify := { entry.op with type := afterModify }
      let writeType := if isDataMigration then .rocksOnly else entry.writeType
      let (rc, t) := addAsyncWorkerOp c m.asyncWorkerOps (workerId, objectKey) opAfterModify writeType a
      if !rc.isOk then (rc, { m with asyncWorkerOps := t })
      else
        (.success, { m with
          asyncWorkerOps := t
          notifyWorkerOpTable := m.notifyWorkerOpTable.insert (workerId, objectKey) ⟨opAfterModify,entry.writeType⟩ })
    else (.success, m)

@[simp] theorem isOk_addAsyncWorkerOp (t : StoreTable (Bytes × Bytes) NotifyWorkerOp)
    (key : Bytes × Bytes) (op : NotifyWorkerOp) (type : WriteType) (a : PersistOpAnswer) :
    (addAsyncWorkerOp c t key op type a).1.isOk = a.accepted c type :=
  isOk_addRecord t c key op type a

theorem insertAsyncWorkerOp_table (m : OCNotifyWorkerManager) (workerId objectKey : Bytes)
    (op : NotifyWorkerOp) (type : WriteType) (a : PersistOpAnswer) :
    (m.insertAsyncWorkerOp c workerId objectKey op type a).2.notifyWorkerOpTable =
      if !m.isWorkerDead workerId && a.accepted c type then
        m.notifyWorkerOpTable.insert (workerId, objectKey)
          ⟨(m.notifyWorkerOpTable.lookup (workerId, objectKey)).elim op fun entry => entry.op.merge op,type⟩
      else m.notifyWorkerOpTable := by
  unfold insertAsyncWorkerOp
  cases hdead : m.isWorkerDead workerId
  · cases haccepted : a.accepted c type <;> simp [haccepted]
  · simp

@[simp] theorem insertAsyncWorkerOp_faultWorkers (m : OCNotifyWorkerManager) (workerId objectKey : Bytes)
    (op : NotifyWorkerOp) (type : WriteType) (a : PersistOpAnswer) :
    (m.insertAsyncWorkerOp c workerId objectKey op type a).2.faultWorkers = m.faultWorkers := by
  unfold insertAsyncWorkerOp
  dsimp only
  split_ifs <;> rfl

def checkExistAsyncWorkerOp (workerId objectKey : Bytes) (op : NotifyWorkerOpType) : Bool :=
  (m.notifyWorkerOpTable.lookup (workerId, objectKey)).elim false fun entry => entry.op.type.testAnyFlag op

end OCNotifyWorkerManager

structure OCMetadataManager where
  metaTable : Finmap fun _ : Bytes => ObjectMeta := ∅
  objectStore : ObjectMetaStore := {}
  notifyWorkerManager : OCNotifyWorkerManager := {}
  nestedRefManager : OCNestedManager := {}
  globalRefTable : ObjectCache.ObjectGlobalRefTable Bytes := {}

end Datasystem.Master
