import Datasystem.Lib.Bytes
import Datasystem.Status

/-!
# Metadata of objects

The stores may fail at every call, and a write that has failed may have taken effect. How they answer is an
argument of the functions that call them.
-/

namespace Datasystem.Master

open Status

@[simp] theorem isOk_success : success.isOk = true :=
  rfl

inductive WriteMode where
  | noneL2Cache
  | writeThroughL2Cache
  | writeBackL2Cache
  | noneL2CacheEvict
  | writeBackL2CacheEvict
deriving DecidableEq, Repr

inductive DataFormat where
  | binary
  | list
  | hashMap
  | hetero
deriving DecidableEq, Repr

inductive ConsistencyType where
  | pram
  | causal
deriving DecidableEq, Repr

inductive CacheType where
  | memory
  | disk
deriving DecidableEq, Repr

inductive ObjectLifeState where
  | objectInvalid
  | objectPublished
  | objectSealed
deriving DecidableEq, Repr

inductive ExistenceOpt where
  | none
  | nx
deriving DecidableEq, Repr

inductive AckState where
  | unack
  | ack
deriving DecidableEq, Repr

inductive MultiSetState where
  | idle
  | pending
deriving DecidableEq, Repr

structure ConfigPb where
  writeMode : WriteMode := .noneL2Cache
  dataFormat : DataFormat := .binary
  consistencyType : ConsistencyType := .pram
  cacheType : CacheType := .memory
  isReplica : Bool := false
deriving DecidableEq, Repr

/-- An entry without its key, under which it is kept. -/
structure ObjectMetaPb where
  dataSize : Nat := 0
  version : Nat := 0
  lifeState : ObjectLifeState := .objectInvalid
  config : ConfigPb := {}
  primaryAddress : Bytes := []
  ttlSecond : Nat := 0
  existence : ExistenceOpt := .none
  blobSizes : List Nat := []
  isRecovered : Bool := false
deriving DecidableEq, Repr

abbrev Locations := AList fun _ : Bytes => AckState

structure ObjectMeta where
  objectMeta : ObjectMetaPb := {}
  value : Int := 0
  locations : Locations := ∅
  multiSetState : MultiSetState := .idle
  multiSetTimestamp : Int := 0

namespace ObjectMeta

variable (m : ObjectMeta)

def isBinary : Bool := m.objectMeta.config.dataFormat = .binary

def isCausal : Bool := m.objectMeta.config.consistencyType = .causal

def isPram : Bool := m.objectMeta.config.consistencyType = .pram

def isReplica (m : ObjectMeta) : Bool := m.objectMeta.config.isReplica

def hasL2Cache : Bool :=
  m.objectMeta.config.writeMode = .writeThroughL2Cache ∨ m.objectMeta.config.writeMode = .writeBackL2Cache ∨
    m.objectMeta.config.writeMode = .writeBackL2CacheEvict

def isNoneL2CacheEvict : Bool := m.objectMeta.config.writeMode = .noneL2CacheEvict

end ObjectMeta

inductive WriteType where
  | rocksOnly
  | rocksAsyncEtcd
  | rocksSyncEtcd
deriving DecidableEq, Repr

def writeMode2MetaType : WriteMode → WriteType
  | .noneL2Cache => .rocksOnly
  | .writeBackL2Cache => .rocksAsyncEtcd
  | .writeThroughL2Cache => .rocksSyncEtcd
  | _ => .rocksOnly

structure WriteAnswer where
  status : Status := .success
  /-- The write has taken effect although it has failed. -/
  takesEffect : Bool := false
deriving DecidableEq, Repr

def WriteAnswer.effect (a : WriteAnswer) : Bool := a.status.isOk || a.takesEffect

structure StoreAnswer where
  rocks : WriteAnswer := {}
  etcd : WriteAnswer := {}
deriving DecidableEq, Repr

/-- Which stores there are. -/
structure StoreConfig where
  isPersistenceEnabled : Bool := true
  etcdEnable : Bool := true
deriving DecidableEq, Repr

/-- Both stores have taken a write. -/
def StoreAnswer.accepted (a : StoreAnswer) (c : StoreConfig) (type : WriteType) : Bool :=
  !c.isPersistenceEnabled || a.rocks.status.isOk && (!c.etcdEnable || type = .rocksOnly || a.etcd.status.isOk)

/-- A table in both stores. A write to ETCD that is queued counts as done, as does a deletion. -/
structure StoreTable (κ ν : Type) where
  rocks : Finmap fun _ : κ => ν := ∅
  etcd : Finmap fun _ : κ => ν := ∅
  /-- The keys that are known to be in ETCD, and whether they are written through the queue. -/
  etcdKeyMap : Finmap fun _ : κ => Bool := ∅

namespace StoreTable

variable {κ ν : Type} [DecidableEq κ] (t : StoreTable κ ν)

def putToRocksStore (key : κ) (value : ν) (a : WriteAnswer) : Status × StoreTable κ ν :=
  (a.status, if a.effect then { t with rocks := t.rocks.insert key value } else t)

def removeRocksKey (key : κ) (a : WriteAnswer) : Status × StoreTable κ ν :=
  (a.status, if a.effect then { t with rocks := t.rocks.erase key } else t)

def putToEtcdStore (c : StoreConfig) (key : κ) (value : ν) (type : WriteType) (a : WriteAnswer) :
    Status × StoreTable κ ν :=
  if !c.etcdEnable then (.success, t)
  else if type = .rocksOnly then (.success, t)
  else
    let t := if a.effect then { t with etcd := t.etcd.insert key value } else t
    if !a.status.isOk then (a.status, t)
    else if key ∈ t.etcdKeyMap then (.success, t)
    else (.success, { t with etcdKeyMap := t.etcdKeyMap.insert key (type = .rocksAsyncEtcd) })

def removeEtcdKey (c : StoreConfig) (key : κ) (a : WriteAnswer) : Status × StoreTable κ ν :=
  if !c.etcdEnable then (.success, t)
  else if key ∉ t.etcdKeyMap then (.success, t)
  else
    let t' := if a.effect then { t with etcd := t.etcd.erase key } else t
    if !a.status.isOk && a.status.code ≠ .notFound then (a.status, t')
    else (.success, { t' with etcdKeyMap := t.etcdKeyMap.erase key })

@[simp] theorem isOk_putToEtcdStore (c : StoreConfig) (t : StoreTable κ ν) (key : κ) (value : ν) (type : WriteType)
    (a : WriteAnswer) :
    (t.putToEtcdStore c key value type a).1.isOk = (!c.etcdEnable || type = .rocksOnly || a.status.isOk) := by
  unfold putToEtcdStore
  cases hetcd : c.etcdEnable
  · simp [isOk,success]
  · by_cases htype : type = .rocksOnly
    · simp [htype,isOk,success]
    · cases hstatus : a.status.isOk
      · simp [htype,hstatus]
      · dsimp only
        split_ifs <;> simp_all [isOk,success]

end StoreTable

structure ObjectMetaStore where
  config : StoreConfig := {}
  objectMetas : StoreTable Bytes ObjectMetaPb := {}
  /-- The locations, of which there is no copy in ETCD, by worker and object. -/
  objectLocations : StoreTable (Bytes × Bytes) AckState := {}

namespace ObjectMetaStore

def failedToSerialize : Status := ⟨.runtimeError,"Failed to Serialize object[%s] meta"⟩

/-- `CreateSerializedStringForMeta`; the entry that is written is the entry itself. -/
def createSerializedStringForMeta (serialized : Bool) : Status := if serialized then .success else failedToSerialize

variable (store : ObjectMetaStore)

def createOrUpdateMeta (objectKey : Bytes) (objectMeta : ObjectMetaPb) (type : WriteType) (a : StoreAnswer) : Status × ObjectMetaStore :=
  if !store.config.isPersistenceEnabled then (.success, store)
  else
    let (rc, table) := store.objectMetas.putToRocksStore objectKey objectMeta a.rocks
    if !rc.isOk then (rc, { store with objectMetas := table })
    else
      let (rc, table) := table.putToEtcdStore store.config objectKey objectMeta type a.etcd
      (rc, { store with objectMetas := table })

def removeMeta (key : Bytes) (needRemoveEtcdData : Bool) (a : StoreAnswer) : Status × ObjectMetaStore :=
  if !store.config.isPersistenceEnabled then (.success, store)
  else
    let (rc, table) := store.objectMetas.removeRocksKey key a.rocks
    if !rc.isOk then (rc, { store with objectMetas := table })
    else if needRemoveEtcdData then
      let (rc, table) := table.removeEtcdKey store.config key a.etcd
      (rc, { store with objectMetas := table })
    else (.success, { store with objectMetas := table })

variable (objectKey workerAddr : Bytes)

def addObjectLocation (ack : AckState) (a : WriteAnswer) : Status × ObjectMetaStore :=
  if !store.config.isPersistenceEnabled then (.success, store)
  else
    let (rc, table) := store.objectLocations.putToRocksStore (workerAddr, objectKey) ack a
    (rc, { store with objectLocations := table })

def removeObjectLocation (a : WriteAnswer) : Status × ObjectMetaStore :=
  if !store.config.isPersistenceEnabled then (.success, store)
  else
    let (rc, table) := store.objectLocations.removeRocksKey (workerAddr, objectKey) a
    (rc, { store with objectLocations := table })

@[simp] theorem config_createOrUpdateMeta (objectKey : Bytes) (objectMeta : ObjectMetaPb)
    (type : WriteType) (a : StoreAnswer) : (store.createOrUpdateMeta objectKey objectMeta type a).2.config = store.config := by
  unfold createOrUpdateMeta
  split_ifs
  · rfl
  · dsimp only
    split_ifs <;> rfl

@[simp] theorem config_removeObjectLocation (a : WriteAnswer) :
    (store.removeObjectLocation objectKey workerAddr a).2.config = store.config := by
  unfold removeObjectLocation
  split_ifs <;> rfl

@[simp] theorem isOk_createSerializedStringForMeta (serialized : Bool) :
    (createSerializedStringForMeta serialized).isOk = serialized := by
  cases serialized <;> rfl

@[simp] theorem isOk_createOrUpdateMeta (objectKey : Bytes) (objectMeta : ObjectMetaPb)
    (type : WriteType) (a : StoreAnswer) :
    (store.createOrUpdateMeta objectKey objectMeta type a).1.isOk = a.accepted store.config type := by
  unfold createOrUpdateMeta StoreAnswer.accepted
  cases hpersist : store.config.isPersistenceEnabled
  · rfl
  · cases hrocks : a.rocks.status.isOk
    · simp [StoreTable.putToRocksStore,hrocks]
    · simp [StoreTable.putToRocksStore,hrocks]

@[simp] theorem isOk_addObjectLocation (ack : AckState) (a : WriteAnswer) :
    (store.addObjectLocation objectKey workerAddr ack a).1.isOk =
      (!store.config.isPersistenceEnabled || a.status.isOk) := by
  unfold addObjectLocation
  cases hpersist : store.config.isPersistenceEnabled
  · rfl
  · simp [StoreTable.putToRocksStore]

@[simp] theorem config_addObjectLocation (ack : AckState) (a : WriteAnswer) : (store.addObjectLocation objectKey workerAddr ack a).2.config = store.config := by
  unfold addObjectLocation
  split_ifs <;> rfl

@[simp] theorem objectMetas_addObjectLocation (ack : AckState) (a : WriteAnswer) : (store.addObjectLocation objectKey workerAddr ack a).2.objectMetas = store.objectMetas := by
  unfold addObjectLocation
  split_ifs <;> rfl

@[simp] theorem objectMetas_removeObjectLocation (a : WriteAnswer) : (store.removeObjectLocation objectKey workerAddr a).2.objectMetas = store.objectMetas := by
  unfold removeObjectLocation
  split_ifs <;> rfl

def Holds (store : ObjectMetaStore) (key : Bytes) : Prop :=
  key ∈ store.objectMetas.rocks ∨ key ∈ store.objectMetas.etcd

/-- Of the entries of objects, only that of one key may have come or gone. -/
structure WritesOnly (objectKey : Bytes) (store store' : ObjectMetaStore) : Prop where
  config : store'.config = store.config
  holds : ∀ key ≠ objectKey, (store'.Holds key ↔ store.Holds key)

namespace WritesOnly

variable {objectKey : Bytes} {store store' store'' : ObjectMetaStore}

theorem refl (objectKey : Bytes) (store : ObjectMetaStore) : WritesOnly objectKey store store :=
  ⟨rfl,fun _ _ => Iff.rfl⟩

theorem trans (h : WritesOnly objectKey store store') (h' : WritesOnly objectKey store' store'') :
    WritesOnly objectKey store store'' :=
  ⟨h'.config.trans h.config,fun key hne => (h'.holds key hne).trans (h.holds key hne)⟩

theorem of_eq (hconfig : store'.config = store.config) (hmetas : store'.objectMetas = store.objectMetas) :
    WritesOnly objectKey store store' :=
  ⟨hconfig,fun key _ => by rw [Holds,Holds,hmetas]⟩

theorem of_tables (hconfig : store'.config = store.config)
    (hrocks : ∀ key ≠ objectKey, (key ∈ store'.objectMetas.rocks ↔ key ∈ store.objectMetas.rocks))
    (hetcd : ∀ key ≠ objectKey, (key ∈ store'.objectMetas.etcd ↔ key ∈ store.objectMetas.etcd)) :
    WritesOnly objectKey store store' :=
  ⟨hconfig,fun key hne => or_congr (hrocks key hne) (hetcd key hne)⟩

end WritesOnly

theorem writesOnly_createOrUpdateMeta (store : ObjectMetaStore) (objectKey : Bytes) (objectMeta : ObjectMetaPb)
    (type : WriteType) (a : StoreAnswer) :
    WritesOnly objectKey store (store.createOrUpdateMeta objectKey objectMeta type a).2 := by
  apply WritesOnly.of_tables (config_createOrUpdateMeta store objectKey objectMeta type a)
  · intro key hne
    unfold createOrUpdateMeta StoreTable.putToEtcdStore StoreTable.putToRocksStore
    dsimp only
    split_ifs <;> simp [Finmap.mem_insert,hne]
  · intro key hne
    unfold createOrUpdateMeta StoreTable.putToEtcdStore StoreTable.putToRocksStore
    dsimp only
    split_ifs <;> simp [Finmap.mem_insert,hne]

end ObjectMetaStore

end Datasystem.Master
