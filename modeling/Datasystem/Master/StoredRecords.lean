import Datasystem.Master.NotifyWorkerOp

/-!
# Records in both stores

Four operations of the metadata store put a record into RocksDB and then into ETCD, and `RemoveDeletedObject` removes
one from both. A queued write to ETCD counts as done, and a queued removal as done with its post handler. An
asynchronous write fails only where there is no queue, which has no effect.
-/

namespace Datasystem.Master

open PersistOpAnswer StoreTable

namespace StoreTable

variable {κ ν : Type} [DecidableEq κ] (t : StoreTable κ ν) (c : StoreConfig) (metaInfos : AList fun _ : κ => ν)
  (type : WriteType)

def batchPutToEtcdStore (a : WriteAnswer) : Status × StoreTable κ ν :=
  if !c.etcdEnable then (.success, t)
  else if type = .rocksOnly then (.success, t)
  else
    let t := if a.effect then { t with etcd := metaInfos.toFinmap ∪ t.etcd } else t
    if !a.status.isOk then (a.status, t)
    else
      (.success, { t with
        etcdKeyMap := metaInfos.keys.foldl (fun m key => if key ∈ m then m else m.insert key (type = .rocksAsyncEtcd))
          t.etcdKeyMap })

/-- The records are put into RocksDB and taken back from it if ETCD has failed, which is not reported. -/
def createOrUpdateBatchMeta (a : PersistOpAnswer) : Status × StoreTable κ ν :=
  if !c.isPersistenceEnabled then (.success, t)
  else
    let t := if a.rocks.effect then { t with rocks := metaInfos.toFinmap ∪ t.rocks } else t
    if !a.rocks.status.isOk then (a.rocks.status, t)
    else
      let (rc, t) := t.batchPutToEtcdStore c metaInfos type a.etcd
      if !rc.isOk && a.takeBack.effect then
        (.success, { t with rocks := metaInfos.keys.foldl (fun m key => m.erase key) t.rocks })
      else (.success, t)

end StoreTable

/-- The deletions from the second-level cache that are still to be made, by object and version: the version to delete
and the worker that has to do it. -/
abbrev DeletedObjects := StoreTable (Bytes × Nat) (Nat × Bytes)

inductive QueueAnswer where
  | noQueue
  /-- It falls out of a full queue. -/
  | eliminated
  /-- It meets a queued addition and both go; ETCD may have an older record. -/
  | cancels (stored : Option (Nat × Bytes))
  | handled
deriving DecidableEq, Repr

namespace DeletedObjects

variable (t : DeletedObjects) (c : StoreConfig) (objectKey : Bytes) (version : Nat)

def addDeletedObjectWithDelVersion (delVersion : Nat) (targetWorkerAddress : Bytes) (type : WriteType)
    (a : PersistOpAnswer) : Status × DeletedObjects :=
  t.addRecord c (objectKey, version) (delVersion, targetWorkerAddress) type a

def addDeletedObject (type : WriteType) (a : PersistOpAnswer) : Status × DeletedObjects :=
  t.addDeletedObjectWithDelVersion c objectKey version version [] type a

def postRemoveEtcdKey (key : Bytes × Nat) (a : WriteAnswer) : Status × DeletedObjects :=
  if !c.isPersistenceEnabled then (.success, t) else t.removeRocksKey key a

/-- What is left when the queue has been drained. -/
def removeDeletedObject (queue : QueueAnswer) (a : StoreAnswer) : Status × DeletedObjects :=
  let key := (objectKey, version)
  let forgotten := { t with etcdKeyMap := t.etcdKeyMap.erase key }
  if !c.etcdEnable then (.success, t)
  else
    match t.etcdKeyMap.lookup key with
    | none => (.success, t)
    | some true =>
      match queue with
      | .noQueue =>
        (⟨.notReady,"It does not support executing etcd asynchronous tasks currently."⟩, forgotten)
      | .eliminated => (.success, forgotten)
      | .cancels none => (.success, { forgotten with etcd := t.etcd.erase key })
      | .cancels (some older) => (.success, { forgotten with etcd := t.etcd.insert key older })
      | .handled => (.success, (postRemoveEtcdKey { forgotten with etcd := t.etcd.erase key } c key a.rocks).2)
    | some false =>
      let etcd := if a.etcd.effect then t.etcd.erase key else t.etcd
      if !a.etcd.status.isOk && a.etcd.status.code ≠ .notFound then (a.etcd.status, { t with etcd := etcd })
      else postRemoveEtcdKey { forgotten with etcd := etcd } c key a.rocks

end DeletedObjects

/-- Success means that both stores have the record, and a failure that neither has got it. -/
structure Persisted {κ ν : Type} [DecidableEq κ] (key : κ) (value : ν) (type : WriteType) (t : StoreTable κ ν)
    (result : Status × StoreTable κ ν) : Prop where
  ok : result.1.isOk = true → result.2.rocks.lookup key = some value ∧
    (type = .rocksSyncEtcd → result.2.etcd.lookup key = some value)
  error : result.1.isOk = false → (result.2.rocks.lookup key = some value → t.rocks.lookup key = some value) ∧
    (result.2.etcd.lookup key = some value → t.etcd.lookup key = some value)

structure Done where
  ok : Bool
  rocks : Bool
  etcd : Bool
  takenBack : Bool

def PersistOpAnswer.done (a : PersistOpAnswer) (c : StoreConfig) (type : WriteType) : Done where
  ok := a.accepted c type
  rocks := c.isPersistenceEnabled && a.rocks.effect
  etcd := c.isPersistenceEnabled && a.rocks.status.isOk && c.etcdEnable && type ≠ .rocksOnly && a.etcd.effect
  takenBack := !a.accepted c type && a.rocks.status.isOk && a.takeBack.effect

section Records

variable {κ ν : Type} [DecidableEq κ] (t : StoreTable κ ν) (c : StoreConfig) {key : κ} {value : ν} (type : WriteType)

/-- Success needs both stores, and no failed write may be left behind. -/
def Done.Keeps (d : Done) (key : κ) (value : ν) : Prop :=
  if d.ok then
    (!d.takenBack ∧ (d.rocks ∨ t.rocks.lookup key = some value)) ∧
      (type = .rocksSyncEtcd → d.etcd ∨ t.etcd.lookup key = some value)
  else
    (d.rocks → d.takenBack ∨ t.rocks.lookup key = some value) ∧ (d.etcd → t.etcd.lookup key = some value)

/-- What is under the key once an operation has done its part. -/
structure Done.Leaves (d : Done) (key : κ) (value : ν) (t' : StoreTable κ ν) : Prop where
  rocks : t'.rocks.lookup key = if d.takenBack then none else if d.rocks then some value else t.rocks.lookup key
  etcd : t'.etcd.lookup key = if d.etcd then some value else t.etcd.lookup key

variable {t c type}

theorem persisted_iff {d : Done} {result : Status × StoreTable κ ν} (hok : result.1.isOk = d.ok)
    (h : d.Leaves t key value result.2) : Persisted key value type t result ↔ d.Keeps t type key value := by
  have hiff : Persisted key value type t result ↔ (d.ok = true → result.2.rocks.lookup key = some value ∧
        (type = .rocksSyncEtcd → result.2.etcd.lookup key = some value)) ∧
      (d.ok = false → (result.2.rocks.lookup key = some value → t.rocks.lookup key = some value) ∧
        (result.2.etcd.lookup key = some value → t.etcd.lookup key = some value)) :=
    ⟨fun hp => ⟨hok ▸ hp.ok,hok ▸ hp.error⟩,fun hp => ⟨hok ▸ hp.1,hok ▸ hp.2⟩⟩
  rw [hiff,h.rocks,h.etcd,Done.Keeps]
  obtain ⟨ok,rocks,etcd,takenBack⟩ := d
  cases ok <;> cases rocks <;> cases etcd <;> cases takenBack <;> simp

/-- What `addRecord` leaves under its key. -/
theorem leaves_addRecord (a : PersistOpAnswer) :
    (a.done c type).Leaves t key value (t.addRecord c key value type a).2 := by
  have hrest (t : StoreTable κ ν) : (t.putToEtcdStore c key value type a.etcd).2.rocks = t.rocks ∧
      (t.putToEtcdStore c key value type a.etcd).2.etcd.lookup key =
        if c.etcdEnable && type ≠ .rocksOnly && a.etcd.effect then some value else t.etcd.lookup key := by
    unfold putToEtcdStore
    dsimp only
    split_ifs <;> simp_all
  have hok := isOk_putToEtcdStore c { t with rocks := t.rocks.insert key value } key value type a.etcd
  cases hpersist : c.isPersistenceEnabled
  · constructor <;> simp [addRecord,done,accepted,hpersist]
  · cases hrocks : a.rocks.status.isOk
    · constructor <;> by_cases heff : a.rocks.effect <;>
        simp [addRecord,done,putToRocksStore,hpersist,hrocks,heff]
    · have heff : a.rocks.effect = true := by simp [WriteAnswer.effect,hrocks]
      cases haccepted : !c.etcdEnable || type = .rocksOnly || a.etcd.status.isOk <;>
        constructor <;> by_cases hback : a.takeBack.effect <;>
        simp [addRecord,done,accepted,putToRocksStore,
          removeRocksKey,hpersist,hrocks,heff,hok,hrest,haccepted,hback,-isOk_putToEtcdStore]

theorem persisted_addRecord (a : PersistOpAnswer) :
    Persisted key value type t (t.addRecord c key value type a) ↔ (a.done c type).Keeps t type key value :=
  persisted_iff (isOk_addRecord t c key value type a) (leaves_addRecord a)

variable {metaInfos : AList fun _ : κ => ν}

theorem mem_foldl_erase {keys : List κ} {m : Finmap fun _ : κ => ν} :
    key ∈ keys.foldl (fun m key => m.erase key) m ↔ key ∉ keys ∧ key ∈ m := by
  induction keys generalizing m with
  | nil => simp
  | cons k keys ih =>
    rw [List.foldl_cons,ih,Finmap.mem_erase,List.mem_cons]
    tauto

/-- The failure of ETCD is not reported. -/
def PersistOpAnswer.batchDone (a : PersistOpAnswer) (c : StoreConfig) (type : WriteType) : Done :=
  { a.done c type with ok := !c.isPersistenceEnabled || a.rocks.status.isOk }

/-- A batch does to each of its records what `addRecord` does. -/
theorem leaves_createOrUpdateBatchMeta (a : PersistOpAnswer) (hkey : metaInfos.toFinmap.lookup key = some value) :
    (a.batchDone c type).Leaves t key value (t.createOrUpdateBatchMeta c metaInfos type a).2 := by
  have hunion (m : Finmap fun _ : κ => ν) : (metaInfos.toFinmap ∪ m).lookup key = some value :=
    (Finmap.lookup_union_left (Finmap.mem_iff.mpr ⟨value,hkey⟩)).trans hkey
  have hnone (m : Finmap fun _ : κ => ν) : (metaInfos.keys.foldl (fun m key => m.erase key) m).lookup key = none := by
    have hmem : key ∈ metaInfos.keys := AList.mem_keys.mp (Finmap.mem_toFinmap.mp (Finmap.mem_iff.mpr ⟨value,hkey⟩))
    exact Finmap.lookup_eq_none.mpr fun h => (mem_foldl_erase.mp h).1 hmem
  have hput (t : StoreTable κ ν) : (t.batchPutToEtcdStore c metaInfos type a.etcd).1.isOk =
        (!c.etcdEnable || type = .rocksOnly || a.etcd.status.isOk) ∧
      (t.batchPutToEtcdStore c metaInfos type a.etcd).2.rocks = t.rocks ∧
      (t.batchPutToEtcdStore c metaInfos type a.etcd).2.etcd.lookup key =
        if c.etcdEnable && type ≠ .rocksOnly && a.etcd.effect then some value else t.etcd.lookup key := by
    unfold batchPutToEtcdStore
    dsimp only
    split_ifs <;> simp_all
  cases hpersist : c.isPersistenceEnabled
  · constructor <;> simp [createOrUpdateBatchMeta,batchDone,done,accepted,hpersist]
  · cases hrocks : a.rocks.status.isOk
    · constructor <;> by_cases heff : a.rocks.effect <;> simp [createOrUpdateBatchMeta,
        batchDone,done,hpersist,hrocks,heff,hunion]
    · have heff : a.rocks.effect = true := by simp [WriteAnswer.effect,hrocks]
      cases haccepted : !c.etcdEnable || type = .rocksOnly || a.etcd.status.isOk <;>
        constructor <;> by_cases hback : a.takeBack.effect <;>
        simp [createOrUpdateBatchMeta,batchDone,done,accepted,hpersist,hrocks,heff,hput,haccepted,hback,hnone,hunion]

theorem persisted_createOrUpdateBatchMeta (a : PersistOpAnswer) (hkey : metaInfos.toFinmap.lookup key = some value) :
    Persisted key value type t (t.createOrUpdateBatchMeta c metaInfos type a) ↔
      (a.batchDone c type).Keeps t type key value := by
  apply persisted_iff _ (leaves_createOrUpdateBatchMeta a hkey)
  unfold createOrUpdateBatchMeta batchDone
  dsimp only
  split_ifs <;> simp_all

end Records

/-- `CreateOrUpdateMeta` takes nothing back. -/
theorem createOrUpdateMeta_eq (store : ObjectMetaStore) (objectKey : Bytes) (objectMeta : ObjectMetaPb) (type : WriteType)
    (a : StoreAnswer) : Prod.map id ObjectMetaStore.objectMetas (store.createOrUpdateMeta objectKey objectMeta type a) =
      store.objectMetas.addRecord store.config objectKey objectMeta type ⟨a,⟨⟨.notReady,""⟩,false⟩⟩ := by
  unfold ObjectMetaStore.createOrUpdateMeta addRecord
  dsimp only
  split_ifs <;> simp [removeRocksKey,WriteAnswer.effect,Status.isOk]

/-- Success means that the record is in neither store. -/
def DeletedObjects.Removed (key : Bytes × Nat) (result : Status × DeletedObjects) : Prop :=
  result.1.isOk = true → key ∉ result.2.rocks ∧ key ∉ result.2.etcd

/-- When a removal that returns OK has removed the record. -/
def DeletedObjects.RemovedWhen (t : DeletedObjects) (c : StoreConfig) (key : Bytes × Nat) (queue : QueueAnswer)
    (a : StoreAnswer) : Prop :=
  match (if c.etcdEnable then t.etcdKeyMap.lookup key else none), queue with
  | none, _ => key ∉ t.rocks ∧ key ∉ t.etcd
  | some true, .noQueue => True
  | some true, .eliminated => key ∉ t.rocks ∧ key ∉ t.etcd
  | some true, .cancels stored => key ∉ t.rocks ∧ stored = none
  | some true, .handled => key ∉ t.rocks ∨ c.isPersistenceEnabled ∧ a.rocks.effect
  | some false, _ =>
    (!a.etcd.status.isOk ∧ a.etcd.status.code ≠ .notFound) ∨ (c.isPersistenceEnabled ∧ !a.rocks.status.isOk) ∨
      (key ∉ t.rocks ∨ c.isPersistenceEnabled) ∧ (key ∉ t.etcd ∨ a.etcd.effect)

theorem postRemoveEtcdKey_spec (t : DeletedObjects) (c : StoreConfig) (key : Bytes × Nat) (a : WriteAnswer) :
    (t.postRemoveEtcdKey c key a).1.isOk = (!c.isPersistenceEnabled || a.status.isOk) ∧
      (key ∈ (t.postRemoveEtcdKey c key a).2.rocks ↔ key ∈ t.rocks ∧ ¬ (c.isPersistenceEnabled ∧ a.effect)) ∧
      (t.postRemoveEtcdKey c key a).2.etcd = t.etcd := by
  unfold DeletedObjects.postRemoveEtcdKey removeRocksKey
  split_ifs <;> simp_all

theorem removeDeletedObject_iff (t : DeletedObjects) (c : StoreConfig) (objectKey : Bytes) (version : Nat)
    (queue : QueueAnswer) (a : StoreAnswer) :
    DeletedObjects.Removed (objectKey, version) (t.removeDeletedObject c objectKey version queue a) ↔
      t.RemovedWhen c (objectKey, version) queue a := by
  unfold DeletedObjects.Removed DeletedObjects.removeDeletedObject DeletedObjects.RemovedWhen
  cases hetcd : c.etcdEnable
  · simp
  · cases hmap : t.etcdKeyMap.lookup (objectKey, version) with
    | none => simp [hmap]
    | some async =>
      cases async
      · simp only [hmap]
        cases herror : !a.etcd.status.isOk && a.etcd.status.code ≠ .notFound
        · have hskip : ¬ (a.etcd.status.isOk = false ∧ ¬ a.etcd.status.code = .notFound) := by simpa using herror
          simp [postRemoveEtcdKey_spec,hskip]
          have hrocks : a.rocks.status.isOk = true → a.rocks.effect = true := by
            simp +contextual [WriteAnswer.effect]
          by_cases heffect : a.etcd.effect <;> cases hpersist : c.isPersistenceEnabled <;>
            cases hok : a.rocks.status.isOk <;> simp [heffect,hok,hrocks]
        · simp_all
      · cases queue with
        | noQueue => simp [hmap,Status.isOk]
        | eliminated => simp [hmap]
        | cancels stored => cases stored <;> simp [hmap]
        | handled =>
          simp [hmap,postRemoveEtcdKey_spec]
          exact imp_iff_not_or

end Datasystem.Master
