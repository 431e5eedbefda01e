import Datasystem.Master.NotifyWorkerOp

/-!
# Updates of objects

A request can fail before and after the entry has changed.
-/

namespace Datasystem.Master

/-! ## Notification of copies -/

/-- How the stores answer while operations for the copies of an object are recorded. -/
structure AsyncSendAnswer where
  removeOp : PersistOpAnswer := {}
  insertOp : Bytes → PersistOpAnswer := fun _ => {}

structure SyncSendAnswer where
  healthy : Bytes → Bool := fun _ => true
  /-- Also an error if the worker cannot be reached or has failed to update its copy. -/
  updateNotification : Bytes → Status := fun _ => .success
  removeLocation : Bytes → WriteAnswer := fun _ => {}
  async : Bytes → AsyncSendAnswer := fun _ => {}

namespace OCMetadataManager

def insertCacheInvalidOps (objectKey sourceWorker : Bytes) (type : WriteType) (a : AsyncSendAnswer) :
    List Bytes → OCMetadataManager → Status × OCMetadataManager
  | [], m => (.success, m)
  | address :: addresses, m =>
    if address = sourceWorker then insertCacheInvalidOps objectKey sourceWorker type a addresses m
    else
      let (rc, notifyWorkerManager) := m.notifyWorkerManager.insertAsyncWorkerOp m.objectStore.config address objectKey
        cacheInvalidOp type (a.insertOp address)
      let m := { m with notifyWorkerManager }
      if !rc.isOk then (rc, m) else insertCacheInvalidOps objectKey sourceWorker type a addresses m

def asyncSendUpdateObject (m : OCMetadataManager) (objectKey sourceWorker : Bytes) (entry : ObjectMeta)
    (a : AsyncSendAnswer) : Status × OCMetadataManager :=
  let (rc, notifyWorkerManager) := m.notifyWorkerManager.removeAsyncWorkerOp m.objectStore.config sourceWorker objectKey
    { cacheInvalid := true } false a.removeOp
  let m := { m with notifyWorkerManager }
  if !rc.isOk then (rc, m)
  else
    insertCacheInvalidOps objectKey sourceWorker (writeMode2MetaType entry.objectMeta.config.writeMode) a
      entry.locations.keys m

/-- The loop of `SyncSendUpdateObject`, which drops the copies of the workers that have been told. -/
def syncSendLoop (objectKey sourceWorker : Bytes) (a : SyncSendAnswer) :
    List Bytes → OCMetadataManager → ObjectMeta → Status × OCMetadataManager × ObjectMeta
  | [], m, entry => (.success, m, entry)
  | address :: addresses, m, entry =>
    if address = sourceWorker then syncSendLoop objectKey sourceWorker a addresses m entry
    else if !a.healthy address then
      if entry.isBinary then
        let (rc, m) := m.asyncSendUpdateObject objectKey sourceWorker entry (a.async address)
        if !rc.isOk then (rc, m, entry) else syncSendLoop objectKey sourceWorker a addresses m entry
      else syncSendLoop objectKey sourceWorker a addresses m entry
    else if !(a.updateNotification address).isOk then (a.updateNotification address, m, entry)
    else
      let m := { m with objectStore := (m.objectStore.removeObjectLocation objectKey address (a.removeLocation address)).2 }
      syncSendLoop objectKey sourceWorker a addresses m { entry with locations := entry.locations.erase address }

def syncSendUpdateObject (m : OCMetadataManager) (objectKey sourceWorker : Bytes) (entry : ObjectMeta)
    (a : SyncSendAnswer) : Status × OCMetadataManager × ObjectMeta :=
  syncSendLoop objectKey sourceWorker a entry.locations.keys m entry

end OCMetadataManager

/-- A part of a request leaves the metadata of all objects, and of an entry all but the copies of other workers. -/
structure LeavesMeta (source : Bytes) (m : OCMetadataManager) (entry : ObjectMeta) (m' : OCMetadataManager)
    (entry' : ObjectMeta) : Prop where
  metaTable : m'.metaTable = m.metaTable
  objectMetas : m'.objectStore.objectMetas = m.objectStore.objectMetas
  config : m'.objectStore.config = m.objectStore.config
  nestedRefManager : m'.nestedRefManager = m.nestedRefManager
  objectMeta : entry'.objectMeta = entry.objectMeta
  multiSetState : entry'.multiSetState = entry.multiSetState
  ackState : entry'.locations.lookup source = entry.locations.lookup source

namespace LeavesMeta

variable {source : Bytes} {m m' m'' : OCMetadataManager} {entry entry' entry'' : ObjectMeta}

theorem refl (source : Bytes) (m : OCMetadataManager) (entry : ObjectMeta) : LeavesMeta source m entry m entry :=
  ⟨rfl,rfl,rfl,rfl,rfl,rfl,rfl⟩

theorem trans (h : LeavesMeta source m entry m' entry') (h' : LeavesMeta source m' entry' m'' entry'') :
    LeavesMeta source m entry m'' entry'' :=
  ⟨h'.metaTable.trans h.metaTable,h'.objectMetas.trans h.objectMetas,h'.config.trans h.config,
    h'.nestedRefManager.trans h.nestedRefManager,h'.objectMeta.trans h.objectMeta,
    h'.multiSetState.trans h.multiSetState,h'.ackState.trans h.ackState⟩

theorem notify (source : Bytes) (m : OCMetadataManager) (entry : ObjectMeta) (w : OCNotifyWorkerManager) :
    LeavesMeta source m entry { m with notifyWorkerManager := w } entry :=
  ⟨rfl,rfl,rfl,rfl,rfl,rfl,rfl⟩

theorem drop (objectKey : Bytes) {address : Bytes} (hne : address ≠ source) (m : OCMetadataManager) (entry : ObjectMeta)
    (a : WriteAnswer) :
    LeavesMeta source m entry { m with objectStore := (m.objectStore.removeObjectLocation objectKey address a).2 }
      { entry with locations := entry.locations.erase address } where
  metaTable := rfl
  objectMetas := by simp
  config := by simp
  nestedRefManager := rfl
  objectMeta := rfl
  multiSetState := rfl
  ackState := AList.lookup_erase_ne hne.symm

end LeavesMeta

namespace OCMetadataManager

theorem leavesMeta_insertCacheInvalidOps (objectKey sourceWorker : Bytes) (type : WriteType) (a : AsyncSendAnswer)
    (addresses : List Bytes) (m : OCMetadataManager) (entry : ObjectMeta) :
    LeavesMeta sourceWorker m entry (insertCacheInvalidOps objectKey sourceWorker type a addresses m).2 entry := by
  induction addresses generalizing m with
  | nil => exact .refl sourceWorker m entry
  | cons address addresses ih =>
    rw [insertCacheInvalidOps]
    split_ifs with hsource
    · exact ih m
    · dsimp only
      split_ifs
      · apply LeavesMeta.notify
      · exact .trans (.notify _ _ _ _) (ih _)

theorem leavesMeta_asyncSendUpdateObject (m : OCMetadataManager) (objectKey sourceWorker : Bytes) (entry : ObjectMeta)
    (a : AsyncSendAnswer) :
    LeavesMeta sourceWorker m entry (m.asyncSendUpdateObject objectKey sourceWorker entry a).2 entry := by
  unfold asyncSendUpdateObject
  dsimp only
  split_ifs
  · apply LeavesMeta.notify
  · exact .trans (.notify _ _ _ _) (leavesMeta_insertCacheInvalidOps _ _ _ _ _ _ _)

theorem leavesMeta_syncSendLoop (objectKey sourceWorker : Bytes) (a : SyncSendAnswer) (addresses : List Bytes)
    (m : OCMetadataManager) (entry : ObjectMeta) :
    LeavesMeta sourceWorker m entry (syncSendLoop objectKey sourceWorker a addresses m entry).2.1
      (syncSendLoop objectKey sourceWorker a addresses m entry).2.2 := by
  induction addresses generalizing m entry with
  | nil => exact .refl sourceWorker m entry
  | cons address addresses ih =>
    rw [syncSendLoop]
    split_ifs with hsource hhealthy hbinary hsent
    · exact ih m entry
    · have hasync := leavesMeta_asyncSendUpdateObject m objectKey sourceWorker entry (a.async address)
      dsimp only
      split_ifs
      · exact hasync
      · exact hasync.trans (ih _ _)
    · exact ih m entry
    · exact .refl sourceWorker m entry
    · exact .trans (.drop objectKey hsource m entry _) (ih _ _)

end OCMetadataManager

/-! ## Invalidation of copies -/

structure ChangedMeta where
  newAddress : Bytes
  newVersion : Nat
  newDataSz : Nat
  newLifeState : ObjectLifeState
  newBlobSizes : List Nat := []
deriving DecidableEq, Repr

structure UpdateAnswer where
  /-- To `FillObjectRedirectResponse`, and whether another master has to be asked. -/
  fillRedirect : Status := .success
  redirected : Bool := false
  /-- To `RemoveObjectIfExist`. -/
  removeExpired : Status := .success
  addHeavyOp : Bool := true
  /-- The system clock. -/
  timestamp : ℕ+ := 1
  sync : SyncSendAnswer := {}
  async : AsyncSendAnswer := {}
  serialized : Bool := true
  put : StoreAnswer := {}
  addLocation : WriteAnswer := {}
  removeLocation : WriteAnswer := {}
  nested : Bytes → WriteAnswer := fun _ => {}
  /-- To `InsertObject`. -/
  insertExpired : Status := .success

def ObjectMeta.update (entry : ObjectMeta) (changedMeta : ChangedMeta) : ObjectMeta :=
  { entry with
    locations := entry.locations.insert changedMeta.newAddress .ack
    objectMeta :=
      { entry.objectMeta with
        version := changedMeta.newVersion
        lifeState := changedMeta.newLifeState
        primaryAddress := changedMeta.newAddress
        dataSize := changedMeta.newDataSz
        blobSizes := changedMeta.newBlobSizes } }

namespace OCMetadataManager

variable (m : OCMetadataManager) (objectKey : Bytes)

/-- The first step of `DoBinaryCacheInvalidationUnlocked`: the workers that have copies are told. -/
def notifyCopies (prevMeta : ObjectMeta) (changedMeta : ChangedMeta) (a : UpdateAnswer) : Status × OCMetadataManager × ObjectMeta :=
  if prevMeta.isReplica then (.success, m, prevMeta)
  else if prevMeta.isCausal || changedMeta.newLifeState = .objectSealed then
    m.syncSendUpdateObject objectKey changedMeta.newAddress prevMeta a.sync
  else if prevMeta.isPram then
    let (rc, m) := m.asyncSendUpdateObject objectKey changedMeta.newAddress prevMeta a.async
    (rc, m, prevMeta)
  else (.success, m, prevMeta)

variable (entry : ObjectMeta)

def persistUpdatedMeta (changedMeta : ChangedMeta) (updateStoredAckState : Bool) (a : UpdateAnswer) : Status × OCMetadataManager :=
  let rc := ObjectMetaStore.createSerializedStringForMeta a.serialized
  if !rc.isOk then (rc, m)
  else
    let (rc, store) := m.objectStore.createOrUpdateMeta objectKey entry.objectMeta
      (writeMode2MetaType entry.objectMeta.config.writeMode) a.put
    if !rc.isOk then (rc, { m with objectStore := store })
    else if updateStoredAckState then
      let (rc, store) := store.addObjectLocation objectKey changedMeta.newAddress .ack a.addLocation
      (rc, { m with objectStore := store })
    else (.success, { m with objectStore := store })

def doBinaryCacheInvalidationUnlocked (prevMeta : ObjectMeta) (changedMeta : ChangedMeta) (a : UpdateAnswer) : Status × OCMetadataManager × ObjectMeta :=
  let (rc, m, prevMeta) := m.notifyCopies objectKey prevMeta changedMeta a
  if !rc.isOk then (rc, m, prevMeta)
  else
    let updateStoredAckState := prevMeta.locations.lookup changedMeta.newAddress ≠ some .ack
    let entry := prevMeta.update changedMeta
    let (rc, m) := m.persistUpdatedMeta objectKey entry changedMeta updateStoredAckState a
    (rc, m, entry)

/-! ## Requests -/

def alreadyExist : Status := ⟨.ocKeyAlreadyExist,"object[%s] already exist"⟩

def isCreating : Status := ⟨.tryAgain,"object[%s] is creating"⟩

def checkExistenceOpt (existence : ExistenceOpt) (firstOne : Bool) : Status :=
  let noL2CacheAndNoCopy := entry.locations.keys = [] ∧ entry.objectMeta.config.writeMode = .noneL2Cache
  if !firstOne ∧ existence = .nx ∧ ¬ noL2CacheAndNoCopy then
    if entry.multiSetState = .idle then alreadyExist else isCreating
  else .success

def multiMetaIsCreating : Status :=
  ⟨.tryAgain,"update meta failed, multi meta objectKey(%s) is creating, wait and try again"⟩

def inconsistentParams : Status :=
  ⟨.invalid,"Inconsistency in publish or set cache whose key already exists in datasystem, please delete the old cache or keep parameter the same as the old cache, newMeta: (consistency_type, write_mode, cache_type), (%zu, %zu, %zu); old: (%zu, %zu, %zu)"⟩

/-- `CheckBinaryFormatParamMatch`; a configuration is what is compared. -/
def checkBinaryFormatParamMatch (nested : OCNestedManager) (objectKey : Bytes) (prevMeta : ObjectMeta) (config : ConfigPb)
    (nestedObjectKeys : List Bytes) : Status :=
  let prevConfig := prevMeta.objectMeta.config
  let isBinaryFormatConsistent := config.dataFormat = .binary ∧ prevMeta.isBinary
  let isConfigConsistent := config.consistencyType = prevConfig.consistencyType ∧ config.writeMode = prevConfig.writeMode ∧
    config.cacheType = prevConfig.cacheType ∧ config.isReplica = prevConfig.isReplica
  if ¬ (isBinaryFormatConsistent ∧ isConfigConsistent) then inconsistentParams
  else if prevMeta.objectMeta.lifeState = .objectSealed then ⟨.ocAlreadySealed,"Already sealed"⟩
  else if !nested.nestedKeysCanSet objectKey nestedObjectKeys then ⟨.runtimeError,"Nested keys not match"⟩
  else .success

/-- What is done when the invalidation has failed: the address is no location. -/
def dropLocation (address : Bytes) (a : WriteAnswer) : Status × OCMetadataManager × ObjectMeta :=
  let (rc, store) := m.objectStore.removeObjectLocation objectKey address a
  let m := { m with objectStore := store }
  if !rc.isOk then (rc, m, entry) else (.success, m, { entry with locations := entry.locations.erase address })

/-- The keys that are nested in an object are recorded, if they have to be. -/
def setNestedKeys (nestedObjectKeys : List Bytes) (needed : Bool) (answer : Bytes → WriteAnswer) : Status × OCMetadataManager :=
  if !needed then (.success, m)
  else
    let (rc, nestedRefManager) := m.nestedRefManager.increaseNestedKeys m.objectStore.config objectKey nestedObjectKeys answer
    (rc, { m with nestedRefManager })

/-- What is checked before an object that exists is created again. -/
def checkUpdate (newMeta : ObjectMetaPb) (nestedObjectKeys : List Bytes) : Status :=
  let rc := checkExistenceOpt entry newMeta.existence false
  if !rc.isOk then rc
  else if entry.multiSetState = .pending then multiMetaIsCreating
  else checkBinaryFormatParamMatch m.nestedRefManager objectKey entry newMeta.config nestedObjectKeys

def changeTo (newMeta : ObjectMetaPb) (address : Bytes) (version : Nat) : ChangedMeta :=
  ⟨address,version,newMeta.dataSize,newMeta.lifeState,newMeta.blobSizes⟩

/-- An object that exists is created again, by a request for one or for many keys. -/
def updateExisting (newMeta : ObjectMetaPb)
    (address : Bytes) (nestedObjectKeys : List Bytes) (version : Nat) (a : UpdateAnswer) :
    Status × OCMetadataManager × ObjectMeta :=
  let rc := m.checkUpdate objectKey entry newMeta nestedObjectKeys
  if !rc.isOk then (rc, m, entry)
  else
    let (s, m, entry) := m.doBinaryCacheInvalidationUnlocked objectKey entry (changeTo newMeta address version) a
    let (rc, m, entry) :=
      if !s.isOk then m.dropLocation objectKey entry address a.removeLocation else (.success, m, entry)
    if !rc.isOk then (rc, m, entry)
    else
      let needed := nestedObjectKeys ≠ [] ∧ m.nestedRefManager.isNestedKeysDiff objectKey nestedObjectKeys
      let (rc, m) := m.setNestedKeys objectKey nestedObjectKeys needed a.nested
      if !rc.isOk then (rc, m, entry)
      else if !a.insertExpired.isOk then (a.insertExpired, m, entry)
      else (s, m, entry)

/-- `UpdateMeta` for a key of a request for many keys, which have no nested keys. -/
def updateMeta (newMeta : ObjectMetaPb) (address : Bytes) (version : Nat) (a : UpdateAnswer) : Status × OCMetadataManager × ObjectMeta :=
  m.updateExisting objectKey entry newMeta address [] version a

end OCMetadataManager

structure UpdateMetaReqPb where
  objectKey : Bytes
  address : Bytes
  lifeState : ObjectLifeState
  dataSize : Nat
  nestedKeys : List Bytes := []
  binaryFormatParams : ConfigPb := {}
deriving DecidableEq, Repr

def UpdateMetaReqPb.changeTo (request : UpdateMetaReqPb) (version : Nat) : ChangedMeta :=
  ⟨request.address,version,request.dataSize,request.lifeState,[]⟩

namespace OCMetadataManager

variable (m : OCMetadataManager)

def checkUpdateRequest (request : UpdateMetaReqPb) (entry : ObjectMeta) : Status :=
  if entry.isBinary then
    checkBinaryFormatParamMatch m.nestedRefManager request.objectKey entry
      { request.binaryFormatParams with isReplica := false } request.nestedKeys
  else .success

def updateMetaByState (request : UpdateMetaReqPb) (entry : ObjectMeta) (a : UpdateAnswer) :
    Status × OCMetadataManager × ObjectMeta :=
  let rc := m.checkUpdateRequest request entry
  if !rc.isOk then (rc, m, entry)
  else
    let (s, m, entry) := m.doBinaryCacheInvalidationUnlocked request.objectKey entry (request.changeTo a.timestamp) a
    if !s.isOk then
      let (rc, m, entry) := m.dropLocation request.objectKey entry request.address a.removeLocation
      if !rc.isOk then (rc, m, entry) else (s, m, entry)
    else
      let needed := m.nestedRefManager.isNestedKeysDiff request.objectKey request.nestedKeys
      let (rc, m) := m.setNestedKeys request.objectKey request.nestedKeys needed a.nested
      if !rc.isOk then (rc, m, entry) else (a.insertExpired, m, entry)

def setMeta (objectKey : Bytes) (entry : ObjectMeta) : OCMetadataManager :=
  { m with metaTable := m.metaTable.insert objectKey entry }

def retryLater : Status := ⟨.workerTimeout,"retry"⟩

def updateMetaRequest (request : UpdateMetaReqPb) (a : UpdateAnswer) : Status × OCMetadataManager :=
  if request.objectKey = [] ∨ request.address = [] then
    (⟨.invalid,"UpdateMeta: Cannot UpdateMeta with empty objectKey or server address."⟩, m)
  else if !a.fillRedirect.isOk then (a.fillRedirect, m)
  else if a.redirected then (.success, m)
  else if !a.removeExpired.isOk then (a.removeExpired, m)
  else
    match m.metaTable.lookup request.objectKey with
    | none => (⟨.notFound,"[ObjectKey %s] does not exist"⟩, m)
    | some entry =>
      if entry.multiSetState = .pending then (multiMetaIsCreating, m)
      else if entry.isCausal && !a.addHeavyOp then (retryLater, m)
      else
        let (rc, m, entry) := m.updateMetaByState request entry a
        (rc, m.setMeta request.objectKey entry)

end OCMetadataManager

/-! ## What a request does to the entry -/

/-- The version, size, state and primary address of an object. -/
structure MetaCore where
  version : Nat
  dataSize : Nat
  lifeState : ObjectLifeState
  primaryAddress : Bytes
deriving DecidableEq, Repr

def ObjectMeta.core (entry : ObjectMeta) : MetaCore :=
  ⟨entry.objectMeta.version,entry.objectMeta.dataSize,entry.objectMeta.lifeState,entry.objectMeta.primaryAddress⟩

def ChangedMeta.core (changedMeta : ChangedMeta) : MetaCore :=
  ⟨changedMeta.newVersion,changedMeta.newDataSz,changedMeta.newLifeState,changedMeta.newAddress⟩

theorem LeavesMeta.core {source : Bytes} {m m' : OCMetadataManager} {entry entry' : ObjectMeta}
    (h : LeavesMeta source m entry m' entry') : entry'.core = entry.core := by
  simp only [ObjectMeta.core,h.objectMeta]

def UpdateAnswer.persists (a : UpdateAnswer) (c : StoreConfig) (type : WriteType) (acked : Bool) : Bool :=
  a.serialized && a.put.accepted c type && (acked || !c.isPersistenceEnabled || a.addLocation.status.isOk)

def UpdateAnswer.recordsNested (a : UpdateAnswer) (c : StoreConfig) (needed : Bool) (nestedObjectKeys : List Bytes) : Bool :=
  !needed || !c.isPersistenceEnabled || nestedObjectKeys.all fun id => (a.nested id).status.isOk

namespace OCNestedManager

theorem isOk_addNestedRelationships (c : StoreConfig) (parentObjectKey : Bytes) (answer : Bytes → WriteAnswer)
    (ids : List Bytes) (n : OCNestedManager) :
    (addNestedRelationships c parentObjectKey answer ids n).1.isOk =
      (!c.isPersistenceEnabled || ids.all fun id => (answer id).status.isOk) := by
  induction ids generalizing n with
  | nil => simp [addNestedRelationships]
  | cons id ids ih =>
    cases hpersist : c.isPersistenceEnabled
    · simp [addNestedRelationships,addNestedRelationship,hpersist,ih]
    · cases hid : (answer id).status.isOk
      · simp [addNestedRelationships,addNestedRelationship,hpersist,hid]
      · simp [addNestedRelationships,addNestedRelationship,hpersist,hid,ih]

end OCNestedManager

namespace OCMetadataManager

theorem isOk_setNestedKeys (m : OCMetadataManager) (objectKey : Bytes) (nestedObjectKeys : List Bytes) (needed : Bool)
    (a : UpdateAnswer) :
    (m.setNestedKeys objectKey nestedObjectKeys needed a.nested).1.isOk =
      a.recordsNested m.objectStore.config needed nestedObjectKeys := by
  have hloop := OCNestedManager.isOk_addNestedRelationships m.objectStore.config objectKey a.nested nestedObjectKeys
    m.nestedRefManager
  cases needed
  · rfl
  · rw [setNestedKeys,OCNestedManager.increaseNestedKeys,UpdateAnswer.recordsNested,Bool.not_true,Bool.false_or,← hloop]
    simp only [Bool.false_eq_true,if_false]
    split_ifs with hfail
    · rfl
    · rw [isOk_success]
      simpa using hfail

theorem leavesMeta_notifyCopies (m : OCMetadataManager) (objectKey : Bytes) (prevMeta : ObjectMeta)
    (changedMeta : ChangedMeta) (a : UpdateAnswer) :
    LeavesMeta changedMeta.newAddress m prevMeta (m.notifyCopies objectKey prevMeta changedMeta a).2.1
      (m.notifyCopies objectKey prevMeta changedMeta a).2.2 := by
  unfold notifyCopies
  split_ifs
  · apply LeavesMeta.refl
  · apply leavesMeta_syncSendLoop
  · apply leavesMeta_asyncSendUpdateObject
  · apply LeavesMeta.refl

/-- Part of a request leaves the entries in memory, and in the stores all but the one of its key. -/
structure KeepsOthers (objectKey : Bytes) (m m' : OCMetadataManager) : Prop where
  metaTable : m'.metaTable = m.metaTable
  store : m.objectStore.WritesOnly objectKey m'.objectStore

namespace KeepsOthers

variable {objectKey : Bytes} {m m' m'' : OCMetadataManager}

theorem refl (objectKey : Bytes) (m : OCMetadataManager) : KeepsOthers objectKey m m :=
  ⟨rfl,.refl objectKey m.objectStore⟩

theorem trans (h : KeepsOthers objectKey m m') (h' : KeepsOthers objectKey m' m'') : KeepsOthers objectKey m m'' :=
  ⟨h'.metaTable.trans h.metaTable,h.store.trans h'.store⟩

end KeepsOthers

theorem keepsOthers_of_leavesMeta {source : Bytes} {m m' : OCMetadataManager}
    {entry entry' : ObjectMeta} (h : LeavesMeta source m entry m' entry') (objectKey : Bytes) :
    KeepsOthers objectKey m m' :=
  ⟨h.metaTable,.of_eq h.config h.objectMetas⟩

section Persist

variable (m : OCMetadataManager) (objectKey : Bytes) (entry : ObjectMeta) (changedMeta : ChangedMeta)
  (updateStoredAckState : Bool) (a : UpdateAnswer)

theorem isOk_persistUpdatedMeta : (m.persistUpdatedMeta objectKey entry changedMeta updateStoredAckState a).1.isOk =
      a.persists m.objectStore.config (writeMode2MetaType entry.objectMeta.config.writeMode) (!updateStoredAckState) := by
  unfold persistUpdatedMeta UpdateAnswer.persists
  cases a.serialized
  · simp
  · cases haccepted : a.put.accepted m.objectStore.config (writeMode2MetaType entry.objectMeta.config.writeMode)
    · simp [haccepted]
    · cases updateStoredAckState <;> simp [haccepted]

theorem keepsOthers_persistUpdatedMeta :
    KeepsOthers objectKey m (m.persistUpdatedMeta objectKey entry changedMeta updateStoredAckState a).2 := by
  have hput := ObjectMetaStore.writesOnly_createOrUpdateMeta m.objectStore objectKey entry.objectMeta
    (writeMode2MetaType entry.objectMeta.config.writeMode) a.put
  unfold persistUpdatedMeta
  dsimp only
  split_ifs
  · exact .refl objectKey m
  · exact ⟨rfl,hput⟩
  · exact ⟨rfl,hput.trans (.of_eq (by simp) (by simp))⟩
  · exact ⟨rfl,hput⟩

theorem nestedRefManager_persistUpdatedMeta :
    (m.persistUpdatedMeta objectKey entry changedMeta updateStoredAckState a).2.nestedRefManager = m.nestedRefManager := by
  unfold persistUpdatedMeta
  dsimp only
  split_ifs <;> rfl

end Persist

section Invalidation

variable (m : OCMetadataManager) (objectKey : Bytes) (prevMeta : ObjectMeta) (changedMeta : ChangedMeta) (a : UpdateAnswer)

/-- All workers that have copies have been told. -/
def copiesTold : Bool := (m.notifyCopies objectKey prevMeta changedMeta a).1.isOk

/-- What an invalidation leaves of the entry, the other entries and the nested keys. -/
structure Invalidates (m' : OCMetadataManager) (entry' : ObjectMeta) : Prop where
  core : entry'.core = if m.copiesTold objectKey prevMeta changedMeta a then changedMeta.core else prevMeta.core
  multiSetState : entry'.multiSetState = prevMeta.multiSetState
  others : KeepsOthers objectKey m m'
  nestedRefManager : m'.nestedRefManager = m.nestedRefManager

theorem invalidates_doBinaryCacheInvalidationUnlocked : m.Invalidates objectKey prevMeta changedMeta a
      (m.doBinaryCacheInvalidationUnlocked objectKey prevMeta changedMeta a).2.1
      (m.doBinaryCacheInvalidationUnlocked objectKey prevMeta changedMeta a).2.2 := by
  have hleaves := leavesMeta_notifyCopies m objectKey prevMeta changedMeta a
  unfold doBinaryCacheInvalidationUnlocked
  dsimp only
  cases htold : m.copiesTold objectKey prevMeta changedMeta a
  · rw [if_pos (by simpa [copiesTold] using htold)]
    exact ⟨by rw [htold]; exact hleaves.core,hleaves.multiSetState,keepsOthers_of_leavesMeta hleaves objectKey,
      hleaves.nestedRefManager⟩
  · rw [if_neg (by simpa [copiesTold] using htold)]
    exact ⟨by rw [htold]; rfl,hleaves.multiSetState,
      (keepsOthers_of_leavesMeta hleaves objectKey).trans (keepsOthers_persistUpdatedMeta _ _ _ _ _ _),
      (nestedRefManager_persistUpdatedMeta _ _ _ _ _ _).trans hleaves.nestedRefManager⟩

theorem isOk_doBinaryCacheInvalidationUnlocked :
    (m.doBinaryCacheInvalidationUnlocked objectKey prevMeta changedMeta a).1.isOk =
      (m.copiesTold objectKey prevMeta changedMeta a &&
        a.persists m.objectStore.config (writeMode2MetaType prevMeta.objectMeta.config.writeMode)
          (prevMeta.locations.lookup changedMeta.newAddress = some .ack)) := by
  have hleaves := leavesMeta_notifyCopies m objectKey prevMeta changedMeta a
  unfold doBinaryCacheInvalidationUnlocked
  dsimp only
  cases htold : m.copiesTold objectKey prevMeta changedMeta a
  · rw [if_pos (by simpa [copiesTold] using htold)]
    exact htold
  · rw [if_neg (by simpa [copiesTold] using htold)]
    simp [isOk_persistUpdatedMeta,ObjectMeta.update,hleaves.config,hleaves.objectMeta,hleaves.ackState]

end Invalidation

section Requests

/-- What a part of a request leaves if it does not change the entry itself. -/
structure KeepsEntry (objectKey : Bytes) (m : OCMetadataManager) (entry : ObjectMeta) (m' : OCMetadataManager)
    (entry' : ObjectMeta) : Prop where
  core : entry'.core = entry.core
  multiSetState : entry'.multiSetState = entry.multiSetState
  others : KeepsOthers objectKey m m'
  nestedRefManager : m'.nestedRefManager = m.nestedRefManager

namespace KeepsEntry

variable {objectKey : Bytes} {m m' : OCMetadataManager} {entry entry' : ObjectMeta}

theorem refl (objectKey : Bytes) (m : OCMetadataManager) (entry : ObjectMeta) : KeepsEntry objectKey m entry m entry :=
  ⟨rfl,rfl,.refl objectKey m,rfl⟩

end KeepsEntry

variable (m : OCMetadataManager) (objectKey : Bytes)

theorem keepsEntry_dropLocation (entry : ObjectMeta) (address : Bytes) (a : WriteAnswer) :
    KeepsEntry objectKey m entry (m.dropLocation objectKey entry address a).2.1
      (m.dropLocation objectKey entry address a).2.2 := by
  unfold dropLocation
  dsimp only
  split_ifs <;> exact ⟨rfl,rfl,⟨rfl,.of_eq (by simp) (by simp)⟩,rfl⟩

theorem keepsEntry_afterInvalidation (entry : ObjectMeta) (address : Bytes) (s : Status) (a : WriteAnswer) :
    KeepsEntry objectKey m entry
      (if !s.isOk then m.dropLocation objectKey entry address a else (.success, m, entry)).2.1
      (if !s.isOk then m.dropLocation objectKey entry address a else (.success, m, entry)).2.2 := by
  split_ifs
  · apply keepsEntry_dropLocation
  · apply KeepsEntry.refl

theorem isOk_afterInvalidation (entry : ObjectMeta) (address : Bytes)
    (s : Status) (a : WriteAnswer) (hs : s.isOk = true) :
    (if !s.isOk then m.dropLocation objectKey entry address a else (.success, m, entry)).1.isOk = true := by
  simp [hs]

theorem keepsOthers_setNestedKeys (nestedObjectKeys : List Bytes) (needed : Bool) (answer : Bytes → WriteAnswer) :
    KeepsOthers objectKey m (m.setNestedKeys objectKey nestedObjectKeys needed answer).2 := by
  unfold setNestedKeys
  split_ifs <;> exact ⟨rfl,.refl objectKey m.objectStore⟩

/-- What a request that updates an object does to its entry: it is rewritten, or its version, size, state and
primary address are kept. -/
structure UpdateOutcome (objectKey : Bytes) (m : OCMetadataManager) (prevMeta : ObjectMeta) (changedMeta : ChangedMeta)
    (rewrites completes : Bool) (r : Status × OCMetadataManager × ObjectMeta) : Prop where
  core : r.2.2.core = if rewrites then changedMeta.core else prevMeta.core
  multiSetState : r.2.2.multiSetState = prevMeta.multiSetState
  others : KeepsOthers objectKey m r.2.1
  isOk : rewrites = true → r.1.isOk = completes

variable (m : OCMetadataManager) (objectKey : Bytes) (prevMeta : ObjectMeta)

theorem updateOutcome_refused (changedMeta : ChangedMeta) (rc : Status) (completes : Bool) :
    UpdateOutcome objectKey m prevMeta changedMeta false completes (rc, m, prevMeta) :=
  ⟨rfl,rfl,.refl objectKey m,by simp⟩

theorem updateExisting_outcome (newMeta : ObjectMetaPb) (address : Bytes) (nestedObjectKeys : List Bytes) (version : Nat)
    (a : UpdateAnswer) :
    UpdateOutcome objectKey m prevMeta (changeTo newMeta address version)
      ((m.checkUpdate objectKey prevMeta newMeta nestedObjectKeys).isOk &&
        m.copiesTold objectKey prevMeta (changeTo newMeta address version) a)
      (a.persists m.objectStore.config (writeMode2MetaType prevMeta.objectMeta.config.writeMode)
          (prevMeta.locations.lookup address = some .ack) &&
        a.recordsNested m.objectStore.config
          (nestedObjectKeys ≠ [] ∧ m.nestedRefManager.isNestedKeysDiff objectKey nestedObjectKeys) nestedObjectKeys &&
        a.insertExpired.isOk)
      (m.updateExisting objectKey prevMeta newMeta address nestedObjectKeys version a) := by
  unfold updateExisting
  cases hcheck : (m.checkUpdate objectKey prevMeta newMeta nestedObjectKeys).isOk
  · simp only [hcheck,Bool.not_false,if_true,Bool.false_and]
    apply updateOutcome_refused
  · have hdo := invalidates_doBinaryCacheInvalidationUnlocked m objectKey prevMeta (changeTo newMeta address version) a
    have hisOk := isOk_doBinaryCacheInvalidationUnlocked m objectKey prevMeta (changeTo newMeta address version) a
    generalize m.doBinaryCacheInvalidationUnlocked objectKey prevMeta (changeTo newMeta address version) a = r at hdo hisOk
    obtain ⟨s,m₁,entry₁⟩ := r
    simp only [hcheck,Bool.not_true,Bool.false_eq_true,if_false,Bool.true_and]
    have hdrop := keepsEntry_afterInvalidation m₁ objectKey entry₁ address s a.removeLocation
    have hrc := isOk_afterInvalidation m₁ objectKey entry₁ address s a.removeLocation
    generalize (if (!s.isOk) = true then m₁.dropLocation objectKey entry₁ address a.removeLocation
      else (Status.success, m₁, entry₁)) = r at hdrop hrc
    obtain ⟨rc,m₂,entry₂⟩ := r
    dsimp only at hdo hisOk hdrop hrc
    have hcore := hdrop.core.trans hdo.core
    have hstate := hdrop.multiSetState.trans hdo.multiSetState
    have hothers := hdo.others.trans hdrop.others
    have hnested : m₂.nestedRefManager = m.nestedRefManager := hdrop.nestedRefManager.trans hdo.nestedRefManager
    have hset := isOk_setNestedKeys m₂ objectKey nestedObjectKeys
      (nestedObjectKeys ≠ [] ∧ m.nestedRefManager.isNestedKeysDiff objectKey nestedObjectKeys) a
    have hset' := keepsOthers_setNestedKeys m₂ objectKey nestedObjectKeys
      (nestedObjectKeys ≠ [] ∧ m.nestedRefManager.isNestedKeysDiff objectKey nestedObjectKeys) a.nested
    simp only [hnested]
    rw [hothers.store.config] at hset
    generalize m₂.setNestedKeys objectKey nestedObjectKeys _ a.nested = r at hset hset' ⊢
    obtain ⟨rc',m₃⟩ := r
    dsimp only at hset hset' ⊢
    have hs (htold : m.copiesTold objectKey prevMeta (changeTo newMeta address version) a = true) :
        a.persists m.objectStore.config (writeMode2MetaType prevMeta.objectMeta.config.writeMode)
          (prevMeta.locations.lookup address = some .ack) = s.isOk := by
      rw [hisOk,htold,Bool.true_and]
      rfl
    split_ifs with hdropped hrecorded hexpired
    · refine ⟨hcore,hstate,hothers,fun htold => ?_⟩
      rw [hs htold]
      cases hsok : s.isOk
      · simpa using hdropped
      · simp [hrc hsok] at hdropped
    · refine ⟨hcore,hstate,hothers.trans hset',fun htold => ?_⟩
      rw [← hset]
      simp_all
    · refine ⟨hcore,hstate,hothers.trans hset',fun htold => ?_⟩
      simp_all
    · refine ⟨hcore,hstate,hothers.trans hset',fun htold => ?_⟩
      rw [hs htold,← hset]
      simp_all

theorem updateMetaByState_outcome (request : UpdateMetaReqPb) (a : UpdateAnswer) :
    UpdateOutcome request.objectKey m prevMeta (request.changeTo a.timestamp)
      ((m.checkUpdateRequest request prevMeta).isOk &&
        m.copiesTold request.objectKey prevMeta (request.changeTo a.timestamp) a)
      (a.persists m.objectStore.config (writeMode2MetaType prevMeta.objectMeta.config.writeMode)
          (prevMeta.locations.lookup request.address = some .ack) &&
        a.recordsNested m.objectStore.config
          (m.nestedRefManager.isNestedKeysDiff request.objectKey request.nestedKeys) request.nestedKeys &&
        a.insertExpired.isOk)
      (m.updateMetaByState request prevMeta a) := by
  unfold updateMetaByState
  cases hcheck : (m.checkUpdateRequest request prevMeta).isOk
  · simp only [hcheck,Bool.not_false,if_true,Bool.false_and]
    apply updateOutcome_refused
  · have hdo := invalidates_doBinaryCacheInvalidationUnlocked m request.objectKey prevMeta (request.changeTo a.timestamp) a
    have hisOk := isOk_doBinaryCacheInvalidationUnlocked m request.objectKey prevMeta (request.changeTo a.timestamp) a
    generalize m.doBinaryCacheInvalidationUnlocked request.objectKey prevMeta (request.changeTo a.timestamp) a = r
      at hdo hisOk
    obtain ⟨s,m₁,entry₁⟩ := r
    simp only [hcheck,Bool.not_true,Bool.false_eq_true,if_false,Bool.true_and]
    dsimp only at hdo hisOk
    have hs (htold : m.copiesTold request.objectKey prevMeta (request.changeTo a.timestamp) a = true) :
        a.persists m.objectStore.config (writeMode2MetaType prevMeta.objectMeta.config.writeMode)
          (prevMeta.locations.lookup request.address = some .ack) = s.isOk := by
      rw [hisOk,htold,Bool.true_and]
      rfl
    cases hsok : s.isOk
    · have hdrop := keepsEntry_dropLocation m₁ request.objectKey entry₁ request.address a.removeLocation
      simp only [Bool.not_false,if_true]
      split_ifs with hdropped
      · refine ⟨hdrop.core.trans hdo.core,hdrop.multiSetState.trans hdo.multiSetState,hdo.others.trans hdrop.others,
          fun htold => ?_⟩
        rw [hs htold,hsok]
        simpa using hdropped
      · refine ⟨hdrop.core.trans hdo.core,hdrop.multiSetState.trans hdo.multiSetState,hdo.others.trans hdrop.others,
          fun htold => ?_⟩
        rw [hs htold,hsok]
        rfl
    · have hset := isOk_setNestedKeys m₁ request.objectKey request.nestedKeys
        (m.nestedRefManager.isNestedKeysDiff request.objectKey request.nestedKeys) a
      have hset' := keepsOthers_setNestedKeys m₁ request.objectKey request.nestedKeys
        (m.nestedRefManager.isNestedKeysDiff request.objectKey request.nestedKeys) a.nested
      rw [hdo.others.store.config] at hset
      simp only [Bool.not_true,Bool.false_eq_true,if_false,hdo.nestedRefManager]
      split_ifs with hrecorded
      · refine ⟨hdo.core,hdo.multiSetState,hdo.others.trans hset',fun htold => ?_⟩
        rw [hs htold,hsok,← hset]
        simp_all
      · refine ⟨hdo.core,hdo.multiSetState,hdo.others.trans hset',fun htold => ?_⟩
        rw [hs htold,hsok,← hset]
        simp_all

end Requests

end OCMetadataManager

end Datasystem.Master
