import Datasystem.Master.UpdateMeta
import Mathlib.Data.PNat.Basic

/-!
# Creation of objects

The entry in memory is there before the entry is persisted, and what has been done is taken back if a later
step fails, by different means for the formats and the kinds of request.
-/

namespace Datasystem.Master

structure CreateAnswer extends UpdateAnswer where
  /-- To the removal of an entry that could not be persisted. -/
  removeMeta : StoreAnswer := {}
  parseMasterAddress : Status := .success
  route : Bytes → Status := fun _ => .success
  isLocal : Bytes → Bool := fun _ => true
  nestedCount : Bytes → WriteAnswer := fun _ => {}
  incNestedRefs : Status := .success

def setMetaInfo (newMeta : ObjectMetaPb) (address : Bytes) (version : Nat) (metaCache : ObjectMeta) : ObjectMeta :=
  { metaCache with
    objectMeta := { newMeta with version := version, primaryAddress := address }
    locations := metaCache.locations.insert address .ack }

namespace OCMetadataManager

variable (m : OCMetadataManager) (objectKey : Bytes) (newMeta : ObjectMetaPb)

def persistCreatedMeta (address : Bytes) (version : Nat) (a : CreateAnswer) : Status × OCMetadataManager :=
  let type := writeMode2MetaType newMeta.config.writeMode
  let metaCache := setMetaInfo newMeta address version {}
  let m := m.setMeta objectKey metaCache
  let rc := ObjectMetaStore.createSerializedStringForMeta a.serialized
  let (rc, m) :=
    if rc.isOk then
      let (rc, store) := m.objectStore.createOrUpdateMeta objectKey metaCache.objectMeta type a.put
      if !rc.isOk then (rc, { m with objectStore := (store.removeMeta objectKey true a.removeMeta).2 })
      else (rc, { m with objectStore := store })
    else (rc, m)
  if !rc.isOk then (rc, { m with metaTable := m.metaTable.erase objectKey }) else (.success, m)

/-- The loop of `HandleNestedRefsOnCreate`, which also gives the keys that other masters count. -/
def countNestedKeys (a : CreateAnswer) : List Bytes → OCMetadataManager → Status × OCMetadataManager × List Bytes
  | [], m => (.success, m, [])
  | id :: ids, m =>
    if !(a.route id).isOk then (a.route id, m, [])
    else if a.isLocal id then
      let (rc, nestedRefManager) := m.nestedRefManager.increaseNestedRefCnt m.objectStore.config id 1 (a.nestedCount id)
      let m := { m with nestedRefManager }
      if !rc.isOk then (rc, m, []) else countNestedKeys a ids m
    else
      let (rc, m, toBeNotified) := countNestedKeys a ids m
      (rc, m, id :: toBeNotified)

def handleNestedRefsOnCreate (nestedObjectKeys : List Bytes) (a : CreateAnswer) : Status × OCMetadataManager :=
  let (rc, m) := m.setNestedKeys objectKey nestedObjectKeys true a.nested
  if !rc.isOk then (rc, m)
  else if !a.parseMasterAddress.isOk then (a.parseMasterAddress, m)
  else
    let (rc, m, toBeNotifiedNestedRefs) := countNestedKeys a nestedObjectKeys m
    if !rc.isOk then (rc, m)
    else if toBeNotifiedNestedRefs ≠ [] then (a.incNestedRefs, m)
    else (.success, m)

/-- `CreateMetaForBinaryFormat` for a key that had no entry. -/
def createMetaFirstTime (address : Bytes) (nestedObjectKeys : List Bytes) (a : CreateAnswer) : Status × OCMetadataManager :=
  let (rc, m) := m.persistCreatedMeta objectKey newMeta address a.timestamp a
  if !rc.isOk then (rc, m)
  else
    let (rc, m) :=
      if newMeta.lifeState ≠ .objectInvalid ∧ nestedObjectKeys ≠ [] then
        m.handleNestedRefsOnCreate objectKey nestedObjectKeys a
      else (.success, m)
    if !rc.isOk then (rc, m) else (a.insertExpired, m)

def createMetaForBinaryFormat (address : Bytes) (nestedObjectKeys : List Bytes) (a : CreateAnswer) : Status × OCMetadataManager :=
  match m.metaTable.lookup objectKey with
  | some prevMeta =>
    let (rc, m, entry) := m.updateExisting objectKey prevMeta newMeta address nestedObjectKeys a.timestamp a.toUpdateAnswer
    (rc, m.setMeta objectKey entry)
  | none => m.createMetaFirstTime objectKey newMeta address nestedObjectKeys a

/-- What two of the formats do with an entry that is already in memory. -/
def persistMeta (objectMeta : ObjectMetaPb) (type : WriteType) (a : UpdateAnswer) : Status × OCMetadataManager :=
  let rc := ObjectMetaStore.createSerializedStringForMeta a.serialized
  if !rc.isOk then (rc, m)
  else
    let (rc, store) := m.objectStore.createOrUpdateMeta objectKey objectMeta type a.put
    (rc, { m with objectStore := store })

def createHashMeta (address : Bytes) (a : UpdateAnswer) : Status × OCMetadataManager :=
  let objectMeta := { newMeta with primaryAddress := address }
  let type := writeMode2MetaType objectMeta.config.writeMode
  match m.metaTable.lookup objectKey with
  | some entry =>
    if entry.objectMeta.config.dataFormat ≠ newMeta.config.dataFormat then
      (⟨.invalid,"Invalid data format of objectKey(%s)"⟩, m)
    else
      (m.setMeta objectKey { entry with locations := entry.locations.insert address .ack }).persistMeta objectKey
        objectMeta type a
  | none =>
    (m.setMeta objectKey { objectMeta := objectMeta, locations := AList.insert address .ack ∅ }).persistMeta objectKey
      objectMeta type a

def createDeviceMeta (address : Bytes) (a : UpdateAnswer) : Status × OCMetadataManager :=
  let objectMeta := { newMeta with primaryAddress := address }
  match m.metaTable.lookup objectKey with
  | some _ => (⟨.invalid,"The object: %s is existed in metaTable."⟩, m)
  | none =>
    (m.setMeta objectKey { objectMeta := objectMeta, locations := AList.insert address .ack ∅ }).persistMeta objectKey
      objectMeta .rocksOnly a

def createMeta (address : Bytes) (nestedObjectKeys : List Bytes) (a : CreateAnswer) : Status × OCMetadataManager :=
  if !a.removeExpired.isOk then (a.removeExpired, m)
  else if newMeta.config.consistencyType = .causal ∧ !a.addHeavyOp then (retryLater, m)
  else if newMeta.config.dataFormat = .hashMap then m.createHashMeta objectKey newMeta address a.toUpdateAnswer
  else if newMeta.config.dataFormat = .hetero then m.createDeviceMeta objectKey newMeta address a.toUpdateAnswer
  else m.createMetaForBinaryFormat objectKey newMeta address nestedObjectKeys a

end OCMetadataManager

structure CreateMetaReqPb where
  objectKey : Bytes
  newMeta : ObjectMetaPb
  address : Bytes
  nestedKeys : List Bytes := []
deriving DecidableEq, Repr

namespace OCMetadataManager

def createMetaRequest (m : OCMetadataManager) (request : CreateMetaReqPb) (a : CreateAnswer) : Status × OCMetadataManager :=
  if request.objectKey = [] ∨ request.address = [] then
    (⟨.invalid,"CreateMeta: Cannot CreateMeta with empty objectKey or server address."⟩, m)
  else if !a.fillRedirect.isOk then (a.fillRedirect, m)
  else if a.redirected then (.success, m)
  else m.createMeta request.objectKey request.newMeta request.address request.nestedKeys a

/-- `CreateMeta` for a key of a request for many keys, and whether it had no entry. -/
def createMetaOfMulti (m : OCMetadataManager) (objectKey : Bytes) (newMeta : ObjectMeta) (address : Bytes) (version : Nat)
    (a : UpdateAnswer) : Status × Bool × OCMetadataManager :=
  let type := writeMode2MetaType newMeta.objectMeta.config.writeMode
  match m.metaTable.lookup objectKey with
  | some entry =>
    let (rc, m, entry) := m.updateMeta objectKey entry newMeta.objectMeta address version a
    (rc, false, m.setMeta objectKey entry)
  | none =>
    -- The entry that is inserted is empty until the new one has been persisted.
    let m := m.setMeta objectKey {}
    let (rc, m) :=
      if m.objectStore.config.isPersistenceEnabled then m.persistMeta objectKey newMeta.objectMeta type a
      else (.success, m)
    if !rc.isOk then (rc, true, m) else (a.insertExpired, true, m.setMeta objectKey newMeta)

end OCMetadataManager

structure ObjectBaseInfoPb where
  objectKey : Bytes
  dataSize : Nat := 0
  blobSizes : Option (List Nat) := none
deriving DecidableEq, Repr

structure CreateMultiMetaReqPb where
  metas : List ObjectBaseInfoPb
  address : Bytes
  lifeState : ObjectLifeState := .objectPublished
  config : ConfigPb := {}
  ttlSecond : Nat := 0
  existence : ExistenceOpt := .none
deriving DecidableEq, Repr

def CreateMultiMetaReqPb.constructMetaInfo (req : CreateMultiMetaReqPb) (info : ObjectBaseInfoPb) (version : Nat) :
    ObjectMetaPb :=
  { dataSize := info.dataSize, version := version, lifeState := req.lifeState, config := req.config,
    primaryAddress := req.address, ttlSecond := req.ttlSecond, existence := req.existence,
    blobSizes := info.blobSizes.getD [] }

structure CreateMultiMetaRspPb where
  failedObjectKeys : List Bytes := []
  existingObjectKeys : List Bytes := []
  lastRc : Status := .success
deriving DecidableEq, Repr

structure MultiAnswer where
  fillRedirect : Status := .success
  redirected : Bool := false
  timestamp : ℕ+ := 1
  /-- By the place of a key in the request. -/
  key : Nat → UpdateAnswer := fun _ => {}

structure MultiLoop where
  manager : OCMetadataManager
  rsp : CreateMultiMetaRspPb := {}
  rollBackIds : List Bytes := []

namespace OCMetadataManager

def emptyAddress : Status := ⟨.invalid,"CreateMeta: Cannot CreateMeta with server address."⟩

def createMultiRound (req : CreateMultiMetaReqPb) (version : Nat) (l : MultiLoop) (info : ObjectBaseInfoPb)
    (a : UpdateAnswer) : MultiLoop :=
  if info.objectKey = [] then
    { l with rsp := { l.rsp with failedObjectKeys := l.rsp.failedObjectKeys ++ [info.objectKey], lastRc := emptyAddress } }
  else
    let newMeta : ObjectMeta :=
      { objectMeta := req.constructMetaInfo info version, locations := AList.insert req.address .ack ∅ }
    let (rc, firstOne, m) := l.manager.createMetaOfMulti info.objectKey newMeta req.address version a
    let l := { l with manager := m }
    if rc.code = .ocKeyAlreadyExist ∧ req.existence = .nx then
      { l with rsp := { l.rsp with existingObjectKeys := l.rsp.existingObjectKeys ++ [info.objectKey] } }
    else if !rc.isOk then
      { l with
        rollBackIds := if firstOne then l.rollBackIds ++ [info.objectKey] else l.rollBackIds
        rsp := { l.rsp with failedObjectKeys := l.rsp.failedObjectKeys ++ [info.objectKey], lastRc := rc } }
    else l

def createMultiLoop (req : CreateMultiMetaReqPb) (version : Nat) (answer : Nat → UpdateAnswer) :
    List ObjectBaseInfoPb → Nat → MultiLoop → MultiLoop
  | [], _, l => l
  | info :: infos, i, l =>
    createMultiLoop req version answer infos (i + 1) (createMultiRound req version l info (answer i))

def rollBackMeta (address : Bytes) (version : Nat) (m : OCMetadataManager) (objKey : Bytes) : OCMetadataManager :=
  match m.metaTable.lookup objKey with
  | none => m
  | some entry =>
    if entry.objectMeta.primaryAddress = address ∧
        (entry.multiSetState = .pending ∨ entry.objectMeta.version = version) then
      { m with metaTable := m.metaTable.erase objKey }
    else m

def rollBackMultiMetaWhenCreateFailed (m : OCMetadataManager) (rollBackIds : List Bytes) (address : Bytes)
    (version : Nat := 0) : OCMetadataManager := rollBackIds.foldl (rollBackMeta address version) m

def createMultiMetaNtx (m : OCMetadataManager) (req : CreateMultiMetaReqPb) (a : MultiAnswer) :
    Status × CreateMultiMetaRspPb × OCMetadataManager :=
  if req.address = [] then (emptyAddress, {}, m)
  else
    let l := createMultiLoop req a.timestamp a.key req.metas 0 ⟨m,{},[]⟩
    (.success, l.rsp, l.manager.rollBackMultiMetaWhenCreateFailed l.rollBackIds req.address)

def createMultiMeta (m : OCMetadataManager) (req : CreateMultiMetaReqPb) (a : MultiAnswer) :
    Status × CreateMultiMetaRspPb × OCMetadataManager :=
  if !a.fillRedirect.isOk then (a.fillRedirect, {}, m)
  else if a.redirected then (.success, {}, m)
  else m.createMultiMetaNtx req a

end OCMetadataManager

end Datasystem.Master
