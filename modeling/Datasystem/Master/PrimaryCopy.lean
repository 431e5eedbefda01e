import Datasystem.Master.CreateMeta

/-!
# The primary copy of an object

The model follows one object through these requests: what happens to the other objects of the same request is
an argument, as are all answers.
-/

namespace Datasystem.Master

/-- Whether a member of the topology is about to leave, or that this could not be found out. -/
abbrev LeavingAnswer := Except Status Bool

/-- How the stores answer when an entry whose primary address has changed is written; the errors are only logged. -/
structure WriteEntryAnswer where
  serialized : Bool := true
  put : StoreAnswer := {}

structure RemoveMetaRspPb where
  successIds : Bool := false
  failedIds : Bool := false
  needDataIds : Bool := false
  needL2cacheIds : Bool := false
  needWaitIds : Bool := false
deriving DecidableEq, Repr

namespace ObjectMeta

variable (entry : ObjectMeta)

def isPrimaryWithoutCopy (address : Bytes) : Bool := entry.locations.keys = [address]

def isWriteBack : Bool :=
  entry.objectMeta.config.writeMode = .writeBackL2Cache ∨ entry.objectMeta.config.writeMode = .writeBackL2CacheEvict

def setPrimaryAddress (primaryAddr : Bytes) : ObjectMeta :=
  { entry with objectMeta := { entry.objectMeta with primaryAddress := primaryAddr } }

def eraseLocation (address : Bytes) : ObjectMeta := { entry with locations := entry.locations.erase address }

end ObjectMeta

/-- The loop of `IsPrimaryCopyWithCopy`: no other worker that stays has an acknowledged copy. -/
def allCopyIsExitingNode (preLeaving : Bytes → LeavingAnswer) (address : Bytes) :
    List (Sigma fun _ : Bytes => AckState) → Except Status Bool
  | [] => .ok true
  | loc :: locs =>
    if loc.1 = address ∨ loc.2 ≠ .ack then allCopyIsExitingNode preLeaving address locs
    else
      match preLeaving loc.1 with
      | .error e => .error e
      | .ok false => .ok false
      | .ok true => allCopyIsExitingNode preLeaving address locs

def isPrimaryCopyWithCopy (preLeaving : Bytes → LeavingAnswer) (entry : ObjectMeta) (address : Bytes) :
    Except Status Bool :=
  if entry.isPrimaryWithoutCopy address then .ok true
  else allCopyIsExitingNode preLeaving address entry.locations.entries

/-- The first location other than a given one on a worker that stays; whether its copy is acknowledged is not asked. -/
def selectOther (preLeaving : Bytes → LeavingAnswer) (address : Bytes) : List Bytes → Except Status (Option Bytes)
  | [] => .ok none
  | location :: locations =>
    if location = address then selectOther preLeaving address locations
    else
      match preLeaving location with
      | .error e => .error e
      | .ok false => .ok (some location)
      | .ok true => selectOther preLeaving address locations

/-- The first location other than a given one on a worker that stays and agrees to become primary. -/
def selectAgreeing (preLeaving : Bytes → LeavingAnswer) (agrees : Bytes → Bool) (address : Bytes) :
    List Bytes → Except Status (Option Bytes)
  | [] => .ok none
  | location :: locations =>
    if location = address then selectAgreeing preLeaving agrees address locations
    else
      match preLeaving location with
      | .error e => .error e
      | .ok true => selectAgreeing preLeaving agrees address locations
      | .ok false =>
        if agrees location then .ok (some location) else selectAgreeing preLeaving agrees address locations

/-- How the other components answer to a worker that gives up its copy. -/
structure GiveUpAnswer where
  /-- `IsLocalExitRequested` when the object is looked at, when it is changed and when it is changed in the retry. -/
  exiting : Bool := false
  exitingAtChange : Bool := false
  exitingAtRetry : Bool := false
  /-- The outcome for the objects before and after this one, and for those before it in the retry. -/
  earlier : Status := .success
  later : Status := .success
  earlierRetry : Status := .success
  preLeaving : Bytes → LeavingAnswer := fun _ => .ok false
  preLeavingAtRetry : Bytes → LeavingAnswer := fun _ => .ok false
  removeLocation : WriteAnswer := {}
  /-- The worker has confirmed `SendChangePrimaryCopy` for the object. -/
  agrees : Bytes → Bool := fun _ => true
  agreesAtRetry : Bytes → Bool := fun _ => true
  write : WriteEntryAnswer := {}

namespace OCMetadataManager

variable (m : OCMetadataManager)

/-- The entry is written to the stores. What is written if it cannot be serialized is an empty message. -/
def writeEntry (objectKey : Bytes) (entry : ObjectMeta) (a : WriteEntryAnswer) : OCMetadataManager :=
  { m with
    objectStore := (m.objectStore.createOrUpdateMeta objectKey (if a.serialized then entry.objectMeta else {})
      (writeMode2MetaType entry.objectMeta.config.writeMode) a.put).2 }

def changePrimaryCopy (primaryAddr objectKey : Bytes) (topologyOperation exiting : Bool)
    (a : WriteEntryAnswer) : Status × OCMetadataManager :=
  if exiting && !topologyOperation then (⟨.tryAgain,"Try again"⟩, m)
  else
    match m.metaTable.lookup objectKey with
    | none => (.success, m)
    | some entry =>
      let entry := entry.setPrimaryAddress primaryAddr
      (.success, (m.setMeta objectKey entry).writeEntry objectKey entry a)

variable (objectKey address : Bytes)

/-- `ProcessGiveUpPrimaryObject`, which also gives the worker that is to become primary. -/
def processGiveUpPrimaryObject (topologyOperation : Bool) (a : GiveUpAnswer) : Status × RemoveMetaRspPb × Option Bytes × OCMetadataManager :=
  if a.exiting && !topologyOperation then (.success, { failedIds := true }, none, m)
  else
    match m.metaTable.lookup objectKey with
    | none => (.success, { successIds := true }, none, m)
    | some entry =>
      match isPrimaryCopyWithCopy a.preLeaving entry address with
      | .error e => (e, {}, none, m)
      | .ok isPrimaryWithoutCopy =>
        if entry.objectMeta.primaryAddress = address ∧ entry.hasL2Cache then
          (.success, { needL2cacheIds := true, needWaitIds := entry.isWriteBack }, none, m)
        else if isPrimaryWithoutCopy then
          (.success, { needDataIds := true, needWaitIds := entry.isWriteBack }, none, m)
        else
          match selectOther a.preLeaving address entry.locations.keys with
          | .error e => (e, {}, none, m)
          | .ok none => (.success, { needDataIds := true }, none, m)
          | .ok (some location) =>
            let m := m.setMeta objectKey (entry.eraseLocation address)
            (.success, {}, some location,
              { m with objectStore := (m.objectStore.removeObjectLocation objectKey address a.removeLocation).2 })

/-- `RetryForFailedIds` for an object that a worker has not become primary of. -/
def retryForFailedIds (objectKey worker : Bytes) (topologyOperation : Bool) (a : GiveUpAnswer) :
    Status × RemoveMetaRspPb × OCMetadataManager :=
  if !a.earlierRetry.isOk then (a.earlierRetry, {}, m)
  else
    match m.metaTable.lookup objectKey with
    | none => (.success, { successIds := true }, m)
    | some entry =>
      match selectAgreeing a.preLeavingAtRetry a.agreesAtRetry worker entry.locations.keys with
      | .error e => (e, {}, m)
      | .ok none => (.success, { failedIds := true }, m)
      | .ok (some addr) =>
        let (rc, m) := m.changePrimaryCopy addr objectKey topologyOperation a.exitingAtRetry a.write
        (.success, { successIds := rc.isOk, failedIds := !rc.isOk }, m)

def giveUpPrimaryLocation (topologyOperation : Bool) (a : GiveUpAnswer) : Status × RemoveMetaRspPb × OCMetadataManager :=
  if !a.earlier.isOk then (a.earlier, {}, m)
  else
    let (rc, rsp, worker, m) := m.processGiveUpPrimaryObject objectKey address topologyOperation a
    if !rc.isOk then (rc, rsp, m)
    else if !a.later.isOk then (a.later, rsp, m)
    else
      match worker with
      | none => (.success, rsp, m)
      | some worker =>
        if a.agrees worker then
          let (rc, m) := m.changePrimaryCopy worker objectKey topologyOperation a.exitingAtChange a.write
          (.success, { rsp with successIds := rc.isOk, failedIds := !rc.isOk }, m)
        else m.retryForFailedIds objectKey worker topologyOperation a

/-- `ReselectPrimaryCopy`. That the primary copy is normal is reported as an error. -/
def reselectPrimaryCopy (entry : ObjectMeta) (excludedAddr : List Bytes) (primaryHealthy : Bool) : Except Status Bytes :=
  if primaryHealthy then .error ⟨.invalid,"The primary copy is normal. objectKey:%s"⟩
  else
    match entry.locations.keys.find? fun addr => addr ≠ entry.objectMeta.primaryAddress ∧ addr ∉ excludedAddr with
    | some addr => .ok addr
    | none => .error ⟨.unknownError,"Failed to select a new primary copy. objectKey:%s"⟩

def removeMetaForInvalidateBuffer (primaryHealthy : Bool) (removeLocation : WriteAnswer) : RemoveMetaRspPb × OCMetadataManager :=
  match m.metaTable.lookup objectKey with
  | none => ({}, m)
  | some entry =>
    if entry.locations.keys.length ≤ 1 ∨ entry.objectMeta.primaryAddress ≠ address then ({ successIds := true }, m)
    else
      let entry := entry.eraseLocation address
      let m := m.setMeta objectKey entry
      let (rc, store) := m.objectStore.removeObjectLocation objectKey address removeLocation
      let m := { m with objectStore := store }
      if !rc.isOk then ({}, m)
      else
        -- Only one of the two errors is looked at; after the other one the address is empty.
        match reselectPrimaryCopy entry [] primaryHealthy with
        | .ok newPrimaryCopy => ({ successIds := true }, m.setMeta objectKey (entry.setPrimaryAddress newPrimaryCopy))
        | .error rc =>
          if rc.code = .unknownError then ({}, m)
          else ({ successIds := true }, m.setMeta objectKey (entry.setPrimaryAddress []))

structure RemoveWorkerAnswer where
  primaryHealthy : Bool := false
  removeLocation : WriteAnswer := {}
  removeMeta : StoreAnswer := {}
  write : WriteEntryAnswer := {}

def removeMetaByWorkerForKey (objectKey workerAddr : Bytes) (a : RemoveWorkerAnswer) : Status × OCMetadataManager :=
  match m.metaTable.lookup objectKey with
  | none => (.success, m)
  | some entry =>
    let entry := entry.eraseLocation workerAddr
    let m := m.setMeta objectKey entry
    let m := { m with objectStore := (m.objectStore.removeObjectLocation objectKey workerAddr a.removeLocation).2 }
    if entry.locations.keys = [] ∧ entry.isNoneL2CacheEvict then
      (.success, { m with
        objectStore := (m.objectStore.removeMeta objectKey false a.removeMeta).2
        metaTable := m.metaTable.erase objectKey })
    else if workerAddr = entry.objectMeta.primaryAddress then
      let newPrimaryCopy := match reselectPrimaryCopy entry [] a.primaryHealthy with
        | .ok newPrimaryCopy => newPrimaryCopy
        | .error _ => []
      let entry := entry.setPrimaryAddress newPrimaryCopy
      let m := m.setMeta objectKey entry
      let rc := ObjectMetaStore.createSerializedStringForMeta a.write.serialized
      if !rc.isOk then (rc, m) else (.success, m.writeEntry objectKey entry a.write)
    else (.success, m)

/-- `ModifyPrimaryCopy`, when a worker has confirmed in the background that it is primary. -/
def modifyPrimaryCopy (objectKey workerId : Bytes) (primaryHealthy : Bool) (a : WriteEntryAnswer)
    (op : PersistOpAnswer) : OCMetadataManager :=
  match m.metaTable.lookup objectKey with
  | none => m
  | some entry =>
    if primaryHealthy then m
    else
      let oldPrimaryCopy := entry.objectMeta.primaryAddress
      let entry := entry.setPrimaryAddress workerId
      let m := (m.setMeta objectKey entry).writeEntry objectKey entry a
      { m with
        notifyWorkerManager := (m.notifyWorkerManager.insertAsyncWorkerOp m.objectStore.config oldPrimaryCopy objectKey
          { type := { primaryCopyInvalid := true } } (writeMode2MetaType entry.objectMeta.config.writeMode) op).2 }

end OCMetadataManager

end Datasystem.Master
