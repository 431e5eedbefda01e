import Datasystem.SlotClient.SlotIndexFiles

/-!
# Slots

Each method holds the mutex of the object while it works on the cached state; `withLock` marks where it is
taken and given back.
-/

namespace Datasystem.SlotClient

open SlotIndexCodec Act SlotWriter SlotOp

/-- What does not change during the life of a slot object, and the recovery of an interrupted
transfer, which belongs to another component. -/
structure SlotConfig where
  slotPath : Bytes
  maxDataFileBytes : Nat
  syncIntervalMs : Nat
  syncBatchBytes : Nat
  recoverTransfer : SlotManifestData → SlotAct Slot SlotManifestData

namespace SlotWriter

def modify (f : SlotWriter → SlotWriter) : SlotAct Slot Unit :=
  modifyState fun slot => { slot with writer := f slot.writer }

def close : SlotAct Slot Unit := modify fun _ => {}

def initIndex (path index : Bytes) : SlotAct Slot Unit :=
  if index.isEmpty then return ()
  else do
    ensureIndexFile path index
    let fd ← openFile path (.index index) false
    modify fun w => { w with activeIndexFd := some fd }
    let size ← fdFileSize fd
    modify fun w => { w with activeIndexSize := size }

def initData (path : Bytes) (activeData : List UInt32) : SlotAct Slot Unit :=
  match activeData.getLast? with
  | none => return ()
  | some fileId => do
    modify fun w => { w with activeDataFileId := fileId }
    ensureFile path (.data fileId)
    let fd ← openFile path (.data fileId) false
    modify fun w => { w with activeDataFd := some fd }
    let size ← fdFileSize fd
    modify fun w => { w with activeDataSize := size }

def init (path : Bytes) (m : SlotManifestData) : SlotAct Slot Unit := do
  close
  let now ← (ask nowMs : SlotAct Slot Nat)
  modify fun w => { w with lastFlushMs := now }
  initIndex path m.activeIndex
  initData path m.activeData

def appendData (b : Bytes) : SlotAct Slot Nat := do
  let slot ← getState
  match slot.writer.activeDataFd with
  | none => fail ⟨.runtimeError,"Active data fd is not initialized"⟩
  | some fd => do
    let offset := slot.writer.activeDataSize
    writeFile fd b offset
    modify fun w => { w with activeDataSize := w.activeDataSize + b.length }
    return offset

def appendIndexPayload (payload : Bytes) : SlotAct Slot Unit := do
  let slot ← getState
  match slot.writer.activeIndexFd with
  | none => fail ⟨.runtimeError,"Active index fd is not initialized"⟩
  | some fd => do
    let size ← appendEncodedRecordsAt fd slot.writer.activeIndexSize payload
    modify fun w => { w with activeIndexSize := size }

def recordOperation (bufferedBytes : Nat) : SlotAct Slot Unit :=
  modify fun w =>
    { w with bufferedBytes := w.bufferedBytes + bufferedBytes, pendingOps := w.pendingOps + 1 }

def hasPendingWrites (w : SlotWriter) : Bool := 0 < w.pendingOps

def isInitialized (w : SlotWriter) : Bool := w.activeIndexFd.isSome || w.activeDataFd.isSome

def shouldFlush (w : SlotWriter) (now syncIntervalMs batchBytes : Nat) : Bool :=
  if !hasPendingWrites w then false
  else if batchBytes = 0 ∨ batchBytes ≤ w.bufferedBytes then true
  else if syncIntervalMs = 0 then true
  else syncIntervalMs ≤ now - w.lastFlushMs

def syncFd : Option Fd → SlotAct Slot Unit
  | none => return ()
  | some fd => fsyncFd fd

def flush : SlotAct Slot Unit := do
  let slot ← getState
  if !hasPendingWrites slot.writer then return ()
  else do
    syncFd slot.writer.activeDataFd
    syncFd slot.writer.activeIndexFd
    let now ← (ask nowMs : SlotAct Slot Nat)
    modify fun w => { w with bufferedBytes := 0, pendingOps := 0, lastFlushMs := now }

end SlotWriter

namespace Slot

variable (cfg : SlotConfig)

def ensureActiveIndex (index : Bytes) : SlotAct Slot Unit :=
  if index.isEmpty then return () else ensureIndexFile cfg.slotPath index

variable (m : SlotManifestData)

def ensureActiveFiles : SlotAct Slot Unit := do
  ensureActiveIndex cfg m.activeIndex
  forEach (fun fileId => ensureFile cfg.slotPath (.data fileId)) m.activeData

def withHome : SlotManifestData :=
  if m.homeSlotPath.isEmpty then { m with homeSlotPath := cfg.slotPath } else m

def storeManifest (m : SlotManifestData) : SlotAct Slot Unit := do
  let r ← ask (SlotOp.storeManifest cfg.slotPath m)
  ofExcept r

def loadManifest : SlotAct Slot SlotManifestData := do
  let r ← ask (SlotOp.loadManifest cfg.slotPath)
  ofExcept r

def cacheManifest : SlotAct Slot Unit := do
  modifyState fun slot => { slot with runtime := { slot.runtime with manifest := m } }
  let identity ← getFileIdentity cfg.slotPath
  modifyState fun slot =>
    { slot with runtime := { slot.runtime with manifestIdentity := identity } }

def persistManifest : SlotAct Slot Unit := do
  let persisted := withHome cfg m
  storeManifest cfg persisted
  ensureActiveFiles cfg persisted
  let slot ← getState
  if slot.runtime.initialized then cacheManifest cfg persisted else return ()

def isCompactIndexFile (filename : Bytes) : Bool :=
  (Bytes.ascii "index_compact_").isPrefixOf filename && 18 < filename.length &&
    (Bytes.ascii ".log").isSuffixOf filename

def isImportIndexFile (filename : Bytes) : Bool :=
  (Bytes.ascii "index_import_").isPrefixOf filename && 17 < filename.length &&
    (Bytes.ascii ".log").isSuffixOf filename

def shouldUseAsBootstrapIndex (candidateName : Bytes) (candidateValidBytes : Nat)
    (bestName : Bytes) (bestValidBytes : Nat) : Bool :=
  if bestName.isEmpty then true
  else if candidateValidBytes ≠ bestValidBytes then bestValidBytes < candidateValidBytes
  else if isCompactIndexFile candidateName ≠ isCompactIndexFile bestName then
    isCompactIndexFile candidateName
  else bestName < candidateName

def bestBootstrapIndex : List Bytes → Bytes × Nat → SlotAct Slot (Bytes × Nat)
  | [], best => return best
  | filename :: rest, best =>
    if filename.isEmpty || isImportIndexFile filename then bestBootstrapIndex rest best
    else do
      let r ← attempt (readAllRecords cfg.slotPath filename)
      match r with
      | .error _ => bestBootstrapIndex rest best
      | .ok found =>
        if shouldUseAsBootstrapIndex filename found.2 best.1 best.2 then
          bestBootstrapIndex rest (filename, found.2)
        else bestBootstrapIndex rest best

def globIndex : SlotAct Slot (List Bytes) := do
  let r ← ask (SlotOp.globIndex cfg.slotPath)
  ofExcept r

def buildBootstrapManifestFromDisk : SlotAct Slot SlotManifestData := do
  let indexPaths ← globIndex cfg
  let best ← bestBootstrapIndex cfg indexPaths ([], 0)
  let r ← ask (globData cfg.slotPath)
  let dataFiles ← ofExcept r
  let m := SlotManifest.bootstrap
  let m := if best.1.isEmpty then m else { m with activeIndex := best.1 }
  return if dataFiles.isEmpty then m
    else { m with activeData := dataFiles.mergeSort fun a b => decide (a ≤ b) }

def bootstrapManifestIfNeed : SlotAct Slot Unit := do
  createDir cfg.slotPath
  let r ← attempt (loadManifest cfg)
  match r with
  | .ok m => ensureActiveFiles cfg m
  | .error e =>
    if e.code = .notFound then do
      let m ← buildBootstrapManifestFromDisk cfg
      persistManifest cfg m
      ensureActiveFiles cfg m
    else fail e

def deleteFileIfExists (name : FileName) : SlotAct Slot Bool := do
  let r ← ask (unlink cfg.slotPath name)
  ofExcept r

def deleteIndexIfExists (index : Bytes) : SlotAct Slot Bool :=
  if index.isEmpty then return false else deleteFileIfExists cfg (.index index)

/-- Remove data files; whether there were any. -/
def deleteDataFiles : List UInt32 → Bool → SlotAct Slot Bool
  | [], deletedAnything => return deletedAnything
  | fileId :: rest, deletedAnything => do
    let deleted ← deleteFileIfExists cfg (.data fileId)
    deleteDataFiles rest (deletedAnything || deleted)

def continueGc : SlotAct Slot SlotManifestData := do
  let deletedData ← deleteDataFiles cfg m.obsoleteData false
  let deletedIndex ← deleteIndexIfExists cfg m.obsoleteIndex
  if deletedData || deletedIndex || m.gcPending then do
    let cleared := { m with gcPending := false, obsoleteIndex := [], obsoleteData := [] }
    persistManifest cfg cleared
    return cleared
  else return m

def dataFilesExist : List UInt32 → SlotAct Slot Bool
  | [] => return true
  | fileId :: rest => do
    let exist ← fileExist cfg.slotPath (.data fileId)
    if exist then dataFilesExist rest else return false

def pendingArtifactsReady : SlotAct Slot Bool :=
  if m.pendingIndex.isEmpty || m.pendingData.isEmpty then return false
  else do
    let exist ← fileExist cfg.slotPath (.index m.pendingIndex)
    if !exist then return false
    else do
      let size ← fileSize cfg.slotPath (.index m.pendingIndex)
      if size.elim true fun n => decide (n < headerSize) then return false
      else dataFilesExist cfg m.pendingData

def toNormal : SlotManifestData :=
  { m with
    state := .normal, opType := .none, opPhase := .none, role := .none, txnId := []
    pendingIndex := [], pendingData := [] }

def recoverCompactCommitting : SlotAct Slot SlotManifestData := do
  let ready ← pendingArtifactsReady cfg m
  if ready then do
    let next := toNormal { m with
      obsoleteIndex := m.activeIndex, obsoleteData := m.activeData
      activeIndex := m.pendingIndex, activeData := m.pendingData, gcPending := true }
    persistManifest cfg next
    return next
  else do
    let _ ← deleteDataFiles cfg m.pendingData false
    let _ ← deleteIndexIfExists cfg m.pendingIndex
    let next := toNormal m
    persistManifest cfg next
    return next

def recoverOperation : SlotAct Slot SlotManifestData :=
  if m.state = .inOperation ∧ m.opType = .compact ∧ m.opPhase = .compactCommitting then
    recoverCompactCommitting cfg m
  else if SlotManifest.isTransferManifest m then cfg.recoverTransfer m
  else return m

def recoverManifestIfNeeded : SlotAct Slot SlotManifestData := do
  let recovered ← recoverOperation cfg m
  if recovered.gcPending then continueGc cfg recovered else return recovered

def resetRuntimeLocked : SlotAct Slot Unit := modifyState fun slot => { slot with runtime := {}, writer := {} }

/-- Take over a manifest and a snapshot and open the writer. -/
def installRuntime (snapshot : SlotSnapshot) : SlotAct Slot Unit := do
  modifyState fun slot =>
    { slot with runtime := { slot.runtime with manifest := m, snapshot := snapshot } }
  let identity ← getFileIdentity cfg.slotPath
  modifyState fun slot =>
    { slot with
      runtime := { slot.runtime with manifestIdentity := identity, initialized := true } }
  init cfg.slotPath m

def buildRuntimeStateLocked : SlotAct Slot Unit := do
  bootstrapManifestIfNeed cfg
  let loaded ← loadManifest cfg
  let m ← recoverManifestIfNeeded cfg loaded
  let snapshot ← SlotSnapshot.replay cfg.slotPath m
  installRuntime cfg m snapshot

def isRuntimeStaleLocked : SlotAct Slot Bool := do
  let slot ← getState
  if !slot.runtime.initialized then return true
  else do
    let r ← attempt (getFileIdentity cfg.slotPath)
    match r with
    | .error _ => return true
    | .ok identity => return decide (identity ≠ slot.runtime.manifestIdentity)

def ensureRuntimeReadyLocked : SlotAct Slot Unit := do
  let stale ← isRuntimeStaleLocked cfg
  if !stale then return ()
  else do
    resetRuntimeLocked
    buildRuntimeStateLocked cfg

def flushRuntimeLocked (force : Bool) : SlotAct Slot Unit := do
  let slot ← getState
  if !slot.writer.isInitialized then return ()
  else if force then flush
  else do
    let now ← (ask nowMs : SlotAct Slot Nat)
    if slot.writer.shouldFlush now cfg.syncIntervalMs cfg.syncBatchBytes then flush
    else return ()

def ensureWritable : Except Status Unit :=
  checkFailReturnStatus (SlotManifest.isNormalManifest m) .tryAgain
    "Slot is not writable in current state"

/-- The number behind the largest one in use by the writer. -/
def nextActiveFileId (activeData : List UInt32) : UInt32 := activeData.foldl max 0 + 1

def allocateNextDataFileIdLocked : SlotAct Slot UInt32 := do
  let slot ← getState
  ofExcept (checkFailReturnStatus slot.runtime.initialized .runtimeError
    "Slot runtime is not initialized")
  return nextActiveFileId slot.runtime.manifest.activeData

def persistActiveData (activeData : List UInt32) : SlotAct Slot Unit := do
  modifyState fun slot =>
    { slot with
      runtime := { slot.runtime with
        manifest := { slot.runtime.manifest with activeData := activeData } } }
  let slot ← getState
  persistManifest cfg slot.runtime.manifest

def bootstrapActiveData : SlotAct Slot Unit := do
  let slot ← getState
  if slot.runtime.manifest.activeData.isEmpty then do
    persistActiveData cfg [1]
    let slot ← getState
    init cfg.slotPath slot.runtime.manifest
  else return ()

def rotateWritableDataFileLocked (payloadSize : Nat) : SlotAct Slot UInt32 := do
  let slot ← getState
  ofExcept (checkFailReturnStatus slot.runtime.initialized .runtimeError
    "Slot runtime is not initialized")
  bootstrapActiveData cfg
  let slot ← getState
  if slot.writer.activeDataSize + payloadSize ≤ cfg.maxDataFileBytes then
    return slot.writer.activeDataFileId
  else do
    flushRuntimeLocked cfg true
    let fileId ← allocateNextDataFileIdLocked
    persistActiveData cfg (slot.runtime.manifest.activeData ++ [fileId])
    let slot ← getState
    init cfg.slotPath slot.runtime.manifest
    return fileId

def allocateExclusiveDataFileLocked : SlotAct Slot UInt32 := do
  let slot ← getState
  ofExcept (checkFailReturnStatus slot.runtime.initialized .runtimeError
    "Slot runtime is not initialized")
  ofExcept (checkFailReturnStatus (!slot.runtime.manifest.activeData.isEmpty) .runtimeError
    "Slot active data file list is empty")
  let fileId ← allocateNextDataFileIdLocked
  let activeData := slot.runtime.manifest.activeData
  persistActiveData cfg (activeData.dropLast ++ fileId :: activeData.getLast?.toList)
  return fileId

variable (payload : Bytes)

/-- Append the payload to the active data file; nothing is written for an empty payload. -/
def appendPayloadToActiveFileLocked : SlotAct Slot Nat :=
  if payload.isEmpty then return 0 else appendData payload

def writeStreamToFd (fd : Fd) : SlotAct Slot Unit :=
  if payload.isEmpty then return () else writeFile fd payload 0

def writeExclusivePayloadLocked (fileId : UInt32) : SlotAct Slot Unit := do
  ensureFile cfg.slotPath (.data fileId)
  let fd ← openFile cfg.slotPath (.data fileId) false
  writeStreamToFd payload fd
  fsyncFd fd

def placePayload : SlotAct Slot (UInt32 × Nat) :=
  if cfg.maxDataFileBytes ≤ payload.length then do
    let fileId ← allocateExclusiveDataFileLocked cfg
    writeExclusivePayloadLocked cfg payload fileId
    return (fileId, 0)
  else do
    let fileId ← rotateWritableDataFileLocked cfg payload.length
    let offset ← appendPayloadToActiveFileLocked payload
    return (fileId, offset)

def appendRecord (encoded : Bytes) (buffered : Nat) (apply : SlotSnapshot → SlotSnapshot) : SlotAct Slot Unit := do
  appendIndexPayload encoded
  recordOperation buffered
  modifyState fun slot =>
    { slot with runtime := { slot.runtime with snapshot := apply slot.runtime.snapshot } }
  flushRuntimeLocked cfg false

variable (key : Bytes)

def saveLocked (version : UInt64) (payload : Bytes) (writeMode : UInt8) (ttlSecond : UInt32) : SlotAct Slot Unit := do
  ensureRuntimeReadyLocked cfg
  let slot ← getState
  ofExcept (ensureWritable slot.runtime.manifest)
  let place ← placePayload cfg payload
  let record : SlotPutRecord :=
    { key := key, fileId := place.1, offset := place.2, size := payload.length, version := version,
      writeMode := writeMode, ttlSecond := ttlSecond }
  let encoded ← ofExcept (encodePut record)
  appendRecord cfg encoded (payload.length + encoded.length) fun s => s.applyPut record

def deleteLocked (maxVerToDelete : UInt64) (deleteAllVersion : Bool) : SlotAct Slot Unit := do
  ensureRuntimeReadyLocked cfg
  let slot ← getState
  ofExcept (ensureWritable slot.runtime.manifest)
  let record : SlotDeleteRecord :=
    ⟨key,if deleteAllVersion then UInt64.ofNat (2 ^ 64 - 1) else maxVerToDelete⟩
  let encoded ← ofExcept (encodeDelete record)
  appendRecord cfg encoded encoded.length fun s => s.applyDelete record

def findLocked (find : SlotSnapshot → Except Status SlotSnapshotValue) : SlotAct Slot SlotSnapshotValue := do
  ensureRuntimeReadyLocked cfg
  let slot ← getState
  ofExcept (find slot.runtime.snapshot)

def readRecordData (value : SlotSnapshotValue) : SlotAct Unit Bytes := do
  let fd ← openFile cfg.slotPath (.data value.fileId) false
  if value.size = 0 then return [] else readFile fd value.offset value.size

def repairLocked : SlotAct Slot Unit := do
  flushRuntimeLocked cfg true
  resetRuntimeLocked
  bootstrapManifestIfNeed cfg
  let loaded ← loadManifest cfg
  let m ← recoverManifestIfNeeded cfg loaded
  let _ ← readAllRecords cfg.slotPath m.activeIndex
  let snapshot ← SlotSnapshot.replay cfg.slotPath m
  installRuntime cfg m snapshot

/-- `std::lock_guard` around a section of a method. -/
def withLock {α : Type} (m : SlotAct Slot α) : Prog SlotOp SlotRes (Except Status α) :=
  .op lock fun slot => (m slot).bind fun (r, slot') =>
    .op (unlock slot') fun _ => .pure r

def save (version : UInt64) (payload : Bytes) (writeMode : UInt8) (ttlSecond : UInt32) : Prog SlotOp SlotRes (Except Status Unit) :=
  withLock (saveLocked cfg key version payload writeMode ttlSecond)

def delete (maxVerToDelete : UInt64) (deleteAllVersion : Bool) : Prog SlotOp SlotRes (Except Status Unit) :=
  withLock (deleteLocked cfg key maxVerToDelete deleteAllVersion)

def readValue (find : SlotSnapshot → Except Status SlotSnapshotValue) : Prog SlotOp SlotRes (Except Status Bytes) :=
  (withLock (findLocked cfg find)).bind fun
    | .error e => .pure (.error e)
    | .ok value => (readRecordData cfg value ()).bind fun r => .pure r.1

def get (version : UInt64) : Prog SlotOp SlotRes (Except Status Bytes) :=
  readValue cfg fun s => s.findExact key version

def getWithoutVersion (minVersion : UInt64) : Prog SlotOp SlotRes (Except Status Bytes) :=
  readValue cfg fun s => s.findLatest key minVersion

def repair : Prog SlotOp SlotRes (Except Status Unit) := withLock (repairLocked cfg)

end Slot

end Datasystem.SlotClient
