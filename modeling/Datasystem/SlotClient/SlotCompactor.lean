import Datasystem.SlotClient.Slot

/-!
# Compaction of a slot

It takes the mutex for short sections only; everything else runs beside saves and deletes.
-/

namespace Datasystem.SlotClient

open RecordLog SlotIndexCodec Act

structure SlotCompactBuildResult where
  indexFile : Bytes := []
  dataFiles : List UInt32 := []
deriving DecidableEq, Repr

structure CopyState where
  result : SlotCompactBuildResult := {}
  indexOffset : Nat := 0
  nextFileId : UInt32 := 0
  currentTargetDataFd : Option Fd := none
  currentTargetFileSize : Nat := 0
  sourceDataFds : List (UInt32 × Fd) := []
  indexBuffer : Bytes := []

namespace SlotCompactor

variable (cfg : SlotConfig)

def closeTarget : SlotAct CopyState Unit := do
  let st ← getState
  match st.currentTargetDataFd with
  | none => return ()
  | some fd => do
    fsyncFd fd
    modifyState fun st => { st with currentTargetDataFd := none }

variable (listAlways : Bool)

/-- Go on with a data file. The delta copy does not list a file twice in a row. -/
def openTargetDataFile (fileId : UInt32) : SlotAct CopyState Unit := do
  closeTarget
  modifyState fun st =>
    if listAlways || st.result.dataFiles.getLast? ≠ some fileId then
      { st with result.dataFiles := st.result.dataFiles ++ [fileId] }
    else st
  ensureFile cfg.slotPath (.data fileId)
  let fd ← openFile cfg.slotPath (.data fileId) false
  modifyState fun st => { st with currentTargetDataFd := some fd }
  let size ← fdFileSize fd
  modifyState fun st => { st with currentTargetFileSize := size }

def openNextTargetDataFile : SlotAct CopyState Unit := do
  modifyState fun st => { st with nextFileId := st.nextFileId + 1 }
  let st ← getState
  openTargetDataFile cfg listAlways st.nextFileId

def sourceFd (fileId : UInt32) : SlotAct CopyState Fd := do
  let st ← getState
  match st.sourceDataFds.lookup fileId with
  | some fd => return fd
  | none => do
    let fd ← openFile cfg.slotPath (.data fileId) false
    modifyState fun st => { st with sourceDataFds := (fileId, fd) :: st.sourceDataFds }
    return fd

def copyRecordToTargetFile (source : Fd) (readOffset size : Nat) (target : Option Fd)
    (writeOffset : Nat) : SlotAct CopyState Unit :=
  if size = 0 then return ()
  else do
    let b ← readFile source readOffset size
    match target with
    | none => fail ⟨.ioError,"pwrite failed"⟩
    | some fd => writeFile fd b writeOffset

/-- Make room for a record: a record of its own file takes an empty one, any other record moves on
when the current file is full. The offset for the record. -/
def placeRecord (size : Nat) : SlotAct CopyState Nat := do
  let st ← getState
  if cfg.maxDataFileBytes ≤ size then
    if 0 < st.currentTargetFileSize then do
      openNextTargetDataFile cfg listAlways
      return 0
    else return st.currentTargetFileSize
  else if cfg.maxDataFileBytes < st.currentTargetFileSize + size ∧ 0 < st.currentTargetFileSize then do
    openNextTargetDataFile cfg listAlways
    let st ← getState
    return st.currentTargetFileSize
  else return st.currentTargetFileSize

def copyPut (record : SlotPutRecord) : SlotAct CopyState Nat := do
  let source ← sourceFd cfg record.fileId
  let offset ← placeRecord cfg listAlways record.size
  let st ← getState
  copyRecordToTargetFile source record.offset record.size st.currentTargetDataFd offset
  let encoded ← ofExcept (encodePut { record with fileId := st.nextFileId, offset := offset })
  modifyState fun st => { st with indexBuffer := st.indexBuffer ++ encoded }
  return offset

/-- A record of its own file is followed by a new file. -/
def finishPut (size offset : Nat) : SlotAct CopyState Unit := do
  modifyState fun st => { st with currentTargetFileSize := offset + size }
  if cfg.maxDataFileBytes ≤ size then openNextTargetDataFile cfg listAlways else return ()

def writeIndexBuffer (indexFd : Fd) : SlotAct CopyState Unit := do
  let st ← getState
  let offset ← appendEncodedRecordsAt indexFd st.indexOffset st.indexBuffer
  modifyState fun st => { st with indexOffset := offset, indexBuffer := [] }

def indexBufferBytes : Nat := 1024 * 1024

def writeIndexBufferIfFull (indexFd : Fd) : SlotAct CopyState Unit := do
  let st ← getState
  if indexBufferBytes ≤ st.indexBuffer.length then writeIndexBuffer indexFd else return ()

def copyVisiblePut (indexFd : Fd) (record : SlotPutRecord) : SlotAct CopyState Unit := do
  let offset ← copyPut cfg true record
  writeIndexBufferIfFull indexFd
  finishPut cfg true record.size offset

def finishCopy (indexFd : Fd) : SlotAct CopyState Unit := do
  writeIndexBuffer indexFd
  fsyncFd indexFd
  let st ← getState
  match st.currentTargetDataFd with
  | none => fsyncDir cfg.slotPath
  | some fd => do
    fsyncFd fd
    fsyncDir cfg.slotPath

def formatCompactIndexFileName (compactEpochMs : Nat) : Bytes :=
  Bytes.ascii "index_compact_" ++ Bytes.decimal compactEpochMs ++ Bytes.ascii ".log"

def allocateCompactIndexFile (m : SlotManifestData) : Nat → Nat → SlotAct CopyState Bytes
  | 0, _ => fail ⟨.runtimeError,"No available compact index file for build"⟩
  | attempts + 1, candidateEpochMs => do
    let candidate := formatCompactIndexFileName candidateEpochMs
    if candidate = m.activeIndex ∨ candidate = m.pendingIndex ∨ candidate = m.obsoleteIndex then
      allocateCompactIndexFile m attempts (candidateEpochMs + 1)
    else do
      let exist ← fileExist cfg.slotPath (.index candidate)
      if exist then allocateCompactIndexFile m attempts (candidateEpochMs + 1)
      else return candidate

/-- The number behind the largest one in the directory and in the manifest. -/
def getNextDataFileId (m : SlotManifestData) : SlotAct CopyState UInt32 := do
  let r ← ask (SlotOp.globData cfg.slotPath)
  let dataFiles ← ofExcept r
  let maxFileId := (dataFiles ++ m.activeData ++ m.pendingData ++ m.obsoleteData).foldl max 0
  return if maxFileId = 0 then 1 else maxFileId + 1

/-- The order in which puts are copied. -/
def copiedBefore (a b : SlotPutRecord) : Bool :=
  if a.fileId ≠ b.fileId then a.fileId < b.fileId
  else if a.offset ≠ b.offset then a.offset < b.offset
  else if a.key ≠ b.key then a.key < b.key
  else a.version ≤ b.version

def removeIfExists (name : FileName) : SlotAct CopyState Unit := do
  let exist ← fileExist cfg.slotPath name
  if exist then do
    let _ ← (ask (SlotOp.unlink cfg.slotPath name) : SlotAct CopyState (Except Status Bool))
    return ()
  else return ()

def removeIndexIfExists (index : Bytes) : SlotAct CopyState Unit :=
  if index.isEmpty then return () else removeIfExists cfg (.index index)

def cleanupArtifacts : SlotAct CopyState Unit := do
  let st ← getState
  removeIndexIfExists cfg st.result.indexFile
  forEach (fun fileId => removeIfExists cfg (.data fileId)) st.result.dataFiles

/-- Build the new index and the new data files; an empty snapshot yields an empty file of each. -/
def buildArtifactsBody (m : SlotManifestData) (snapshot : SlotSnapshot) (compactEpochMs : Nat) :
    SlotAct CopyState Unit := do
  let indexFile ← allocateCompactIndexFile cfg m 1024 compactEpochMs
  modifyState fun st => { st with result.indexFile := indexFile }
  ensureIndexFile cfg.slotPath indexFile
  let indexFd ← openFile cfg.slotPath (.index indexFile) false
  let indexSize ← fdFileSize indexFd
  modifyState fun st => { st with indexOffset := indexSize }
  let fileId ← getNextDataFileId cfg m
  modifyState fun st => { st with nextFileId := fileId }
  openTargetDataFile cfg true fileId
  forEach (copyVisiblePut cfg indexFd) (snapshot.collectVisiblePuts.mergeSort copiedBefore)
  finishCopy cfg indexFd

def buildArtifacts (m : SlotManifestData) (snapshot : SlotSnapshot) (compactEpochMs : Nat) : SlotAct CopyState Unit :=
  onError (buildArtifactsBody cfg m snapshot compactEpochMs) (cleanupArtifacts cfg)

def ensureTarget : SlotAct CopyState Unit := do
  let st ← getState
  match st.currentTargetDataFd with
  | some _ => return ()
  | none => do
    modifyState fun st => { st with nextFileId := if st.nextFileId = 0 then 1 else st.nextFileId }
    let st ← getState
    openTargetDataFile cfg false st.nextFileId

def applyDeltaPut (record : SlotPutRecord) : SlotAct CopyState Unit := do
  let _ ← sourceFd cfg record.fileId
  ensureTarget cfg
  let offset ← copyPut cfg false record
  finishPut cfg false record.size offset

def applyDeltaRecord (indexFd : Fd) : SlotRecord → SlotAct CopyState Unit
  | .put r => do
    applyDeltaPut cfg r
    writeIndexBufferIfFull indexFd
  | .delete r => do
    let encoded ← ofExcept (encodeDelete r)
    modifyState fun st => { st with indexBuffer := st.indexBuffer ++ encoded }
    writeIndexBufferIfFull indexFd
  | .importBegin _ => fail ⟨.tryAgain,"Compact delta stream hit concurrent import records"⟩
  | .importEnd _ => fail ⟨.tryAgain,"Compact delta stream hit concurrent import records"⟩

def reopenTarget : SlotAct CopyState Unit := do
  let st ← getState
  match st.result.dataFiles.getLast? with
  | none => return ()
  | some fileId => do
    modifyState fun st => { st with nextFileId := fileId }
    openTargetDataFile cfg false fileId

def applyDeltaRecordsBody (records : List SlotRecord) : SlotAct CopyState Unit := do
  let st ← getState
  ensureIndexFile cfg.slotPath st.result.indexFile
  let indexFd ← openFile cfg.slotPath (.index st.result.indexFile) false
  let indexSize ← fdFileSize indexFd
  modifyState fun st => { st with indexOffset := indexSize }
  reopenTarget cfg
  forEach (applyDeltaRecord cfg indexFd) records
  finishCopy cfg indexFd

/-- Append what records amount to; the list of data files grows even when it fails. -/
def applyDeltaRecords (records : List SlotRecord) : SlotAct SlotCompactBuildResult Unit := do
  let result ← getState
  ofExcept (checkFailReturnStatus (!result.indexFile.isEmpty) .invalid
    "Compact build result missing pending index file")
  if records.isEmpty then return ()
  else
    zoom (fun result => { result := result }) (fun _ st => st.result)
      (applyDeltaRecordsBody cfg records)

end SlotCompactor

def selectDelta (startOffset endOffset : Nat) : List (Frame SlotRecord) → Except Status (List SlotRecord)
  | [] => .ok []
  | frame :: rest =>
    if frame.endOffset ≤ startOffset then selectDelta startOffset endOffset rest
    else if endOffset ≤ frame.startOffset then .ok []
    else do
      checkFailReturnStatus (startOffset ≤ frame.startOffset ∧ frame.endOffset ≤ endOffset)
        .runtimeError "Compact delta frontier split one index record"
      let records ← selectDelta startOffset endOffset rest
      return frame.record :: records

namespace Slot

variable (cfg : SlotConfig)

structure CompactContext where
  baseManifest : SlotManifestData
  compactEpochMs : Nat
  appliedFrontier : Nat
  buildResult : SlotCompactBuildResult
  keepCompactArtifacts : Bool := false

def cutoverBytes : Nat := 1024 * 1024

def cutoverRecords : Nat := 1024

def readIndexDeltaRecords {τ : Type} (index : Bytes) (startOffset endOffset : Nat) :
    SlotAct τ (List SlotRecord × Nat) := do
  ofExcept (checkFailReturnStatus (startOffset ≤ endOffset) .invalid
    "Invalid compact delta frontier range")
  if endOffset = startOffset then return ([], 0)
  else do
    let found ← readAllRecordFrames cfg.slotPath index
    ofExcept (checkFailReturnStatus (endOffset ≤ found.2) .runtimeError
      "Compact frontier exceeds validated active index bytes")
    let records ← ofExcept (selectDelta startOffset endOffset found.1)
    return (records, endOffset - startOffset)

def checkCompactTransferPreemptionLocked : SlotAct Slot Unit := do
  let slot ← getState
  ofExcept (checkFailReturnStatus (!slot.transferIntentActive) .tryAgain
    "Compact preempted by transfer intent")

def compactBaseLocked : SlotAct Slot (SlotManifestData × SlotSnapshot × Nat) := do
  ensureRuntimeReadyLocked cfg
  flushRuntimeLocked cfg true
  checkCompactTransferPreemptionLocked
  let slot ← getState
  ofExcept (ensureWritable slot.runtime.manifest)
  return (slot.runtime.manifest, slot.runtime.snapshot, slot.writer.activeIndexSize)

/-- Check that the slot still writes to the index the compaction started from; where it ends. -/
def compactFrontierLocked (baseIndex : Bytes) (changed : String) : SlotAct Slot (SlotManifestData × Nat) := do
  ensureRuntimeReadyLocked cfg
  checkCompactTransferPreemptionLocked
  let slot ← getState
  ofExcept (ensureWritable slot.runtime.manifest)
  ofExcept (checkFailReturnStatus (slot.runtime.manifest.activeIndex = baseIndex) .tryAgain
    changed)
  flushRuntimeLocked cfg true
  let slot ← getState
  return (slot.runtime.manifest, slot.writer.activeIndexSize)

/-- A section under the mutex inside a longer action. -/
def lockedSection {τ α : Type} (m : SlotAct Slot α) : SlotAct τ α := fun t =>
  (withLock m).bind fun r => .pure (r, t)

/-- A section under the mutex that also changes the state of the action. -/
def lockedWith {τ α : Type} (m : SlotAct (Slot × τ) α) : SlotAct τ α := fun t =>
  .op SlotOp.lock fun slot => (m (slot, t)).bind fun (r, slot', t') =>
    .op (SlotOp.unlock slot') fun _ => .pure (r, t')

def onSlot {τ α : Type} (m : SlotAct Slot α) : SlotAct (Slot × τ) α := zoom Prod.fst (fun t slot => (slot, t.2)) m

def applyDelta (records : List SlotRecord) : SlotAct CompactContext Unit :=
  if records.isEmpty then return ()
  else
    zoom CompactContext.buildResult (fun ctx result => { ctx with buildResult := result })
      (SlotCompactor.applyDeltaRecords cfg records)

def switchingManifest (m : SlotManifestData) (ctx : CompactContext) : SlotManifestData :=
  { m with
    state := .inOperation, opType := .compact, opPhase := .compactCommitting, role := .localRole
    txnId := Bytes.decimal ctx.compactEpochMs
    pendingIndex := ctx.buildResult.indexFile, pendingData := ctx.buildResult.dataFiles
    lastCompactEpochMs := ctx.compactEpochMs }

def compactedManifest (m : SlotManifestData) (ctx : CompactContext) : SlotManifestData :=
  toNormal { switchingManifest m ctx with
    obsoleteIndex := m.activeIndex, obsoleteData := m.activeData
    activeIndex := ctx.buildResult.indexFile, activeData := ctx.buildResult.dataFiles
    gcPending := true }

/-- Persist the switch, remove the old files and rebuild the cached state. -/
def switchManifest (m : SlotManifestData) (ctx : CompactContext) : SlotAct Slot Unit := do
  persistManifest cfg (switchingManifest m ctx)
  persistManifest cfg (compactedManifest m ctx)
  let _ ← continueGc cfg (compactedManifest m ctx)
  resetRuntimeLocked
  buildRuntimeStateLocked cfg

/-- The last section: copy the final delta under the mutex and switch. -/
def cutoverLocked : SlotAct (Slot × CompactContext) Unit := do
  let t ← getState
  let frontier ← onSlot (compactFrontierLocked cfg t.2.baseManifest.activeIndex
    "Slot active index changed before compact cutover")
  let delta ← readIndexDeltaRecords cfg t.2.baseManifest.activeIndex t.2.appliedFrontier frontier.2
  zoom Prod.snd (fun t ctx => (t.1, ctx)) (applyDelta cfg delta.1)
  modifyState fun t => (t.1, { t.2 with keepCompactArtifacts := true })
  let t ← getState
  onSlot (switchManifest cfg frontier.1 t.2)

/-- One turn of the catch-up loop; whether the rest is short enough to switch. -/
def catchUp : SlotAct CompactContext Bool := do
  let ctx ← getState
  let frontier ← lockedSection (compactFrontierLocked cfg ctx.baseManifest.activeIndex
    "Slot active index changed during compact")
  let delta ← readIndexDeltaRecords cfg ctx.baseManifest.activeIndex ctx.appliedFrontier frontier.2
  applyDelta cfg delta.1
  modifyState fun ctx =>
    if delta.1.isEmpty then ctx else { ctx with appliedFrontier := frontier.2 }
  return decide (delta.2 ≤ cutoverBytes ∧ delta.1.length ≤ cutoverRecords)

def cleanupCompactArtifacts : SlotAct CompactContext Unit := do
  let ctx ← getState
  if ctx.keepCompactArtifacts then return ()
  else
    zoom (fun ctx => { result := ctx.buildResult }) (fun ctx _ => ctx)
      (SlotCompactor.cleanupArtifacts cfg)

/-- Where a compaction stands after a piece of its work. -/
inductive CompactOutcome where
  | finished (r : Except Status Unit)
  | again (ctx : CompactContext)

/-- A turn of the catch-up loop and, if it was the last one, the switch. -/
def compactTurnBody : SlotAct CompactContext Bool := do
  let short ← catchUp cfg
  if short then do
    lockedWith (cutoverLocked cfg)
    return true
  else return false

def compactTurn (ctx : CompactContext) : Prog SlotOp SlotRes CompactOutcome :=
  (onError (compactTurnBody cfg) (cleanupCompactArtifacts cfg) ctx).bind fun
    | (.ok true, _) => .pure (.finished (.ok ()))
    | (.ok false, ctx') => .pure (.again ctx')
    | (.error e, _) => .pure (.finished (.error e))

/-- The work of a compaction up to the catch-up loop. -/
def compactBegin : Prog SlotOp SlotRes CompactOutcome :=
  (repair cfg).bind fun
    | .error e => .pure (.finished (.error e))
    | .ok _ => (withLock (compactBaseLocked cfg)).bind fun
      | .error e => .pure (.finished (.error e))
      | .ok (m, snapshot, frontier) => .op SlotOp.nowMs fun now =>
        (SlotCompactor.buildArtifacts cfg m snapshot now {}).bind fun
          | (.error e, _) => .pure (.finished (.error e))
          | (.ok _, st) => .pure (.again ⟨m,now,frontier,st.result,false⟩)

end Slot

end Datasystem.SlotClient
