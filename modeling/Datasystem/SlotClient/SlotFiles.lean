import Datasystem.Lib.Prog
import Datasystem.SlotClient.SlotSnapshot

/-!
# Files of a slot

Every file and every manifest gets a new number when it is created, which stands for its inode and
modification time. A descriptor remembers the number: once its file is removed, writes through it are seen by
nobody.
The manifest of a slot names the index and the data files that are active, those that a running operation
prepares and those that an earlier operation has left to be removed.
-/

namespace Datasystem.SlotClient

inductive SlotState where
  | normal
  | inOperation
deriving DecidableEq, Repr

inductive SlotOperationType where
  | none
  | compact
  | transfer
deriving DecidableEq, Repr

inductive SlotOperationPhase where
  | none
  | compactCommitting
  | transferFencing
  | transferPrepared
  | transferIndexPublished
  | transferSourceRetired
deriving DecidableEq, Repr

inductive SlotOperationRole where
  | none
  | localRole
  | source
  | target
deriving DecidableEq, Repr

structure SlotManifestData where
  state : SlotState := .normal
  opType : SlotOperationType := .none
  opPhase : SlotOperationPhase := .none
  role : SlotOperationRole := .none
  txnId : Bytes := []
  ownerEpoch : Nat := 0
  homeSlotPath : Bytes := []
  recoverySlotPath : Bytes := []
  peerSlotPath : Bytes := []
  transferPlanPath : Bytes := []
  transferFileMap : List (UInt32 × UInt32) := []
  activeIndex : Bytes := Bytes.ascii "index_active.log"
  activeData : List UInt32 := [1]
  pendingIndex : Bytes := []
  pendingData : List UInt32 := []
  gcPending : Bool := false
  obsoleteIndex : Bytes := []
  obsoleteData : List UInt32 := []
  lastCompactEpochMs : Nat := 0
deriving DecidableEq, Repr

namespace SlotManifest

def bootstrap : SlotManifestData := {}

variable (m : SlotManifestData)

def isNormalManifest : Bool := m.state = .normal ∧ m.opType = .none ∧ m.opPhase = .none ∧ m.role = .none

def isTransferManifest : Bool := m.state = .inOperation ∧ m.opType = .transfer

def validateManifestStateCombination : Except Status Unit :=
  match m.state with
  | .normal => do
    checkFailReturnStatus (isNormalManifest m) .invalid
      "NORMAL manifest must use NONE/NONE/NONE operation tuple"
    checkFailReturnStatus m.txnId.isEmpty .invalid "NORMAL manifest must not carry txn_id"
  | .inOperation =>
    match m.opType with
    | .compact => do
      checkFailReturnStatus (m.opPhase = .compactCommitting) .invalid
        "COMPACT manifest must use COMPACT_COMMITTING phase"
      checkFailReturnStatus (m.role = .localRole) .invalid "COMPACT manifest must use LOCAL role"
      checkFailReturnStatus (!m.txnId.isEmpty) .invalid "COMPACT manifest must carry txn_id"
    | _ => do
      checkFailReturnStatus (m.opType = .transfer) .invalid
        "IN_OPERATION manifest must use COMPACT or TRANSFER op_type"
      checkFailReturnStatus (m.role = .source ∨ m.role = .target) .invalid
        "TRANSFER manifest must use SOURCE or TARGET role"
      checkFailReturnStatus (m.opPhase = .transferFencing ∨ m.opPhase = .transferPrepared ∨
          m.opPhase = .transferIndexPublished ∨ m.opPhase = .transferSourceRetired) .invalid
        "TRANSFER manifest must use a transfer phase"
      checkFailReturnStatus (!m.txnId.isEmpty) .invalid "TRANSFER manifest must carry txn_id"
      checkFailReturnStatus (!m.recoverySlotPath.isEmpty) .invalid
        "TRANSFER manifest must carry recovery_slot_path"
      checkFailReturnStatus (m.role ≠ .target ∨ m.opPhase = .transferFencing ∨
          !m.transferPlanPath.isEmpty) .invalid
        "TRANSFER target manifest must carry transfer_plan_path after fencing"

/-- The checks of `Decode` on a manifest whose lines have been read. -/
def validate : Except Status Unit := do
  validateManifestStateCombination m
  checkFailReturnStatus (!m.activeIndex.isEmpty ∨ m.role = .source) .invalid
    "active_index must not be empty"

end SlotManifest

inductive FileName where
  | data (fileId : UInt32)
  | index (name : Bytes)
deriving DecidableEq, Repr

structure File where
  inode : Nat
  bytes : Bytes
deriving DecidableEq, Repr

structure StoredManifest where
  manifest : SlotManifestData
  identity : Nat
deriving DecidableEq, Repr

structure Dir where
  present : Bool := false
  files : AList (fun _ : FileName => File) := ∅
  stored : Option StoredManifest := none

/-- All directories; one that nobody has created is empty and not present. -/
structure Fs where
  dir : Bytes → Dir := fun _ => {}
  nextInode : Nat := 1

structure Fd where
  path : Bytes
  name : FileName
  inode : Nat
deriving DecidableEq, Repr

/-- Write bytes at an offset; a gap behind the end is filled with zeros. -/
def overwrite (content : Bytes) (offset : Nat) (b : Bytes) : Bytes :=
  content.take offset ++ List.replicate (offset - content.length) 0 ++ b ++
    content.drop (offset + b.length)

namespace Fs

variable (fs : Fs)

def setDir (path : Bytes) (d : Dir) : Fs := { fs with dir := Function.update fs.dir path d }

def file (path : Bytes) (name : FileName) : Option File := (fs.dir path).files.lookup name

def setFile (path : Bytes) (name : FileName) (f : File) : Fs :=
  fs.setDir path { fs.dir path with files := (fs.dir path).files.insert name f }

def removeFile (path : Bytes) (name : FileName) : Fs :=
  fs.setDir path { fs.dir path with files := (fs.dir path).files.erase name }

def createFile (path : Bytes) (name : FileName) : Fs :=
  { fs.setFile path name ⟨fs.nextInode,[]⟩ with nextInode := fs.nextInode + 1 }

def storeManifest (path : Bytes) (m : SlotManifestData) : Fs :=
  { fs.setDir path { fs.dir path with present := true, stored := some ⟨m,fs.nextInode⟩ } with
    nextInode := fs.nextInode + 1 }

def behind (fd : Fd) : Option File := (fs.file fd.path fd.name).filter fun f => f.inode = fd.inode

def write (fd : Fd) (b : Bytes) (offset : Nat) : Fs :=
  match fs.behind fd with
  | some f => fs.setFile fd.path fd.name { f with bytes := overwrite f.bytes offset b }
  | none => fs

section Lemmas

variable (path : Bytes)

theorem dir_setDir (d : Dir) (path' : Bytes) :
    (fs.setDir path d).dir path' = if path' = path then d else fs.dir path' := by
  simp [setDir,Function.update_apply]

theorem setDir_dir : fs.setDir path (fs.dir path) = fs := by
  simp [setDir]

theorem lookup_insert (files : AList fun _ : FileName => File) (name name' : FileName) (f : File) :
    (files.insert name f).lookup name' = if name' = name then some f else files.lookup name' := by
  split_ifs with h
  · rw [h,AList.lookup_insert]
  · rw [AList.lookup_insert_ne h]

theorem lookup_erase (files : AList fun _ : FileName => File) (name name' : FileName) :
    (files.erase name).lookup name' = if name' = name then none else files.lookup name' := by
  split_ifs with h
  · rw [h,AList.lookup_erase]
  · rw [AList.lookup_erase_ne h]

variable (name : FileName)

theorem file_setFile (f : File) (path' : Bytes) (name' : FileName) : (fs.setFile path name f).file path' name' =
      if path' = path ∧ name' = name then some f else fs.file path' name' := by
  simp only [file,setFile,dir_setDir]
  by_cases hp : path' = path
  · subst hp
    simp [lookup_insert]
  · simp [hp]

@[simp] theorem stored_setFile (f : File) (path' : Bytes) :
    ((fs.setFile path name f).dir path').stored = (fs.dir path').stored := by
  simp only [setFile,dir_setDir]
  split_ifs with h <;> simp [h]

@[simp] theorem present_setFile (f : File) (path' : Bytes) :
    ((fs.setFile path name f).dir path').present = (fs.dir path').present := by
  simp only [setFile,dir_setDir]
  split_ifs with h <;> simp [h]

variable (path' : Bytes)

theorem file_removeFile (name' : FileName) : (fs.removeFile path name).file path' name' =
      if path' = path ∧ name' = name then none else fs.file path' name' := by
  simp only [file,removeFile,dir_setDir]
  by_cases hp : path' = path
  · subst hp
    simp [lookup_erase]
  · simp [hp]

@[simp] theorem stored_removeFile : ((fs.removeFile path name).dir path').stored = (fs.dir path').stored := by
  simp only [removeFile,dir_setDir]
  split_ifs with h <;> simp [h]

@[simp] theorem present_removeFile : ((fs.removeFile path name).dir path').present = (fs.dir path').present := by
  simp only [removeFile,dir_setDir]
  split_ifs with h <;> simp [h]

theorem file_createFile (name' : FileName) : (fs.createFile path name).file path' name' =
      if path' = path ∧ name' = name then some ⟨fs.nextInode,[]⟩ else fs.file path' name' :=
  file_setFile fs path name ⟨fs.nextInode,[]⟩ path' name'

@[simp] theorem stored_createFile : ((fs.createFile path name).dir path').stored = (fs.dir path').stored :=
  stored_setFile fs path name ⟨fs.nextInode,[]⟩ path'

@[simp] theorem present_createFile : ((fs.createFile path name).dir path').present = (fs.dir path').present :=
  present_setFile fs path name ⟨fs.nextInode,[]⟩ path'

@[simp] theorem file_storeManifest (m : SlotManifestData) (path' : Bytes) (name : FileName) :
    (fs.storeManifest path m).file path' name = fs.file path' name := by
  simp only [file,storeManifest,dir_setDir]
  split_ifs with h <;> simp [h]

theorem stored_storeManifest (m : SlotManifestData) :
    ((fs.storeManifest path m).dir path).stored = some ⟨m,fs.nextInode⟩ := by
  simp [storeManifest,dir_setDir]

theorem present_storeManifest (m : SlotManifestData) : ((fs.storeManifest path m).dir path).present = true := by
  simp [storeManifest,dir_setDir]

variable {fs path}

theorem behind_eq {name : FileName} {f : File} (h : fs.file path name = some f) :
    fs.behind ⟨path,name,f.inode⟩ = some f := by
  simp [behind,h]

theorem write_eq {name : FileName} {f : File} (h : fs.file path name = some f) (b : Bytes) (offset : Nat) :
    fs.write ⟨path,name,f.inode⟩ b offset = fs.setFile path name ⟨f.inode,overwrite f.bytes offset b⟩ := by
  simp only [write,behind_eq h]

end Lemmas

end Fs

theorem overwrite_end (content b : Bytes) : overwrite content content.length b = content ++ b := by
  simp [overwrite]

structure SlotRuntimeState where
  manifest : SlotManifestData := SlotManifest.bootstrap
  snapshot : SlotSnapshot := {}
  manifestIdentity : Nat := 0
  initialized : Bool := false

structure SlotWriter where
  activeDataFd : Option Fd := none
  activeIndexFd : Option Fd := none
  activeDataFileId : UInt32 := 0
  activeDataSize : Nat := 0
  activeIndexSize : Nat := 0
  bufferedBytes : Nat := 0
  pendingOps : Nat := 0
  lastFlushMs : Nat := 0
deriving DecidableEq, Repr

structure Slot where
  runtime : SlotRuntimeState := {}
  writer : SlotWriter := {}
  transferIntentActive : Bool := false

/-- What threads share: the file system, the slot object behind its mutex, and the clock. -/
structure Shared where
  fs : Fs := {}
  slot : Slot := {}
  locked : Bool := false
  nowMs : Nat := 0

inductive SlotOp where
  | createDir (path : Bytes)
  | loadManifest (path : Bytes)
  | storeManifest (path : Bytes) (m : SlotManifestData)
  | getFileIdentity (path : Bytes)
  | fileExist (path : Bytes) (name : FileName)
  | fileSize (path : Bytes) (name : FileName)
  | openFile (path : Bytes) (name : FileName) (create : Bool)
  | fdFileSize (fd : Fd)
  | readWholeFile (path : Bytes) (name : FileName)
  | readFile (fd : Fd) (offset size : Nat)
  | writeFile (fd : Fd) (b : Bytes) (offset : Nat)
  | truncate (path : Bytes) (name : FileName) (size : Nat)
  | fsyncFd (fd : Fd)
  | fsyncDir (path : Bytes)
  | unlink (path : Bytes) (name : FileName)
  | globData (path : Bytes)
  | globIndex (path : Bytes)
  | nowMs
  | lock
  | unlock (slot : Slot)

/-- The result of an operation. Existence checks and size queries have no way to report a failure;
`unlink` tells whether there was a file. -/
@[reducible] def SlotRes : SlotOp → Type
  | .loadManifest _ => Except Status SlotManifestData
  | .getFileIdentity _ => Except Status Nat
  | .fileExist _ _ => Bool
  | .fileSize _ _ => Option Nat
  | .openFile _ _ _ => Except Status Fd
  | .fdFileSize _ => Nat
  | .readWholeFile _ _ => Except Status Bytes
  | .readFile _ _ _ => Except Status Bytes
  | .unlink _ _ => Except Status Bool
  | .globData _ => Except Status (List UInt32)
  | .globIndex _ => Except Status (List Bytes)
  | .nowMs => Nat
  | .lock => Slot
  | .unlock _ => Unit
  | _ => Except Status Unit

def ssizeMax : Nat := 2 ^ 63 - 1

def dataName : FileName → Option UInt32
  | .data fileId => some fileId
  | .index _ => none

def indexName : FileName → Option Bytes
  | .data _ => none
  | .index name => some name

def writtenData : SlotOp → Option UInt32
  | .writeFile fd _ _ => dataName fd.name
  | _ => none

def exec : (o : SlotOp) → Shared → SlotRes o × Shared
  | .createDir path, s =>
    (.ok (), { s with fs := s.fs.setDir path { s.fs.dir path with present := true } })
  | .loadManifest path, s =>
    match (s.fs.dir path).stored with
    | none => (.error ⟨.notFound,"Manifest not found"⟩, s)
    | some sm => ((SlotManifest.validate sm.manifest).map fun _ => sm.manifest, s)
  | .storeManifest path m, s => (.ok (), { s with fs := s.fs.storeManifest path m })
  | .getFileIdentity path, s =>
    match (s.fs.dir path).stored with
    | none => (.error ⟨.runtimeError,"Get file identity failed"⟩, s)
    | some sm => (.ok sm.identity, s)
  | .fileExist path name, s => ((s.fs.file path name).isSome, s)
  | .fileSize path name, s => ((s.fs.file path name).map fun f => f.bytes.length, s)
  | .openFile path name create, s =>
    match s.fs.file path name with
    | some f => (.ok ⟨path,name,f.inode⟩, s)
    | none =>
      if create && (s.fs.dir path).present then
        (.ok ⟨path,name,s.fs.nextInode⟩, { s with fs := s.fs.createFile path name })
      else (.error ⟨.ioError,"Open file failed"⟩, s)
  | .fdFileSize fd, s => (((s.fs.behind fd).map fun f => f.bytes.length).getD 0, s)
  | .readWholeFile path name, s =>
    match s.fs.file path name with
    | some f => (.ok f.bytes, s)
    | none => (.error ⟨.ioError,"Open file failed"⟩, s)
  | .readFile fd offset size, s =>
    match s.fs.behind fd with
    | some f =>
      if offset + size ≤ f.bytes.length then (.ok ((f.bytes.drop offset).take size), s)
      else (.error ⟨.ioError,"pread failed"⟩, s)
    | none => (.error ⟨.ioError,"pread failed"⟩, s)
  | .writeFile fd b offset, s =>
    if offset + b.length ≤ ssizeMax then (.ok (), { s with fs := s.fs.write fd b offset })
    else (.error ⟨.ioError,"The write offset is overflow"⟩, s)
  | .truncate path name size, s =>
    match s.fs.file path name with
    | some f => (.ok (), { s with fs := s.fs.setFile path name { f with bytes := f.bytes.take size } })
    | none => (.error ⟨.ioError,"truncate index failed"⟩, s)
  | .fsyncFd _, s => (.ok (), s)
  | .fsyncDir _, s => (.ok (), s)
  | .unlink path name, s =>
    ((.ok (s.fs.file path name).isSome), { s with fs := s.fs.removeFile path name })
  | .globData path, s => (.ok ((s.fs.dir path).files.keys.filterMap dataName), s)
  | .globIndex path, s => (.ok ((s.fs.dir path).files.keys.filterMap indexName), s)
  | .nowMs, s => (s.nowMs, s)
  | .lock, s => (s.slot, { s with locked := true })
  | .unlock slot, s => ((), { s with slot := slot, locked := false })

/-- The result by which an operation reports an I/O error, if it can report one. -/
def failure (e : Status) : (o : SlotOp) → Option (SlotRes o)
  | .createDir _ => some (.error e)
  | .loadManifest _ => some (.error e)
  | .storeManifest _ _ => some (.error e)
  | .getFileIdentity _ => some (.error e)
  | .fileExist _ _ => none
  | .fileSize _ _ => none
  | .openFile _ _ _ => some (.error e)
  | .fdFileSize _ => none
  | .readWholeFile _ _ => some (.error e)
  | .readFile _ _ _ => some (.error e)
  | .writeFile _ _ _ => some (.error e)
  | .truncate _ _ _ => some (.error e)
  | .fsyncFd _ => some (.error e)
  | .fsyncDir _ => some (.error e)
  | .unlink _ _ => some (.error e)
  | .globData _ => some (.error e)
  | .globIndex _ => some (.error e)
  | .nowMs => none
  | .lock => none
  | .unlock _ => none

/-- How far an operation has come that fails or is cut off: a write has written some of its bytes,
and the manifest has been replaced or not. -/
def cutOff (o : SlotOp) (reach : Nat) (s : Shared) : Shared :=
  match o with
  | .writeFile fd b offset => { s with fs := s.fs.write fd (b.take reach) offset }
  | .storeManifest path m =>
    if reach = 0 then s else { s with fs := s.fs.storeManifest path m }
  | _ => s

end Datasystem.SlotClient
