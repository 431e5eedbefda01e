import Datasystem.SlotClient.SlotFiles

/-!
# Index files and their replay

The functions that read, repair and append to the index files of a slot, and the replay of an
index into a snapshot.
-/

namespace Datasystem.SlotClient

open RecordLog SlotIndexCodec List

/-- The code of a slot: file operations, a state of its own and a status. -/
abbrev SlotAct (τ α : Type) := Act SlotOp SlotRes Status τ α

variable {τ : Type}

def fileExist (path : Bytes) (name : FileName) : SlotAct τ Bool := Act.ask (SlotOp.fileExist path name)

def fileSize (path : Bytes) (name : FileName) : SlotAct τ (Option Nat) := Act.ask (SlotOp.fileSize path name)

def fdFileSize (fd : Fd) : SlotAct τ Nat := Act.ask (SlotOp.fdFileSize fd)

def openFile (path : Bytes) (name : FileName) (create : Bool) : SlotAct τ Fd := do
  let r ← Act.ask (SlotOp.openFile path name create)
  Act.ofExcept r

def writeFile (fd : Fd) (b : Bytes) (offset : Nat) : SlotAct τ Unit := do
  let r ← Act.ask (SlotOp.writeFile fd b offset)
  Act.ofExcept r

def readFile (fd : Fd) (offset size : Nat) : SlotAct τ Bytes := do
  let r ← Act.ask (SlotOp.readFile fd offset size)
  Act.ofExcept r

def fsyncFd (fd : Fd) : SlotAct τ Unit := do
  let r ← Act.ask (SlotOp.fsyncFd fd)
  Act.ofExcept r

def fsyncDir (path : Bytes) : SlotAct τ Unit := do
  let r ← Act.ask (SlotOp.fsyncDir path)
  Act.ofExcept r

def truncate (path : Bytes) (name : FileName) (size : Nat) : SlotAct τ Unit := do
  let r ← Act.ask (SlotOp.truncate path name size)
  Act.ofExcept r

def readWholeFile (path : Bytes) (name : FileName) : SlotAct τ Bytes := do
  let r ← Act.ask (SlotOp.readWholeFile path name)
  Act.ofExcept r

def createDir (path : Bytes) : SlotAct τ Unit := do
  let r ← Act.ask (SlotOp.createDir path)
  Act.ofExcept r

def getFileIdentity (path : Bytes) : SlotAct τ Nat := do
  let r ← Act.ask (SlotOp.getFileIdentity path)
  Act.ofExcept r

def ensureFile (path : Bytes) (name : FileName) : SlotAct τ Unit := do
  let exist ← fileExist path name
  if exist then return ()
  else do
    let _ ← openFile path name true
    return ()

namespace SlotIndexCodec

def writePayload (path index payload : Bytes) : SlotAct τ Unit := do
  let fd ← openFile path (.index index) true
  let offset ← fdFileSize fd
  writeFile fd payload offset
  fsyncFd fd

variable (path index : Bytes)

def truncateTail (validBytes : Nat) : SlotAct τ Unit := do
  truncate path (.index index) validBytes
  let fd ← openFile path (.index index) false
  fsyncFd fd

def rewriteHeader : SlotAct τ Unit := do
  truncateTail path index 0
  writePayload path index header

def ensureIndexFile : SlotAct τ Unit := do
  let exist ← fileExist path (.index index)
  if !exist then writePayload path index header
  else do
    let content ← readWholeFile path (.index index)
    if content.length < headerSize then rewriteHeader path index
    else
      match verifyHeader content with
      | .error _ => rewriteHeader path index
      | .ok _ => return ()

def appendEncodedRecords (path index payload : Bytes) : SlotAct τ Unit := do
  ensureIndexFile path index
  writePayload path index payload

def appendEncodedRecordsAt (fd : Fd) (offset : Nat) (payload : Bytes) : SlotAct τ Nat := do
  if payload.isEmpty then return offset
  else do
    writeFile fd payload offset
    return offset + payload.length

def readAllRecordFrames : SlotAct τ (List (Frame SlotRecord) × Nat) := do
  ensureIndexFile path index
  let content ← readWholeFile path (.index index)
  Act.ofExcept (verifyHeader content)
  let found := scanContent content
  if found.2 < content.length then do
    truncateTail path index found.2
    return found
  else return found

def readAllRecords : SlotAct τ (List SlotRecord × Nat) := do
  let found ← readAllRecordFrames path index
  return (found.1.map Frame.record, found.2)

section Reading

open Act (run_bind_ok)

variable (t : τ) {s : Shared} {path index b : Bytes} {inode : Nat} {rs : List SlotRecord}

theorem run_truncateTail (hf : s.fs.file path (.index index) = some ⟨inode,b⟩) (n : Nat) :
    (truncateTail path index n t).run exec s =
      ((.ok (), t), { s with fs := s.fs.setFile path (.index index) ⟨inode,b.take n⟩ }) := by
  simp [truncateTail,truncate,openFile,fsyncFd,Act.ask,bind,Act.bind,Prog.bind,Prog.run,exec,hf,Act.ofExcept,
    Fs.file_setFile]

theorem run_writePayload (hf : s.fs.file path (.index index) = some ⟨inode,b⟩) {payload : Bytes}
    (hsize : b.length + payload.length ≤ ssizeMax) : (writePayload path index payload t).run exec s =
      ((.ok (), t), { s with fs := s.fs.setFile path (.index index) ⟨inode,b ++ payload⟩ }) := by
  have hbehind : s.fs.behind ⟨path,.index index,inode⟩ = some ⟨inode,b⟩ := Fs.behind_eq hf
  have hwrite : s.fs.write ⟨path,.index index,inode⟩ payload b.length =
      s.fs.setFile path (.index index) ⟨inode,b ++ payload⟩ := by
    rw [← overwrite_end b payload]
    exact Fs.write_eq hf payload b.length
  simp [writePayload,openFile,fdFileSize,writeFile,fsyncFd,Act.ask,bind,Act.bind,Prog.bind,Prog.run,exec,hf,Act.ofExcept,
    hbehind,hsize,hwrite]

theorem run_ensureIndexFile (hf : s.fs.file path (.index index) = some ⟨inode,header ++ b⟩) :
    (ensureIndexFile path index t).run exec s = ((.ok (), t), s) := by
  simp [ensureIndexFile,fileExist,readWholeFile,Act.ask,bind,Act.bind,Prog.bind,Prog.run,exec,hf,Act.ofExcept,
    verifyHeader_header,pure,Act.ret]

/-- A header that is cut off is written again. -/
theorem run_ensureIndexFile_short (hf : s.fs.file path (.index index) = some ⟨inode,b⟩)
    (hshort : b.length < headerSize) : ∃ s', (ensureIndexFile path index t).run exec s = ((.ok (), t), s') ∧
      s'.fs.file path (.index index) = some ⟨inode,header⟩ := by
  have hreset : (ensureIndexFile path index t).run exec s = (rewriteHeader path index t).run exec s := by
    simp [ensureIndexFile,fileExist,readWholeFile,Act.ask,bind,Act.bind,Prog.bind,Prog.run,exec,hf,Act.ofExcept,hshort]
  rw [hreset,rewriteHeader,run_bind_ok (run_truncateTail t hf 0)]
  have hf₁ : (s.fs.setFile path (.index index) ⟨inode,b.take 0⟩).file path (.index index) = some ⟨inode,[]⟩ := by
    simp [Fs.file_setFile]
  exact ⟨_,run_writePayload t hf₁ (by simp [headerSize,ssizeMax]),by simp [Fs.file_setFile]⟩

/-- The index holds the records and nothing behind them. -/
def Holds (path index : Bytes) (s : Shared) (rs : List SlotRecord) : Prop :=
  ∃ inode, s.fs.file path (.index index) = some ⟨inode,header ++ encodeAll encodeRecord rs⟩

theorem run_readAllRecords {s₁ : Shared} {tail : Bytes}
    (hensure : (ensureIndexFile path index t).run exec s = ((.ok (), t), s₁)) (hrs : ∀ r ∈ rs, Encodable r)
    (htail : Torn takeRecord tail)
    (hf : s₁.fs.file path (.index index) = some ⟨inode,header ++ (encodeAll encodeRecord rs ++ tail)⟩) :
    ∃ s', (readAllRecords path index t).run exec s =
        ((.ok (rs, (header ++ encodeAll encodeRecord rs).length), t), s') ∧ Holds path index s' rs := by
  have hread : (readWholeFile path (.index index) t).run exec s₁ =
      ((.ok (header ++ (encodeAll encodeRecord rs ++ tail)), t), s₁) := by
    simp [readWholeFile,Act.ask,bind,Act.bind,Prog.bind,Prog.run,exec,hf,Act.ofExcept]
  have hverify : ((Act.ofExcept (verifyHeader (header ++ (encodeAll encodeRecord rs ++ tail))) : SlotAct τ Unit) t).run
      exec s₁ = ((.ok (), t), s₁) := by
    rw [verifyHeader_header]
    rfl
  have hframes : ∃ s', (readAllRecordFrames path index t).run exec s = ((.ok (frames encodeRecord headerSize rs,
      (header ++ encodeAll encodeRecord rs).length), t), s') ∧ Holds path index s' rs := by
    rw [readAllRecordFrames,run_bind_ok hensure,run_bind_ok hread,run_bind_ok hverify,scanContent_eq hrs htail]
    split_ifs with hlt
    · refine ⟨_,run_bind_ok (run_truncateTail t hf _),inode,?_⟩
      rw [← append_assoc,take_left]
      simp [Fs.file_setFile]
    · obtain rfl : tail = [] := by
        rw [← length_eq_zero_iff]
        simp only [length_append] at hlt
        omega
      exact ⟨s₁,rfl,inode,by rw [hf,append_nil]⟩
  obtain ⟨s',hrun,hholds⟩ := hframes
  refine ⟨s',?_,hholds⟩
  rw [readAllRecords,run_bind_ok hrun,map_record_frames]
  rfl

theorem cut_index_read_back (hrs : ∀ r ∈ rs, Encodable r) (cut : Nat)
    (hf : s.fs.file path (.index index) = some ⟨inode,(header ++ encodeAll encodeRecord rs).take cut⟩) :
    ∃ kept s', kept <+: rs ∧ (header ++ encodeAll encodeRecord kept).length ≤ max headerSize cut ∧
      (∀ more, more <+: rs → (header ++ encodeAll encodeRecord more).length ≤ cut → more <+: kept) ∧
      (readAllRecords path index t).run exec s = ((.ok (kept, (header ++ encodeAll encodeRecord kept).length), t), s') ∧
      Holds path index s' kept ∧
      (∃ s'', (readAllRecords path index t).run exec s' =
        ((.ok (kept, (header ++ encodeAll encodeRecord kept).length), t), s'') ∧ Holds path index s'' kept) ∧
      ∀ r, (header ++ encodeAll encodeRecord (kept ++ [r])).length ≤ ssizeMax →
        Holds path index ((appendEncodedRecords path index (encodeRecord r) t).run exec s').2 (kept ++ [r]) := by
  obtain ⟨kept,tail,hkept,htake,htail,hmax⟩ := recordFraming.cut_encodeAll hrs (cut - headerSize)
  have henc : ∀ r ∈ kept, Encodable r := fun r hr => hrs r (hkept.subset hr)
  have hlen : (encodeAll encodeRecord kept).length ≤ cut - headerSize := by
    have hle := congrArg List.length htake
    rw [length_append,length_take] at hle
    omega
  -- the first reading, of a file whose header is whole or not
  have hfirst : ∃ s', (readAllRecords path index t).run exec s =
      ((.ok (kept, (header ++ encodeAll encodeRecord kept).length), t), s') ∧ Holds path index s' kept := by
    rw [take_append,length_header,htake] at hf
    by_cases hcut : headerSize ≤ cut
    · rw [take_of_length_le (by simpa using hcut)] at hf
      exact run_readAllRecords t (run_ensureIndexFile t hf) henc htail hf
    · have hzero : cut - headerSize = 0 := by omega
      rw [hzero,take_zero] at htake
      obtain ⟨hnil,rfl⟩ := append_eq_nil_iff.mp htake.symm
      rw [hnil,append_nil,append_nil] at hf
      obtain ⟨s₁,hrun,hf₁⟩ := run_ensureIndexFile_short t hf (by simpa using hcut)
      have hf₂ : s₁.fs.file path (.index index) = some ⟨inode,header ++ (encodeAll encodeRecord kept ++ [])⟩ := by
        rw [hf₁,hnil,append_nil,append_nil]
      exact run_readAllRecords t hrun henc htail hf₂
  obtain ⟨s',hrun,inode',hf'⟩ := hfirst
  refine ⟨kept,s',hkept,?_,?_,hrun,⟨inode',hf'⟩,?_,?_⟩
  · rw [length_append,length_header]
    omega
  · intro more hmore hfits
    rw [length_append,length_header] at hfits
    exact hmax more hmore (by omega)
  · have htorn : Torn takeRecord [] := recordFraming.take_nil
    exact run_readAllRecords t (run_ensureIndexFile t hf') henc htorn (by rw [append_nil]; exact hf')
  · intro r hsize
    have happend : header ++ encodeAll encodeRecord (kept ++ [r]) =
        header ++ encodeAll encodeRecord kept ++ encodeRecord r := by
      simp [encodeAll]
    rw [happend,length_append] at hsize
    rw [appendEncodedRecords,run_bind_ok (run_ensureIndexFile t hf'),run_writePayload t hf' hsize]
    exact ⟨inode',by rw [happend]; simp [Fs.file_setFile]⟩

theorem cut_index_read_back_of_delete : ∃ kept s', kept <+: [SlotRecord.delete ⟨[107],1⟩] ∧
    (readAllRecords [115] [105] ()).run exec (Shared.mk (Fs.setFile {} [115] (.index [105])
      ⟨1,(header ++ encodeAll encodeRecord [.delete ⟨[107],1⟩]).take 40⟩) {} false 0) =
        ((.ok (kept, (header ++ encodeAll encodeRecord kept).length), ()), s') := by
  have hrs : ∀ r ∈ [SlotRecord.delete ⟨[107],1⟩], Encodable r := by simp [Encodable]
  obtain ⟨kept,s',hkept,_,_,hrun,_⟩ := cut_index_read_back () (s := Shared.mk _ _ _ _) hrs 40
    ((Fs.file_setFile {} [115] (.index [105]) _ _ _).trans (if_pos ⟨rfl,rfl⟩))
  exact ⟨kept,s',hkept,hrun⟩

end Reading

end SlotIndexCodec

namespace SlotSnapshot

variable (path : Bytes)

def isValidPut (record : SlotPutRecord) : SlotAct τ Bool := do
  let size ← fileSize path (.data record.fileId)
  match size with
  | none => return false
  | some n =>
    return decide (record.offset ≤ n ∧ record.size ≤ n ∧ record.offset + record.size ≤ n)

def applyRecord (snapshot : SlotSnapshot) : SlotRecord → SlotAct τ SlotSnapshot
  | .put r => do
    let valid ← isValidPut path r
    if valid then return snapshot.applyPut r else return snapshot
  | .delete r => return snapshot.applyDelete r
  | .importBegin _ => return snapshot
  | .importEnd _ => return snapshot

def applyRecords (path : Bytes) : List SlotRecord → SlotSnapshot → SlotAct τ SlotSnapshot
  | [], snapshot => return snapshot
  | r :: rs, snapshot => do
    let next ← applyRecord path snapshot r
    applyRecords path rs next

structure ReplayState where
  snapshot : SlotSnapshot := {}
  importBatchOpen : Bool := false
  importTxnId : Bytes := []
  stagedImportRecords : List SlotRecord := []

/-- The end of an import batch applies the staged records if it closes the batch that is open. -/
def closeImportBatch (st : ReplayState) (r : SlotImportRecord) : SlotAct τ SlotSnapshot :=
  if st.importBatchOpen && r.txnId = st.importTxnId then
    applyRecords path st.stagedImportRecords st.snapshot
  else return st.snapshot

/-- One turn of the replay loop: an import batch takes effect as a whole when it is closed. -/
def replayRecord (st : ReplayState) : SlotRecord → SlotAct τ ReplayState
  | .importBegin r =>
    return { st with importBatchOpen := true, importTxnId := r.txnId, stagedImportRecords := [] }
  | .importEnd r => do
    let snapshot ← closeImportBatch path st r
    return { snapshot := snapshot }
  | record =>
    if st.importBatchOpen then
      return { st with stagedImportRecords := st.stagedImportRecords ++ [record] }
    else do
      let snapshot ← applyRecord path st.snapshot record
      return { st with snapshot := snapshot }

def replayRecords (path : Bytes) : List SlotRecord → ReplayState → SlotAct τ ReplayState
  | [], st => return st
  | r :: rs, st => do
    let next ← replayRecord path st r
    replayRecords path rs next

def replay (m : SlotManifestData) : SlotAct τ SlotSnapshot := do
  let found ← readAllRecords path m.activeIndex
  let st ← replayRecords path found.1 {}
  return st.snapshot

end SlotSnapshot

end Datasystem.SlotClient
