import Datasystem.SlotClient.SlotSnapshot
import Datasystem.SlotClient.SlotFiles

/-!
# What the files of a slot stand for

A history is a list of puts and deletes. A delete hides the versions of its key up to the one it names, whenever they
were put. `DiskInv` relates the files of a slot to a history: the history that a recovery of the slot gives back.
-/

namespace Datasystem.SlotClient

open RecordLog SlotIndexCodec SlotManifest List

inductive Entry where
  | put (key : Bytes) (version : UInt64) (payload : Bytes)
  | delete (key : Bytes) (version : UInt64)
deriving DecidableEq, Repr

@[ext] structure Content where
  puts : Bytes → UInt64 → Option Bytes
  deletedUpTo : Bytes → Option UInt64

namespace Content

def empty : Content := ⟨fun _ _ => none,fun _ => none⟩

def apply (c : Content) : Entry → Content
  | .put key version payload =>
    { c with puts := fun k v => if k = key ∧ v = version then some payload else c.puts k v }
  | .delete key version =>
    { c with
      deletedUpTo := fun k =>
        if k = key then some (max ((c.deletedUpTo k).getD 0) version) else c.deletedUpTo k }

def of (es : List Entry) : Content := es.foldl apply empty

def visible (c : Content) (k : Bytes) (v : UInt64) : Option Bytes :=
  match c.deletedUpTo k with
  | none => c.puts k v
  | some w => if w < v then c.puts k v else none

theorem visible_eq_some {c : Content} {k : Bytes} {v : UInt64} {p : Bytes} :
    c.visible k v = some p ↔ c.puts k v = some p ∧ ∀ w, c.deletedUpTo k = some w → w < v := by
  unfold visible
  cases c.deletedUpTo k with
  | none => simp
  | some w =>
    by_cases h : w < v
    · simp [h]
    · simp [h]

end Content

def slice (b : Bytes) (offset size : Nat) : Bytes := (b.drop offset).take size

def Holds (fs : Fs) (path : Bytes) (r : SlotPutRecord) (payload : Bytes) : Prop :=
  ∃ f, fs.file path (.data r.fileId) = some f ∧ r.offset + r.size ≤ f.bytes.length ∧
    slice f.bytes r.offset r.size = payload

/-- A record stands for an entry, with its bytes in one of the given data files. -/
def Represents (fs : Fs) (path : Bytes) (files : List UInt32) : SlotRecord → Entry → Prop
  | .put r, .put k v payload =>
    r.key = k ∧ r.version = v ∧ r.fileId ∈ files ∧ Encodable (.put r) ∧ Holds fs path r payload
  | .delete r, .delete k v => r.key = k ∧ r.version = v ∧ Encodable (.delete r)
  | _, _ => False

/-- The records of an index stand for a history. -/
def LogOf (fs : Fs) (path : Bytes) (files : List UInt32) (recs : List SlotRecord) (es : List Entry) : Prop :=
  List.Forall₂ (Represents fs path files) recs es

/-- An index file with the given records and nothing else. -/
def Clean (f : Option File) (recs : List SlotRecord) : Prop :=
  (∀ r ∈ recs, Encodable r) ∧ ∃ inode, f = some ⟨inode,header ++ encodeAll encodeRecord recs⟩

/-- An index file with the given records and possibly a torn one. -/
def Indexed (f : Option File) (recs : List SlotRecord) : Prop :=
  (∀ r ∈ recs, Encodable r) ∧
    ∃ inode tail, f = some ⟨inode,header ++ (encodeAll encodeRecord recs ++ tail)⟩ ∧
      Torn takeRecord tail

/-- An index file that is read as the given records, after its header has been written. -/
inductive IndexState : Option File → List SlotRecord → Prop
  | absent : IndexState none []
  | short {f : File} (h : f.bytes.length < headerSize) : IndexState (some f) []
  | indexed {f : Option File} {recs : List SlotRecord} (h : Indexed f recs) : IndexState f recs

structure NormalManifest (m : SlotManifestData) : Prop where
  normal : SlotManifest.isNormalManifest m = true
  txnId : m.txnId = []
  activeIndex : m.activeIndex ≠ []
  activeData : m.activeData ≠ []
  obsolete : m.gcPending = true →
    (∀ fileId ∈ m.obsoleteData, fileId ∉ m.activeData) ∧ m.obsoleteIndex ≠ m.activeIndex

structure CommittingManifest (m : SlotManifestData) : Prop where
  state : m.state = .inOperation
  opType : m.opType = .compact
  opPhase : m.opPhase = .compactCommitting
  role : m.role = .localRole
  txnId : m.txnId ≠ []
  activeIndex : m.activeIndex ≠ []
  pendingIndex : m.pendingIndex ≠ []
  pendingData : m.pendingData ≠ []
  apart : (∀ fileId ∈ m.activeData, fileId ∉ m.pendingData) ∧ m.activeIndex ≠ m.pendingIndex

variable (fs fs' fs'' : Fs) (path : Bytes)

/-- A slot in no operation. -/
structure DiskNormal (m : SlotManifestData) (es : List Entry) : Prop where
  manifest : NormalManifest m
  home : m.homeSlotPath = [] → path = []
  log : ∃ recs, IndexState (fs.file path (.index m.activeIndex)) recs ∧
    LogOf fs path m.activeData recs es

/-- A slot whose compaction has been announced: what it has built takes effect. -/
structure DiskCommitting (m : SlotManifestData) (es : List Entry) : Prop where
  manifest : CommittingManifest m
  home : m.homeSlotPath = [] → path = []
  log : ∃ recs, Indexed (fs.file path (.index m.pendingIndex)) recs ∧
    LogOf fs path m.pendingData recs es
  dataExist : ∀ fileId ∈ m.pendingData, (fs.file path (.data fileId)).isSome = true

/-- The slot directory has never been used. -/
def Unused : Prop := (fs.dir path).stored = none ∧ ∀ name, fs.file path name = none

/-- The files of a slot stand for a history. -/
def DiskInv (es : List Entry) : Prop :=
  (Unused fs path ∧ es = []) ∨
    ∃ m identity, (fs.dir path).stored = some ⟨m,identity⟩ ∧
      (DiskNormal fs path m es ∨ DiskCommitting fs path m es)

/-- A slot that needs no repair. -/
structure Settled (m : SlotManifestData) (identity : Nat) (recs : List SlotRecord) : Prop where
  present : (fs.dir path).present = true
  stored : (fs.dir path).stored = some ⟨m,identity⟩
  manifest : NormalManifest m
  gcPending : m.gcPending = false
  index : Clean (fs.file path (.index m.activeIndex)) recs
  dataExist : ∀ fileId ∈ m.activeData, (fs.file path (.data fileId)).isSome = true

def lastFileId : UInt32 := 4294967295

/-- There is a larger number than those the manifest names. -/
def IdsBounded : Prop :=
  ∀ m identity, (fs.dir path).stored = some ⟨m,identity⟩ →
    ∀ fileId ∈ m.activeData ++ m.pendingData ++ m.obsoleteData, fileId < lastFileId

/-- Repairs that do not touch the manifest. -/
structure Mends : Prop where
  stored : (fs'.dir path).stored = (fs.dir path).stored
  present : (fs.dir path).present = true → (fs'.dir path).present = true
  unused : (fs.dir path).stored = none → ∀ name, fs'.file path name = fs.file path name
  data : ∀ fileId f, fs.file path (.data fileId) = some f → fs'.file path (.data fileId) = some f
  state : ∀ index recs, IndexState (fs.file path (.index index)) recs →
    IndexState (fs'.file path (.index index)) recs
  indexed : ∀ index recs, Indexed (fs.file path (.index index)) recs →
    Indexed (fs'.file path (.index index)) recs
  clean : ∀ index recs, Clean (fs.file path (.index index)) recs →
    fs'.file path (.index index) = fs.file path (.index index)
  settled : ∀ m identity recs, Settled fs path m identity recs → fs' = fs

variable {fs fs' fs'' path}

theorem torn_nil : Torn takeRecord [] := recordFraming.take_nil

variable {recs : List SlotRecord}

theorem Clean.indexed {f : Option File} (h : Clean f recs) : Indexed f recs := by
  obtain ⟨hrecs,inode,rfl⟩ := h
  exact ⟨hrecs,inode,[],by simp,torn_nil⟩

theorem Indexed.length_le {f : File} (h : Indexed (some f) recs) : headerSize ≤ f.bytes.length := by
  obtain ⟨_,inode,tail,hf,_⟩ := h
  rw [Option.some.inj hf]
  simp

theorem Indexed.unique {f : Option File} {recs recs' : List SlotRecord} (h : Indexed f recs)
    (h' : Indexed f recs') : recs = recs' := by
  obtain ⟨hrecs,inode,tail,rfl,htail⟩ := h
  obtain ⟨hrecs',inode',tail',hf,htail'⟩ := h'
  have hbytes := (File.mk.inj (Option.some.inj hf)).2
  have hscan := scanContent_eq hrecs htail
  rw [hbytes,scanContent_eq hrecs' htail'] at hscan
  have hframes := congrArg (List.map Frame.record) (Prod.mk.inj hscan).1
  rw [map_record_frames,map_record_frames] at hframes
  exact hframes.symm

/-- Whatever part of the header has been written is completed later. -/
theorem indexState_of_header_cut {inode reach : Nat} : IndexState (some ⟨inode,header.take reach⟩) [] := by
  by_cases h : reach < headerSize
  · refine .short ?_
    simp only [length_take]
    omega
  · refine .indexed ⟨by simp,inode,[],?_,torn_nil⟩
    rw [take_of_length_le (by simpa using not_lt.mp h)]
    simp

theorem Holds.mono {r : SlotPutRecord} {payload : Bytes} (h : Holds fs path r payload)
    (hdata : ∀ f, fs.file path (.data r.fileId) = some f →
      ∃ f' : File, fs'.file path (.data r.fileId) = some f' ∧ f.bytes <+: f'.bytes) :
    Holds fs' path r payload := by
  obtain ⟨f,hf,hlen,hslice⟩ := h
  obtain ⟨f',hf',tail,htail⟩ := hdata f hf
  refine ⟨f',hf',?_,?_⟩
  · rw [← htail,length_append]
    omega
  · rw [← hslice,← htail,slice,slice,drop_append_of_le_length (by omega),
      take_append_of_le_length (by simp only [length_drop]; omega)]

variable {es : List Entry}

theorem LogOf.mono {files files' : List UInt32} (h : LogOf fs path files recs es)
    (hfiles : ∀ fileId ∈ files, fileId ∈ files')
    (hdata : ∀ fileId ∈ files, ∀ f, fs.file path (.data fileId) = some f →
      ∃ f' : File, fs'.file path (.data fileId) = some f' ∧ f.bytes <+: f'.bytes) : LogOf fs' path files' recs es := by
  refine List.Forall₂.imp ?_ h
  intro r e hr
  cases r with
  | put r =>
    cases e with
    | put k v payload =>
      obtain ⟨hkey,hversion,hmem,hencodable,hholds⟩ := hr
      exact ⟨hkey,hversion,hfiles _ hmem,hencodable,hholds.mono (hdata _ hmem)⟩
    | delete k v => exact hr.elim
  | delete r =>
    cases e with
    | put k v payload => exact hr.elim
    | delete k v => exact hr
  | importBegin r => cases e <;> exact hr.elim
  | importEnd r => cases e <;> exact hr.elim

theorem LogOf.encodable {files : List UInt32} (h : LogOf fs path files recs es) : ∀ r ∈ recs, Encodable r := by
  induction h with
  | nil => simp
  | @cons r e recs es hr _ ih =>
    intro x hx
    rcases mem_cons.mp hx with rfl | hx
    · cases x with
      | put r => cases e with
        | put k v payload => exact hr.2.2.2.1
        | delete k v => exact hr.elim
      | delete r => cases e with
        | put k v payload => exact hr.elim
        | delete k v => exact hr.2.2
      | importBegin r => cases e <;> exact hr.elim
      | importEnd r => cases e <;> exact hr.elim
    · exact ih x hx

theorem Mends.refl (fs : Fs) (path : Bytes) : Mends fs fs path where
  stored := rfl
  present := id
  unused _ _ := rfl
  data _ _ h := h
  state _ _ h := h
  indexed _ _ h := h
  clean _ _ _ := rfl
  settled _ _ _ _ := rfl

theorem Mends.trans (h : Mends fs fs' path) (h' : Mends fs' fs'' path) : Mends fs fs'' path where
  stored := h'.stored.trans h.stored
  present := h'.present ∘ h.present
  unused hnone name := (h'.unused (h.stored.trans hnone) name).trans (h.unused hnone name)
  data fileId f hf := h'.data fileId f (h.data fileId f hf)
  state index recs hi := h'.state index recs (h.state index recs hi)
  indexed index recs hi := h'.indexed index recs (h.indexed index recs hi)
  clean index recs hi := by
    have hsame := h.clean index recs hi
    rw [h'.clean index recs (by rw [hsame]; exact hi),hsame]
  settled m identity recs hs := by
    have hsame := h.settled m identity recs hs
    rw [h'.settled m identity recs (by rw [hsame]; exact hs),hsame]

theorem Mends.logOf (h : Mends fs fs' path) {files : List UInt32} (hlog : LogOf fs path files recs es) :
    LogOf fs' path files recs es :=
  hlog.mono (fun _ hf => hf) fun fileId _ f hf =>
    ⟨f,h.data fileId f hf,prefix_refl _⟩

variable {m : SlotManifestData}

theorem Mends.diskNormal (h : Mends fs fs' path) (hdisk : DiskNormal fs path m es) : DiskNormal fs' path m es := by
  obtain ⟨recs,hstate,hlog⟩ := hdisk.log
  exact ⟨hdisk.manifest,hdisk.home,recs,h.state _ _ hstate,h.logOf hlog⟩

theorem Mends.diskInv (h : Mends fs fs' path) (hinv : DiskInv fs path es) : DiskInv fs' path es := by
  rcases hinv with ⟨⟨hnone,hfiles⟩,hes⟩ | ⟨m,identity,hstored,hdisk⟩
  · refine Or.inl ⟨⟨h.stored.trans hnone,?_⟩,hes⟩
    intro name
    rw [h.unused hnone,hfiles]
  · refine Or.inr ⟨m,identity,h.stored.trans hstored,?_⟩
    rcases hdisk with hnormal | hcommitting
    · exact Or.inl (h.diskNormal hnormal)
    · obtain ⟨recs,hindexed,hlog⟩ := hcommitting.log
      refine Or.inr ⟨hcommitting.manifest,hcommitting.home,⟨recs,h.indexed _ _ hindexed,h.logOf hlog⟩,?_⟩
      intro fileId hmem
      obtain ⟨f,hf⟩ := Option.isSome_iff_exists.mp (hcommitting.dataExist fileId hmem)
      rw [h.data fileId f hf]
      rfl

theorem mends_createDir (fs : Fs) (path : Bytes) :
    Mends fs (fs.setDir path { fs.dir path with present := true }) path := by
  have hfile : ∀ name, (fs.setDir path { fs.dir path with present := true }).file path name = fs.file path name := by
    intro name
    simp [Fs.file,Fs.dir_setDir]
  refine ⟨by simp [Fs.dir_setDir],by simp [Fs.dir_setDir],fun _ name => hfile name,?_,?_,?_,
    fun index _ _ => hfile _,?_⟩
  · intro fileId f hf
    rw [hfile,hf]
  · intro index recs hi
    rwa [hfile]
  · intro index recs hi
    rwa [hfile]
  · intro m identity recs hs
    have hdir : ({ fs.dir path with present := true } : Dir) = fs.dir path := by
      rw [← hs.present]
    rw [hdir,Fs.setDir_dir]

theorem mends_createFile {name : FileName} (hnone : fs.file path name = none) {identity : Nat}
    (hstored : (fs.dir path).stored = some ⟨m,identity⟩)
    (hactive : name = .index m.activeIndex ∨ ∃ fileId ∈ m.activeData, name = .data fileId) :
    Mends fs (fs.createFile path name) path := by
  refine ⟨by simp,by simp,?_,?_,?_,?_,?_,?_⟩
  · intro hnone'
    rw [hstored] at hnone'
    cases hnone'
  · intro fileId f hf
    rw [Fs.file_createFile,if_neg,hf]
    rintro ⟨_,rfl⟩
    rw [hnone] at hf
    cases hf
  · intro index recs hi
    rw [Fs.file_createFile]
    split_ifs with h
    · rw [h.2,hnone] at hi
      cases hi with
      | absent => exact .short (by simp [headerSize])
      | indexed hi =>
        obtain ⟨_,_,_,hi,_⟩ := hi
        cases hi
    · exact hi
  · intro index recs hi
    rw [Fs.file_createFile]
    split_ifs with h
    · rw [h.2,hnone] at hi
      obtain ⟨_,_,_,hi,_⟩ := hi
      cases hi
    · exact hi
  · intro index recs hi
    rw [Fs.file_createFile,if_neg]
    rintro ⟨_,hname⟩
    rw [hname,hnone] at hi
    obtain ⟨_,_,hi⟩ := hi
    cases hi
  · intro m' identity' recs hs
    obtain ⟨rfl,rfl⟩ : m' = m ∧ identity' = identity := by
      have heq := hs.stored.symm.trans hstored
      simpa using heq
    rcases hactive with rfl | ⟨fileId,hmem,rfl⟩
    · obtain ⟨_,inode,hi⟩ := hs.index
      rw [hnone] at hi
      cases hi
    · have hsome := hs.dataExist fileId hmem
      rw [hnone] at hsome
      cases hsome

theorem mends_setIndex {f f' : File} {identity : Nat} (hstored : (fs.dir path).stored = some ⟨m,identity⟩)
    (hf : fs.file path (.index m.activeIndex) = some f)
    (hstate : ∀ recs, IndexState (some f) recs → IndexState (some f') recs)
    (hindexed : ∀ recs, Indexed (some f) recs → Indexed (some f') recs) (hclean : ∀ recs, ¬ Clean (some f) recs) :
    Mends fs (fs.setFile path (.index m.activeIndex) f') path := by
  refine ⟨by simp,by simp,?_,?_,?_,?_,?_,?_⟩
  · intro hnone'
    rw [hstored] at hnone'
    cases hnone'
  · intro fileId g hg
    rw [Fs.file_setFile,if_neg (by simp),hg]
  · intro index recs hi
    rw [Fs.file_setFile]
    split_ifs with h
    · rw [h.2,hf] at hi
      exact hstate recs hi
    · exact hi
  · intro index recs hi
    rw [Fs.file_setFile]
    split_ifs with h
    · rw [h.2,hf] at hi
      exact hindexed recs hi
    · exact hi
  · intro index recs hi
    rw [Fs.file_setFile,if_neg]
    rintro ⟨_,hname⟩
    rw [hname,hf] at hi
    exact hclean recs hi
  · intro m' identity' recs hs
    obtain ⟨rfl,rfl⟩ : m' = m ∧ identity' = identity := by
      have heq := hs.stored.symm.trans hstored
      simpa using heq
    have hcontra := hs.index
    rw [hf] at hcontra
    exact absurd hcontra (hclean recs)

theorem NormalManifest.state (h : NormalManifest m) : m.state = .normal := by
  have hnormal := h.normal
  simp only [isNormalManifest,Bool.decide_and,Bool.and_eq_true,decide_eq_true_eq] at hnormal
  exact hnormal.1

theorem NormalManifest.isTransfer (h : NormalManifest m) : isTransferManifest m = false := by
  simp [isTransferManifest,h.state]

theorem validate_of_normal (h : NormalManifest m) : validate m = .ok () := by
  have hindex : m.activeIndex.isEmpty = false := by simpa using h.activeIndex
  simp [validate,validateManifestStateCombination,h.state,h.normal,
    h.txnId,hindex,checkFailReturnStatus,bind,Except.bind]

theorem validate_of_committing (h : CommittingManifest m) : validate m = .ok () := by
  have hindex : m.activeIndex.isEmpty = false := by simpa using h.activeIndex
  have htxn : m.txnId.isEmpty = false := by simpa using h.txnId
  simp [validate,validateManifestStateCombination,h.state,h.opType,
    h.opPhase,h.role,htxn,hindex,checkFailReturnStatus,bind,Except.bind]

theorem DiskInv.validate (h : DiskInv fs path es) {identity : Nat}
    (hstored : (fs.dir path).stored = some ⟨m,identity⟩) : validate m = .ok () := by
  rcases h with ⟨⟨hnone,_⟩,_⟩ | ⟨m',identity',hstored',hdisk⟩
  · rw [hnone] at hstored
    cases hstored
  · obtain ⟨rfl,rfl⟩ : m' = m ∧ identity' = identity := by simpa [hstored'] using hstored
    rcases hdisk with hnormal | hcommitting
    · exact validate_of_normal hnormal.manifest
    · exact validate_of_committing hcommitting.manifest

/-- The files of a slot in no operation do not depend on where its manifest came from. -/
theorem DiskNormal.congr {m m' : SlotManifestData} (h : DiskNormal fs path m es) (hmanifest : NormalManifest m')
    (hhome : m'.homeSlotPath = [] → path = []) (hindex : m'.activeIndex = m.activeIndex)
    (hdata : ∀ fileId ∈ m.activeData, fileId ∈ m'.activeData) (hfile : ∀ name, fs'.file path name = fs.file path name) :
    DiskNormal fs' path m' es := by
  obtain ⟨recs,hstate,hlog⟩ := h.log
  refine ⟨hmanifest,hhome,recs,by rwa [hindex,hfile],hlog.mono hdata ?_⟩
  intro fileId _ f hf
  exact ⟨f,(hfile _).trans hf,prefix_refl _⟩

end Datasystem.SlotClient
