import Datasystem.SlotClient.SlotRecovery

/-!
# The cached state of a slot

`CacheOk` says when it may: as long as the object believes in its manifest, what it keeps agrees with the
files.
-/

namespace Datasystem.SlotClient

open RecordLog SlotIndexCodec Act

/-- The file is open and as long as the writer believes. -/
def Opened (fs : Fs) (path : Bytes) (name : FileName) (fd : Option Fd) (size : Nat) : Prop :=
  ∃ f, fs.file path name = some f ∧ fd = some ⟨path,name,f.inode⟩ ∧ size = f.bytes.length

/-- The writer has the active files open. -/
structure WriterFits (fs : Fs) (path : Bytes) (m : SlotManifestData) (w : SlotWriter) : Prop where
  index : Opened fs path (.index m.activeIndex) w.activeIndexFd w.activeIndexSize
  data : Opened fs path (.data w.activeDataFileId) w.activeDataFd w.activeDataSize
  last : m.activeData.getLast? = some w.activeDataFileId

/-- The slot needs no repair and the object agrees with it. -/
structure Fits (path : Bytes) (fs : Fs) (slot : Slot) (m : SlotManifestData) (identity : Nat)
    (recs : List SlotRecord) (es : List Entry) : Prop where
  settled : Settled fs path m identity recs
  home : m.homeSlotPath = [] → path = []
  log : LogOf fs path m.activeData recs es
  initialized : slot.runtime.initialized = true
  manifest : slot.runtime.manifest = m
  identity_eq : slot.runtime.manifestIdentity = identity
  snapshot : slot.runtime.snapshot = SlotSnapshot.ofRecords recs
  writer : WriterFits fs path m slot.writer

/-- An object that does not notice that its manifest has been replaced agrees with the files. -/
def CacheOk (path : Bytes) (fs : Fs) (slot : Slot) (es : List Entry) : Prop :=
  slot.runtime.initialized = true → ∀ m, (fs.dir path).stored = some ⟨m,slot.runtime.manifestIdentity⟩ →
    ∃ recs, Fits path fs slot m slot.runtime.manifestIdentity recs es

variable {path : Bytes} {fs : Fs} {slot : Slot} {m : SlotManifestData}
  {identity : Nat} {recs : List SlotRecord} {es : List Entry}

theorem Opened.congr {fs' : Fs} {name : FileName} {fd : Option Fd} {size : Nat} (h : Opened fs path name fd size)
    (hsame : fs'.file path name = fs.file path name) : Opened fs' path name fd size := by
  obtain ⟨f,hf,hfd,hsize⟩ := h
  exact ⟨f,hsame.trans hf,hfd,hsize⟩

theorem CacheOk.of_not_initialized (h : slot.runtime.initialized = false) : CacheOk path fs slot es := by
  intro hinit
  rw [h] at hinit
  cases hinit

theorem Fits.cacheOk (h : Fits path fs slot m identity recs es) : CacheOk path fs slot es := by
  intro _ m' hstored
  rw [h.identity_eq] at hstored ⊢
  obtain rfl : m = m' := by simpa [h.settled.stored] using hstored
  exact ⟨recs,h⟩

theorem Fits.diskInv (h : Fits path fs slot m identity recs es) : DiskInv fs path es :=
  Or.inr ⟨m,identity,h.settled.stored,
    Or.inl ⟨h.settled.manifest,h.home,recs,.indexed h.settled.index.indexed,h.log⟩⟩

/-- What the writer has open, apart from what it has not flushed. -/
structure SameFiles (w w' : SlotWriter) : Prop where
  dataFd : w'.activeDataFd = w.activeDataFd
  indexFd : w'.activeIndexFd = w.activeIndexFd
  fileId : w'.activeDataFileId = w.activeDataFileId
  dataSize : w'.activeDataSize = w.activeDataSize
  indexSize : w'.activeIndexSize = w.activeIndexSize

theorem SameFiles.refl (w : SlotWriter) : SameFiles w w := ⟨rfl,rfl,rfl,rfl,rfl⟩

theorem WriterFits.congr {w w' : SlotWriter} (h : WriterFits fs path m w) (hw : SameFiles w w') :
    WriterFits fs path m w' := by
  refine ⟨?_,?_,?_⟩
  · rw [hw.indexFd,hw.indexSize]
    exact h.index
  · rw [hw.dataFd,hw.dataSize,hw.fileId]
    exact h.data
  · rw [hw.fileId]
    exact h.last

theorem Fits.flushed (h : Fits path fs slot m identity recs es) {w : SlotWriter}
    (hw : SameFiles slot.writer w) : Fits path fs { slot with writer := w } m identity recs es :=
  { h with writer := h.writer.congr hw }

section Rules

variable {cfg : SlotConfig} {S : Setting cfg.slotPath} {E : Post Slot Status}
  {t : Slot} {s : Shared} {g : List Entry}

namespace SlotWriter

variable {Q : Post Slot Unit}

theorem wp_modify {f : SlotWriter → SlotWriter} :
    wp S.contract Q E (modify f) t s g ↔ Q () { t with writer := f t.writer } s g := Iff.rfl

variable (h : Safe S s g) (hs : Settled s.fs cfg.slotPath m identity recs)

include h hs

theorem wp_initIndex (hQ : ∀ fd size, Opened s.fs cfg.slotPath (.index m.activeIndex) fd size →
      Q () { t with writer := { t.writer with activeIndexFd := fd, activeIndexSize := size } } s g) :
    wp S.contract Q E (initIndex cfg.slotPath m.activeIndex) t s g := by
  have hne : m.activeIndex.isEmpty = false := by simpa using hs.manifest.activeIndex
  obtain ⟨_,inode,hf⟩ := hs.index
  rw [initIndex,hne]
  simp only [Bool.false_eq_true,if_false]
  rw [wp_bind]
  refine wp_ensureIndexFile h ⟨hs.present,hs.stored⟩ ?_
  intro fs' hm _
  obtain rfl := hm.settled m identity recs hs
  rw [wp_bind]
  refine wp_openFile_of_some h hf ?_
  rw [wp_bind,wp_modify,wp_bind]
  refine wp_fdFileSize h hf ?_
  exact hQ _ _ ⟨_,hf,rfl,rfl⟩

theorem wp_initData
    (hQ : ∀ fileId fd size, m.activeData.getLast? = some fileId → Opened s.fs cfg.slotPath (.data fileId) fd size →
      Q () { t with writer := { t.writer with
        activeDataFileId := fileId, activeDataFd := fd, activeDataSize := size } } s g) :
    wp S.contract Q E (initData cfg.slotPath m.activeData) t s g := by
  rw [initData]
  cases hlast : m.activeData.getLast? with
  | none => exact absurd (List.getLast?_eq_none_iff.mp hlast) hs.manifest.activeData
  | some fileId =>
    have hmem : fileId ∈ m.activeData := List.mem_of_getLast? hlast
    obtain ⟨f,hf⟩ := Option.isSome_iff_exists.mp (hs.dataExist fileId hmem)
    simp only
    rw [wp_bind,wp_modify,wp_bind]
    refine wp_ensureFile h ⟨hs.present,hs.stored⟩ hmem ?_
    intro fs' hm _
    obtain rfl := hm.settled m identity recs hs
    rw [wp_bind]
    refine wp_openFile_of_some h hf ?_
    rw [wp_bind,wp_modify,wp_bind]
    refine wp_fdFileSize h hf ?_
    exact hQ fileId _ _ hlast ⟨f,hf,rfl,rfl⟩

theorem wp_init (hQ : ∀ w, WriterFits s.fs cfg.slotPath m w → Q () { t with writer := w } s g) :
    wp S.contract Q E (init cfg.slotPath m) t s g := by
  rw [init,wp_bind,close,wp_modify,wp_bind]
  refine wp_nowMs h ?_
  intro now
  rw [wp_bind,wp_modify,wp_bind]
  refine wp_initIndex h hs ?_
  intro fd size hopened
  refine wp_initData h hs ?_
  exact fun fileId fd' size' hlast hopened' => hQ _ ⟨hopened,hopened',hlast⟩

omit h hs

theorem wp_syncFd {fd : Option Fd} (h : Safe S s g) (hQ : Q () t s g) :
    wp S.contract Q E (syncFd fd) t s g := by
  cases fd with
  | none => exact hQ
  | some fd => exact wp_fsyncFd h hQ

theorem wp_flush (h : Safe S s g) (hQ : ∀ w, SameFiles t.writer w → Q () { t with writer := w } s g) :
    wp S.contract Q E flush t s g := by
  rw [flush,wp_bind,wp_getState]
  split_ifs
  · exact hQ t.writer (SameFiles.refl _)
  · rw [wp_bind]
    refine wp_syncFd h ?_
    rw [wp_bind]
    refine wp_syncFd h ?_
    rw [wp_bind]
    refine wp_nowMs h ?_
    intro now
    exact hQ _ ⟨rfl,rfl,rfl,rfl,rfl⟩

end SlotWriter

namespace Slot

variable {Q : Post Slot Unit}

theorem wp_flushRuntimeLocked {force : Bool} (h : Safe S s g)
    (hQ : ∀ w, SameFiles t.writer w → Q () { t with writer := w } s g) :
    wp S.contract Q E (flushRuntimeLocked cfg force) t s g := by
  rw [flushRuntimeLocked,wp_bind,wp_getState]
  split_ifs
  · exact hQ t.writer (SameFiles.refl _)
  · exact SlotWriter.wp_flush h hQ
  · rw [wp_bind]
    refine wp_nowMs h ?_
    intro now
    split_ifs
    · exact SlotWriter.wp_flush h hQ
    · exact hQ t.writer (SameFiles.refl _)

theorem wp_installRuntime (h : Safe S s g)
    (hs : Settled s.fs cfg.slotPath m identity recs) (hhome : m.homeSlotPath = [] → cfg.slotPath = [])
    (hlog : LogOf s.fs cfg.slotPath m.activeData recs g)
    (hQ : ∀ t', Fits cfg.slotPath s.fs t' m identity recs g → Q () t' s g) :
    wp S.contract Q E (installRuntime cfg m (SlotSnapshot.ofRecords recs)) t s g := by
  rw [installRuntime,wp_bind,wp_modifyState,wp_bind]
  refine wp_getFileIdentity h hs.stored ?_
  rw [wp_bind,wp_modifyState]
  refine SlotWriter.wp_init h hs ?_
  exact fun w hw => hQ _ ⟨hs,hhome,hlog,rfl,rfl,rfl,rfl,hw⟩

/-- What holds when the files have been recovered and the cached state fits them. -/
def Rebuilt (path : Bytes) (Q : Post Slot Unit) (s : Shared) (g : List Entry) : Prop :=
  ∀ fs' t' m identity recs, KeepsIds path s.fs fs' → Fits path fs' t' m identity recs g → Q () t' { s with fs := fs' } g

theorem Rebuilt.mend (h : Rebuilt path Q s g) {fs' : Fs} (hr : KeepsIds path s.fs fs') :
    Rebuilt path Q { s with fs := fs' } g :=
  fun fs'' t' m identity recs hr' => h fs'' t' m identity recs (hr' ∘ hr)

/-- The files of the slot are recovered before anything else. -/
theorem wp_recoverThen {k : SlotManifestData → SlotAct Slot Unit} (h : Safe S s g)
    (hinit : t.runtime.initialized = false) (hpost : Rebuilt cfg.slotPath Q s g)
    (hk : ∀ m fs' identity, Recovered cfg.slotPath fs' m identity g →
      Rebuilt cfg.slotPath Q { s with fs := fs' } g → wp S.contract Q E (k m) t { s with fs := fs' } g) :
    wp S.contract Q E (do
      bootstrapManifestIfNeed cfg
      let loaded ← loadManifest cfg
      let m ← recoverManifestIfNeeded cfg loaded
      k m) t s g := by
  rw [wp_bind]
  refine wp_bootstrapManifestIfNeed h hinit ?_
  intro fs₁ m₁ identity₁ hr₁ hdisk₁ hpresent₁ hstored₁ hexist₁
  have hsafe : Safe S { s with fs := fs₁ } g := ⟨hdisk₁,h.after⟩
  rw [wp_bind]
  refine wp_loadManifest hsafe hstored₁ ?_
  rw [wp_bind]
  refine wp_recoverManifestIfNeeded hsafe hinit ⟨hpresent₁,hstored₁⟩ hexist₁ ?_
  intro m fs' identity hr hrecovered
  exact hk m fs' identity hrecovered (hpost.mend (hr ∘ hr₁))

theorem Recovered.mend {fs' : Fs} (h : Recovered path fs m identity es) (hm : Mends fs fs' path) :
    Recovered path fs' m identity es := by
  refine ⟨hm.present h.present,hm.stored.trans h.stored,h.gcPending,hm.diskNormal h.disk,?_⟩
  intro fileId hmem
  obtain ⟨f,hf⟩ := Option.isSome_iff_exists.mp (h.dataExist fileId hmem)
  rw [hm.data fileId f hf]
  rfl

theorem wp_replayThenInstall (h : Safe S s g) (hr : Recovered cfg.slotPath s.fs m identity g)
    (hpost : Rebuilt cfg.slotPath Q s g) :
    wp S.contract Q E (do
      let snapshot ← SlotSnapshot.replay cfg.slotPath m
      installRuntime cfg m snapshot) t s g := by
  obtain ⟨recs,hstate,hlog⟩ := hr.disk.log
  rw [wp_bind]
  refine wp_replay h ⟨hr.present,hr.stored⟩ hstate hlog ?_
  intro fs' hm hclean
  have hr' := hr.mend hm
  have hs : Settled fs' cfg.slotPath m identity recs :=
    ⟨hr'.present,hr'.stored,hr'.disk.manifest,hr'.gcPending,hclean,hr'.dataExist⟩
  refine wp_installRuntime (h.mend hm) hs hr.disk.home (hm.logOf hlog) ?_
  exact fun t' hfits => hpost fs' t' m identity recs (.of_mends hm) hfits

private theorem Recovered.diskInv (hr : Recovered path fs m identity es) : DiskInv fs path es :=
  Or.inr ⟨m,identity,hr.stored,Or.inl hr.disk⟩

theorem wp_buildRuntimeStateLocked (h : Safe S s g) (hinit : t.runtime.initialized = false)
    (hpost : Rebuilt cfg.slotPath Q s g) : wp S.contract Q E (buildRuntimeStateLocked cfg) t s g := by
  rw [buildRuntimeStateLocked]
  refine wp_recoverThen h hinit hpost ?_
  intro m fs' identity hr hpost'
  exact wp_replayThenInstall ⟨hr.diskInv,h.after⟩ hr hpost'

theorem wp_repairLocked (h : Safe S s g) (hpost : Rebuilt cfg.slotPath Q s g) :
    wp S.contract Q E (repairLocked cfg) t s g := by
  rw [repairLocked,wp_bind]
  refine wp_flushRuntimeLocked h ?_
  intro w _
  rw [wp_bind,resetRuntimeLocked,wp_modifyState]
  refine wp_recoverThen h rfl hpost ?_
  intro m fs₁ identity hr hpost₁
  have hsafe : Safe S { s with fs := fs₁ } g := ⟨hr.diskInv,h.after⟩
  obtain ⟨recs,hstate,hlog⟩ := hr.disk.log
  rw [wp_bind]
  refine wp_readAllRecords hsafe ⟨hr.present,hr.stored⟩ hstate ?_
  intro fs' _ hm hclean
  exact wp_replayThenInstall (hsafe.mend hm) (hr.mend hm) (hpost₁.mend (.of_mends hm))

/-- A stale object is rebuilt; otherwise the object is used as it is. -/
theorem wp_ensureRuntimeReadyLocked (h : Safe S s g) (hcache : CacheOk cfg.slotPath s.fs t g)
    (hpost : Rebuilt cfg.slotPath Q s g) : wp S.contract Q E (ensureRuntimeReadyLocked cfg) t s g := by
  have hstale : wp S.contract Q E (do
      resetRuntimeLocked
      buildRuntimeStateLocked cfg) t s g := by
    rw [wp_bind,resetRuntimeLocked,wp_modifyState]
    exact wp_buildRuntimeStateLocked h rfl hpost
  rw [ensureRuntimeReadyLocked,wp_bind,isRuntimeStaleLocked,wp_bind,wp_getState]
  split_ifs with hinit
  · exact hstale
  · have hinit' : t.runtime.initialized = true := by simpa using hinit
    rw [wp_bind,wp_attempt]
    cases hstored : (s.fs.dir cfg.slotPath).stored with
    | none => exact wp_getFileIdentity_none h hstored fun e => hstale
    | some sm =>
      refine wp_getFileIdentity h hstored ?_
      simp only [wp_pure]
      by_cases hsame : sm.identity = t.runtime.manifestIdentity
      · simp only [hsame,ne_eq,not_true_eq_false,decide_false,Bool.not_false,if_true]
        obtain ⟨recs,hfits⟩ := hcache hinit' sm.manifest (by rw [hstored,← hsame])
        exact hpost s.fs t _ _ recs id hfits
      · simp only [ne_eq,hsame,not_false_eq_true,decide_true,Bool.not_true,Bool.false_eq_true,if_false]
        exact hstale

theorem wp_withLock {α : Type} {body : SlotAct Slot α} {Q : Except Status α → Shared → List Entry → Prop}
    (h : Safe S s g) (hbody : wp S.contract
      (fun a slot' s' g' => Safe S s' g' ∧ Q (.ok a) { s' with slot := slot', locked := false } g')
      (fun e slot' s' g' => Safe S s' g' ∧ Q (.error e) { s' with slot := slot', locked := false } g')
      body s.slot { s with locked := true } g) : (withLock body).wp S.contract Q s g := by
  rintro s₁ g₁ ⟨rfl,rfl⟩
  refine ⟨fun _ => ⟨g₁,h.after,h.disk⟩,?_⟩
  rintro r s₂ ⟨rfl,rfl⟩
  refine ⟨g₁,trivial,?_⟩
  rw [Prog.wp_bind]
  refine Prog.wp_mono ?_ hbody
  rintro ⟨r,slot'⟩ s' g' hpost s₃ g₃ ⟨rfl,rfl⟩
  obtain ⟨hsafe,hQ⟩ : Safe S s₃ g₃ ∧ Q r { s₃ with slot := slot', locked := false } g₃ := by
    cases r <;> exact hpost
  refine ⟨fun _ => ⟨g₃,hsafe.after,hsafe.disk⟩,?_⟩
  rintro _ s₄ ⟨_,rfl⟩
  exact ⟨g₃,trivial,hQ⟩

end Slot

end Rules

end Datasystem.SlotClient
