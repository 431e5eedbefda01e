import Datasystem.SlotClient.Slot
import Datasystem.SlotClient.SlotRules

/-!
# Recovery of a slot

What the code does when it finds a slot on disk: it completes the active files, finishes an announced
compaction, removes old files and replays the active index.
-/

namespace Datasystem.SlotClient

open RecordLog SlotIndexCodec Act List SlotManifest Option

variable {path : Bytes} {S : Setting path} {τ α : Type}
  {E : Post τ Status} {t : τ} {s : Shared} {g : List Entry}
  {m : SlotManifestData} {identity : Nat}

variable {f : File}

private theorem not_clean_of_short (h : f.bytes.length < headerSize)
    (recs : List SlotRecord) : ¬ Clean (some f) recs := by
  intro hclean
  exact absurd hclean.indexed.length_le (not_le.mpr h)

private theorem not_indexed_of_verify {e : Status} (h : verifyHeader f.bytes = .error e)
    (recs : List SlotRecord) : ¬ Indexed (some f) recs := by
  rintro ⟨_,inode,tail,hf,_⟩
  rw [some.inj hf,verifyHeader_header] at h
  cases h

structure OnDisk (fs : Fs) (path : Bytes) (m : SlotManifestData) (identity : Nat) : Prop where
  present : (fs.dir path).present = true
  stored : (fs.dir path).stored = some ⟨m,identity⟩

theorem OnDisk.mend {fs fs' : Fs} (h : OnDisk fs path m identity) (hm : Mends fs fs' path) :
    OnDisk fs' path m identity :=
  ⟨hm.present h.present,hm.stored.trans h.stored⟩

theorem onDisk_storeManifest {fs : Fs} : OnDisk (fs.storeManifest path m) path m fs.nextInode :=
  ⟨Fs.present_storeManifest _ _ _,Fs.stored_storeManifest _ _ _⟩

variable {Q : Post τ Unit}

theorem wp_writeHeader (h : Safe S s g) (hd : OnDisk s.fs path m identity)
    (hempty : ∀ f, s.fs.file path (.index m.activeIndex) = some f → f.bytes = [])
    (hQ : ∀ fs' inode, Mends s.fs fs' path →
      fs'.file path (.index m.activeIndex) = some ⟨inode,header⟩ → Q () t { s with fs := fs' } g) :
    wp S.contract Q E (writePayload path m.activeIndex header) t s g := by
  -- once the file is there and empty, the header goes to its front
  have hwrite : ∀ fs₁ inode, Mends s.fs fs₁ path → fs₁.file path (.index m.activeIndex) = some ⟨inode,[]⟩ →
      wp S.contract (fun fd t s g => wp S.contract Q E
          (do let offset ← fdFileSize fd; writeFile fd header offset; fsyncFd fd) t s g)
        E (ret (⟨path,.index m.activeIndex,inode⟩ : Fd)) t { s with fs := fs₁ } g := by
    intro fs₁ inode hm₁ hf₁
    have h₁ := h.mend hm₁
    have hstored₁ : (fs₁.dir path).stored = some ⟨m,identity⟩ := hm₁.stored.trans hd.stored
    have hmends : ∀ reach, Mends fs₁
        (fs₁.setFile path (.index m.activeIndex) ⟨inode,[] ++ header.take reach⟩) path := by
      intro reach
      refine mends_setIndex hstored₁ hf₁ ?_ ?_ (not_clean_of_short (by simp [headerSize]))
      · intro recs hi
        cases hi with
        | short => exact indexState_of_header_cut
        | indexed hi => exact absurd hi.length_le (by simp [headerSize])
      · intro recs hi
        exact absurd hi.length_le (by simp [headerSize])
    have hput : ∀ b, fs₁.write ⟨path,.index m.activeIndex,inode⟩ b ([] : Bytes).length =
        fs₁.setFile path (.index m.activeIndex) ⟨inode,[] ++ b⟩ := by
      intro b
      rw [Fs.write_eq hf₁,overwrite_end]
    rw [wp_ret,wp_bind]
    refine wp_fdFileSize h₁ hf₁ ?_
    rw [wp_bind]
    refine wp_writeFile g ?_ ?_ ?_
    · intro reach
      rw [hput]
      exact ⟨g,h.after,(hmends reach).diskInv h₁.disk⟩
    · intro _
      rw [hput,nil_append]
      have hm₂ : Mends s.fs (fs₁.setFile path (.index m.activeIndex) ⟨inode,header⟩) path := by
        have hwhole := hmends header.length
        rw [take_length,nil_append] at hwhole
        exact hm₁.trans hwhole
      exact wp_fsyncFd (h.mend hm₂) (hQ _ inode hm₂ (by simp [Fs.file_setFile]))
    · exact fun hlong => absurd hlong (by simp [headerSize,ssizeMax])
  rw [writePayload,wp_bind]
  cases hf : s.fs.file path (.index m.activeIndex) with
  | none =>
    refine wp_openFile_create h hd.present hf ?_
    exact hwrite _ _ (mends_createFile hf hd.stored (Or.inl rfl)) (by simp [Fs.file_createFile])
  | some f =>
    obtain ⟨inode,bytes⟩ := f
    obtain rfl : bytes = [] := hempty _ hf
    exact wp_openFile_of_some h hf (hwrite s.fs inode (Mends.refl _ _) hf)

theorem wp_truncateTail {size : Nat} (h : Safe S s g) (hf : s.fs.file path (.index m.activeIndex) = some f)
    (hmends : Mends s.fs
      (s.fs.setFile path (.index m.activeIndex) ⟨f.inode,f.bytes.take size⟩) path) (hQ : ∀ fs', Mends s.fs fs' path →
      fs'.file path (.index m.activeIndex) = some ⟨f.inode,f.bytes.take size⟩ →
      Q () t { s with fs := fs' } g) :
    wp S.contract Q E (truncateTail path m.activeIndex size) t s g := by
  have hf' : (s.fs.setFile path (.index m.activeIndex) ⟨f.inode,f.bytes.take size⟩).file path
      (.index m.activeIndex) = some ⟨f.inode,f.bytes.take size⟩ := by
    simp [Fs.file_setFile]
  rw [truncateTail,wp_bind]
  refine wp_truncate h hf ?_
  rw [wp_bind]
  refine wp_openFile_of_some (h.mend hmends) hf' ?_
  refine wp_fsyncFd (h.mend hmends) ?_
  exact hQ _ hmends hf'

/-- An index without a readable header holds no records. -/
theorem wp_rewriteHeader (h : Safe S s g) (hd : OnDisk s.fs path m identity)
    (hf : s.fs.file path (.index m.activeIndex) = some f) (hbad : ∀ recs, ¬ Indexed (some f) recs) (hQ : ∀ fs' inode, Mends s.fs fs' path →
      fs'.file path (.index m.activeIndex) = some ⟨inode,header⟩ → Q () t { s with fs := fs' } g) :
    wp S.contract Q E (rewriteHeader path m.activeIndex) t s g := by
  have hmends : Mends s.fs (s.fs.setFile path (.index m.activeIndex) ⟨f.inode,f.bytes.take 0⟩) path := by
    refine mends_setIndex hd.stored hf ?_ (fun recs hi => absurd hi (hbad recs))
      (fun recs hclean => hbad recs hclean.indexed)
    intro recs hi
    cases hi with
    | short => exact .short (by simp [headerSize])
    | indexed hi => exact absurd hi (hbad recs)
  rw [rewriteHeader,wp_bind]
  refine wp_truncateTail h hf hmends ?_
  intro fs₁ hm₁ hf₁
  refine wp_writeHeader (h.mend hm₁) (hd.mend hm₁) ?_ ?_
  · intro f' hf'
    rw [hf₁] at hf'
    rw [← some.inj hf']
    rfl
  · exact fun fs' inode hm hheader => hQ fs' inode (hm₁.trans hm) hheader

theorem wp_ensureIndexFile (h : Safe S s g) (hd : OnDisk s.fs path m identity) (hQ : ∀ fs', Mends s.fs fs' path →
      (∀ recs, IndexState (s.fs.file path (.index m.activeIndex)) recs →
        Indexed (fs'.file path (.index m.activeIndex)) recs) → Q () t { s with fs := fs' } g) :
    wp S.contract Q E (ensureIndexFile path m.activeIndex) t s g := by
  -- a header alone is an index without records
  have hheader : ∀ inode, Indexed (some ⟨inode,header⟩) [] := fun inode =>
    ⟨by simp,inode,[],by simp,torn_nil⟩
  rw [ensureIndexFile,wp_bind]
  refine wp_fileExist h ?_
  cases hf : s.fs.file path (.index m.activeIndex) with
  | none =>
    refine wp_writeHeader h hd (by simp [hf]) ?_
    intro fs' inode hm hf'
    refine hQ fs' hm ?_
    intro recs hi
    rw [hf] at hi
    cases hi with
    | absent => rw [hf']; exact hheader inode
    | indexed hi =>
      obtain ⟨_,_,_,hi,_⟩ := hi
      cases hi
  | some f =>
    -- whatever has no readable header is replaced by a header
    have hrewrite : (∀ recs, ¬ Indexed (some f) recs) → wp S.contract Q E (rewriteHeader path m.activeIndex) t s g := by
      intro hbad
      refine wp_rewriteHeader h hd hf hbad ?_
      intro fs' inode hm hf'
      refine hQ fs' hm ?_
      intro recs hi
      rw [hf] at hi
      cases hi with
      | short => rw [hf']; exact hheader inode
      | indexed hi => exact absurd hi (hbad recs)
    simp only [isSome_some,Bool.not_true,Bool.false_eq_true,if_false]
    rw [wp_bind]
    refine wp_readWholeFile h hf ?_
    split_ifs with hshort
    · exact hrewrite fun recs hi => absurd hi.length_le (not_le.mpr hshort)
    · cases hverify : verifyHeader f.bytes with
      | error e => exact hrewrite (not_indexed_of_verify hverify)
      | ok u =>
        refine hQ s.fs (Mends.refl _ _) ?_
        intro recs hi
        rw [hf] at hi ⊢
        cases hi with
        | short hlt => exact absurd hlt hshort
        | indexed hi => exact hi

variable {recs : List SlotRecord}

variable (h : Safe S s g) (hd : OnDisk s.fs path m identity)
  (hstate : IndexState (s.fs.file path (.index m.activeIndex)) recs)

include h hd hstate

theorem wp_readAllRecordFrames {Q : Post τ (List (Frame SlotRecord) × Nat)}
    (hQ : ∀ fs', Mends s.fs fs' path → Clean (fs'.file path (.index m.activeIndex)) recs →
      Q (frames encodeRecord headerSize recs, (header ++ encodeAll encodeRecord recs).length) t { s with fs := fs' } g) :
    wp S.contract Q E (readAllRecordFrames path m.activeIndex) t s g := by
  rw [readAllRecordFrames,wp_bind]
  refine wp_ensureIndexFile h hd ?_
  intro fs₁ hm₁ hindexed
  have hi := hindexed recs hstate
  obtain ⟨hrecs,inode,tail,hf₁,htail⟩ := hindexed recs hstate
  rw [wp_bind]
  refine wp_readWholeFile (h.mend hm₁) hf₁ ?_
  rw [wp_bind,verifyHeader_header,wp_ofExcept_ok]
  simp only [scanContent_eq hrecs htail]
  split_ifs with hlt
  · -- a torn record is cut off
    have htake : (header ++ (encodeAll encodeRecord recs ++ tail)).take
        (header ++ encodeAll encodeRecord recs).length = header ++ encodeAll encodeRecord recs := by
      rw [← append_assoc,take_left]
    have hne : tail ≠ [] := by
      rintro rfl
      simp at hlt
    have hmends : Mends fs₁ (fs₁.setFile path (.index m.activeIndex)
        ⟨inode,(header ++ (encodeAll encodeRecord recs ++ tail)).take
          (header ++ encodeAll encodeRecord recs).length⟩) path := by
      rw [htake]
      have hread : ∀ recs', Indexed (some ⟨inode,header ++ (encodeAll encodeRecord recs ++ tail)⟩)
          recs' → recs' = recs := fun recs' hi' => (hi'.unique (hf₁ ▸ hi))
      refine mends_setIndex (hm₁.stored.trans hd.stored) hf₁ ?_ ?_ ?_
      · intro recs' hi'
        cases hi' with
        | short hshort => exact absurd hshort (by simp)
        | indexed hi' =>
          rw [hread recs' hi']
          exact .indexed ⟨hrecs,inode,[],by simp,torn_nil⟩
      · intro recs' hi'
        rw [hread recs' hi']
        exact ⟨hrecs,inode,[],by simp,torn_nil⟩
      · intro recs' hclean
        obtain ⟨_,inode',hbytes⟩ := hread recs' hclean.indexed ▸ hclean
        simp only [some.injEq,File.mk.injEq,append_cancel_left_eq,append_right_eq_self] at hbytes
        exact hne hbytes.2
    rw [wp_bind]
    refine wp_truncateTail (h.mend hm₁) hf₁ hmends ?_
    intro fs' hm hf'
    rw [htake] at hf'
    exact hQ fs' (hm₁.trans hm) ⟨hrecs,inode,hf'⟩
  · have hnil : tail = [] := by
      rw [← length_eq_zero_iff]
      simp only [length_append] at hlt
      omega
    refine hQ fs₁ hm₁ ⟨hrecs,inode,?_⟩
    rw [hf₁,hnil,append_nil]

theorem wp_readAllRecords {Q : Post τ (List SlotRecord × Nat)}
    (hQ : ∀ fs' validBytes, Mends s.fs fs' path → Clean (fs'.file path (.index m.activeIndex)) recs →
      Q (recs, validBytes) t { s with fs := fs' } g) :
    wp S.contract Q E (readAllRecords path m.activeIndex) t s g := by
  rw [readAllRecords,wp_bind]
  refine wp_readAllRecordFrames h hd hstate ?_
  intro fs' hm hclean
  simp only [wp_pure,map_record_frames]
  exact hQ fs' _ hm hclean

omit h hd hstate

namespace SlotSnapshot

/-- What a record that needs no check does to a snapshot. -/
def applyUnchecked (snapshot : SlotSnapshot) : SlotRecord → SlotSnapshot
  | .put r => snapshot.applyPut r
  | .delete r => snapshot.applyDelete r
  | .importBegin _ => snapshot
  | .importEnd _ => snapshot

/-- The snapshot of an index without import batches whose puts are all complete. -/
def ofRecords (recs : List SlotRecord) : SlotSnapshot := recs.foldl applyUnchecked {}

end SlotSnapshot

open SlotSnapshot in
theorem wp_replayRecords {Q : Post τ ReplayState} {files : List UInt32} {es : List Entry}
    (h : Safe S s g) (hlog : LogOf s.fs path files recs es) (st : ReplayState) (hst : st.importBatchOpen = false)
    (hQ : Q { st with snapshot := recs.foldl applyUnchecked st.snapshot } t s g) :
    wp S.contract Q E (replayRecords path recs st) t s g := by
  induction hlog generalizing st with
  | nil => exact hQ
  | @cons r e recs es hr _ ih =>
    rw [replayRecords,wp_bind]
    cases r with
    | put r =>
      cases e with
      | delete k v => exact hr.elim
      | put k v payload =>
        obtain ⟨_,_,_,_,f,hf,hlen,_⟩ := hr
        have hvalid : r.offset ≤ f.bytes.length ∧ r.size ≤ f.bytes.length ∧
            r.offset + r.size ≤ f.bytes.length := by omega
        simp only [replayRecord,hst,Bool.false_eq_true,if_false,applyRecord,isValidPut]
        rw [wp_bind,wp_bind,wp_bind]
        refine wp_fileSize h ?_
        simp only [hf,map_some,wp_pure,hvalid,decide_true,and_self,if_true]
        rw [← hst]
        exact ih { st with snapshot := st.snapshot.applyPut r } hst hQ
    | delete r =>
      cases e with
      | put k v payload => exact hr.elim
      | delete k v =>
        simp only [replayRecord,hst,Bool.false_eq_true,if_false,applyRecord]
        rw [wp_bind,wp_pure,wp_pure,← hst]
        exact ih { st with snapshot := st.snapshot.applyDelete r } hst hQ
    | importBegin r => cases e <;> exact hr.elim
    | importEnd r => cases e <;> exact hr.elim

theorem wp_replay {Q : Post τ SlotSnapshot} {files : List UInt32} {es : List Entry} (h : Safe S s g)
    (hd : OnDisk s.fs path m identity) (hstate : IndexState (s.fs.file path (.index m.activeIndex)) recs)
    (hlog : LogOf s.fs path files recs es)
    (hQ : ∀ fs', Mends s.fs fs' path → Clean (fs'.file path (.index m.activeIndex)) recs →
      Q (SlotSnapshot.ofRecords recs) t { s with fs := fs' } g) :
    wp S.contract Q E (SlotSnapshot.replay path m) t s g := by
  rw [SlotSnapshot.replay,wp_bind]
  refine wp_readAllRecords h hd hstate ?_
  intro fs' _ hm hclean
  rw [wp_bind]
  exact wp_replayRecords (h.mend hm) (hm.logOf hlog) {} rfl (hQ fs' hm hclean)

theorem wp_ensureFile {fileId : UInt32} (h : Safe S s g) (hd : OnDisk s.fs path m identity)
    (hmem : fileId ∈ m.activeData)
    (hQ : ∀ fs', Mends s.fs fs' path → (fs'.file path (.data fileId)).isSome = true → Q () t { s with fs := fs' } g) :
    wp S.contract Q E (ensureFile path (.data fileId)) t s g := by
  rw [ensureFile,wp_bind]
  refine wp_fileExist h ?_
  cases hf : s.fs.file path (.data fileId) with
  | some f =>
    exact hQ s.fs (Mends.refl _ _) (by simp [hf])
  | none =>
    simp only [isSome_none,Bool.false_eq_true,if_false]
    rw [wp_bind]
    refine wp_openFile_create h hd.present hf ?_
    exact hQ _ (mends_createFile hf hd.stored (Or.inr ⟨fileId,hmem,rfl⟩)) (by simp [Fs.file_createFile])

section Manifest

variable {cfg : SlotConfig} {S : Setting cfg.slotPath} {E : Post Slot Status}
  {t : Slot} {s : Shared} {g : List Entry} {m : SlotManifestData} {identity : Nat}

namespace Slot

variable {Q : Post Slot Unit}

theorem wp_ensureActiveFiles (h : Safe S s g) (hd : OnDisk s.fs cfg.slotPath m identity) (hindex : m.activeIndex ≠ [])
    (hQ : ∀ fs', Mends s.fs fs' cfg.slotPath →
      (∀ fileId ∈ m.activeData, (fs'.file cfg.slotPath (.data fileId)).isSome = true) → Q () t { s with fs := fs' } g) :
    wp S.contract Q E (ensureActiveFiles cfg m) t s g := by
  have hne : m.activeIndex.isEmpty = false := by simpa using hindex
  rw [ensureActiveFiles,wp_bind,ensureActiveIndex,hne]
  refine wp_ensureIndexFile h hd ?_
  intro fs₁ hm₁ _
  -- the data files made so far exist
  let I : List UInt32 → Slot → Shared → List Entry → Prop := fun done t' s' g' =>
    t' = t ∧ g' = g ∧ ∃ fs', s' = { s with fs := fs' } ∧ Mends s.fs fs' cfg.slotPath ∧
      ∀ fileId ∈ done, (fs'.file cfg.slotPath (.data fileId)).isSome = true
  have hloop : wp S.contract (fun _ => I m.activeData) E
      (forEach (fun fileId => ensureFile cfg.slotPath (.data fileId)) m.activeData) t
      { s with fs := fs₁ } g := by
    refine wp_forEach I ?_ ⟨rfl,rfl,fs₁,rfl,hm₁,by simp⟩
    rintro done fileId rest t' s' g' hsplit ⟨rfl,rfl,fs',rfl,hm,hdone⟩
    have hmem : fileId ∈ m.activeData := by simp [← hsplit]
    refine wp_ensureFile (h.mend hm) (hd.mend hm) hmem ?_
    intro fs'' hm' hsome
    refine ⟨rfl,rfl,fs'',rfl,hm.trans hm',?_⟩
    intro x hx
    rcases mem_append.mp hx with hx | hx
    · obtain ⟨f,hf⟩ := isSome_iff_exists.mp (hdone x hx)
      rw [hm'.data x f hf]
      rfl
    · rw [mem_singleton.mp hx]
      exact hsome
  refine wp_mono ?_ (fun _ _ _ _ h => h) hloop
  rintro _ t' s' g' ⟨rfl,rfl,fs',rfl,hm,hexist⟩
  exact hQ fs' hm hexist

/-- The manifest is replaced by one that stands for the same history. -/
theorem wp_storeManifest (h : Safe S s g)
    (hnew : DiskInv (s.fs.storeManifest cfg.slotPath m) cfg.slotPath g)
    (hQ : Q () t { s with fs := s.fs.storeManifest cfg.slotPath m } g) :
    wp S.contract Q E (storeManifest cfg m) t s g := by
  rw [storeManifest,wp_bind]
  refine wp_operation g ?_ hQ
  intro reach
  by_cases hreach : reach = 0
  · exact ⟨g,h.after,by simpa [cutOff,hreach] using h.disk⟩
  · exact ⟨g,h.after,by simpa [cutOff,hreach] using hnew⟩

theorem withHome_activeIndex : (withHome cfg m).activeIndex = m.activeIndex := by
  unfold withHome
  split_ifs <;> rfl

theorem withHome_activeData : (withHome cfg m).activeData = m.activeData := by
  unfold withHome
  split_ifs <;> rfl

theorem withHome_home : (withHome cfg m).homeSlotPath = [] → cfg.slotPath = [] := by
  unfold withHome
  split_ifs with h
  · exact id
  · exact fun hnil => absurd (by simp [hnil]) h

/-- A manifest that knows its home is persisted as it is. -/
theorem withHome_eq (h : m.homeSlotPath = [] → cfg.slotPath = []) : withHome cfg m = m := by
  unfold withHome
  split_ifs with hempty
  · have hnil : m.homeSlotPath = [] := by simpa using hempty
    rw [h hnil,← hnil]
  · rfl

theorem normalManifest_withHome (h : NormalManifest m) : NormalManifest (withHome cfg m) := by
  unfold withHome
  split_ifs
  · exact ⟨h.normal,h.txnId,h.activeIndex,h.activeData,h.obsolete⟩
  · exact h

def cached (t : Slot) (m : SlotManifestData) (identity : Nat) : Slot :=
  if t.runtime.initialized then
    { t with runtime := { t.runtime with manifest := m, manifestIdentity := identity } }
  else t

theorem wp_persistManifest (h : Safe S s g) (hindex : m.activeIndex ≠ [])
    (hnew : DiskInv (s.fs.storeManifest cfg.slotPath (withHome cfg m)) cfg.slotPath g)
    (hQ : ∀ fs', Mends (s.fs.storeManifest cfg.slotPath (withHome cfg m)) fs' cfg.slotPath →
      (∀ fileId ∈ m.activeData, (fs'.file cfg.slotPath (.data fileId)).isSome = true) →
      Q () (cached t (withHome cfg m) s.fs.nextInode) { s with fs := fs' } g) :
    wp S.contract Q E (persistManifest cfg m) t s g := by
  rw [persistManifest,wp_bind]
  refine wp_storeManifest h hnew ?_
  have hsafe : Safe S { s with fs := s.fs.storeManifest cfg.slotPath (withHome cfg m) } g := ⟨hnew,h.after⟩
  rw [wp_bind]
  refine wp_ensureActiveFiles hsafe onDisk_storeManifest (by rwa [withHome_activeIndex]) ?_
  intro fs' hm hexist
  rw [withHome_activeData] at hexist
  rw [wp_bind,wp_getState]
  split_ifs with hinit
  · rw [cacheManifest,wp_bind,wp_modifyState,wp_bind]
    refine wp_getFileIdentity (hsafe.mend hm) (hm.stored.trans (Fs.stored_storeManifest _ _ _)) ?_
    rw [wp_modifyState]
    simpa [cached,hinit] using hQ fs' hm hexist
  · rw [wp_pure]
    simpa [cached,hinit] using hQ fs' hm hexist

/-- A manifest in no operation is persisted; it knows its home. -/
theorem wp_persistNormal (h : Safe S s g) (hdisk : DiskNormal (s.fs.storeManifest cfg.slotPath m) cfg.slotPath m g)
    (hQ : ∀ fs', Mends (s.fs.storeManifest cfg.slotPath m) fs' cfg.slotPath → OnDisk fs' cfg.slotPath m s.fs.nextInode →
      (∀ fileId ∈ m.activeData, (fs'.file cfg.slotPath (.data fileId)).isSome = true) →
      Q () (cached t m s.fs.nextInode) { s with fs := fs' } g) :
    wp S.contract Q E (persistManifest cfg m) t s g := by
  have hhome : withHome cfg m = m := withHome_eq hdisk.home
  have hnew : DiskInv (s.fs.storeManifest cfg.slotPath m) cfg.slotPath g :=
    Or.inr ⟨_,_,Fs.stored_storeManifest _ _ _,Or.inl hdisk⟩
  refine wp_persistManifest h hdisk.manifest.activeIndex (by rwa [hhome]) ?_
  rw [hhome]
  exact fun fs' hm hexist => hQ fs' hm (onDisk_storeManifest.mend hm) hexist

/-- Files that are not active have been removed. -/
structure Sweeps (path : Bytes) (m : SlotManifestData) (fs fs' : Fs) : Prop where
  stored : (fs'.dir path).stored = (fs.dir path).stored
  present : (fs'.dir path).present = (fs.dir path).present
  kept : ∀ name, (name = .index m.activeIndex ∨ ∃ fileId ∈ m.activeData, name = .data fileId) →
    fs'.file path name = fs.file path name

theorem Sweeps.refl (path : Bytes) (m : SlotManifestData) (fs : Fs) : Sweeps path m fs fs :=
  ⟨rfl,rfl,fun _ _ => rfl⟩

theorem Sweeps.trans {fs fs' fs'' : Fs} (h : Sweeps path m fs fs') (h' : Sweeps path m fs' fs'') :
    Sweeps path m fs fs'' :=
  ⟨h'.stored.trans h.stored,h'.present.trans h.present,fun name hname => (h'.kept name hname).trans (h.kept name hname)⟩

variable {fs fs' : Fs}

theorem Sweeps.diskNormal {es : List Entry} (h : Sweeps path m fs fs') (hdisk : DiskNormal fs path m es) :
    DiskNormal fs' path m es := by
  obtain ⟨recs,hstate,hlog⟩ := hdisk.log
  refine ⟨hdisk.manifest,hdisk.home,recs,by rwa [h.kept _ (Or.inl rfl)], hlog.mono (fun _ hf => hf) ?_⟩
  intro fileId hmem f hf
  exact ⟨f,(h.kept _ (Or.inr ⟨fileId,hmem,rfl⟩)).trans hf,prefix_refl _⟩

theorem Sweeps.safe {fs' : Fs} (h : Sweeps cfg.slotPath m s.fs fs') (hsafe : Safe S s g)
    (hstored : (s.fs.dir cfg.slotPath).stored = some ⟨m,identity⟩) (hdisk : DiskNormal s.fs cfg.slotPath m g) :
    Safe S { s with fs := fs' } g :=
  ⟨Or.inr ⟨m,identity,h.stored.trans hstored,Or.inl (h.diskNormal hdisk)⟩,hsafe.after⟩

theorem wp_deleteFileIfExists {Q : Post Slot Bool} {name : FileName} (h : Safe S s g)
    (hactive : ¬ (name = .index m.activeIndex ∨ ∃ fileId ∈ m.activeData, name = .data fileId))
    (hQ : ∀ deleted fs', Sweeps cfg.slotPath m s.fs fs' → Q deleted t { s with fs := fs' } g) :
    wp S.contract Q E (deleteFileIfExists cfg name) t s g := by
  rw [deleteFileIfExists,wp_bind]
  refine wp_atomic h (fun _ => rfl) (hQ _ (s.fs.removeFile cfg.slotPath name) ⟨by simp,by simp,?_⟩)
  intro name' hname'
  rw [Fs.file_removeFile,if_neg]
  rintro ⟨_,rfl⟩
  exact hactive hname'

theorem wp_deleteDataFiles {Q : Post Slot Bool} {fileIds : List UInt32} {deleted : Bool} (h : Safe S s g)
    (hstored : (s.fs.dir cfg.slotPath).stored = some ⟨m,identity⟩) (hdisk : DiskNormal s.fs cfg.slotPath m g)
    (hactive : ∀ fileId ∈ fileIds, fileId ∉ m.activeData)
    (hQ : ∀ deleted fs', Sweeps cfg.slotPath m s.fs fs' → Q deleted t { s with fs := fs' } g) :
    wp S.contract Q E (deleteDataFiles cfg fileIds deleted) t s g := by
  induction fileIds generalizing s deleted with
  | nil => exact hQ deleted s.fs (Sweeps.refl _ _ _)
  | cons fileId fileIds ih =>
    rw [deleteDataFiles,wp_bind]
    refine wp_deleteFileIfExists h (m := m) ?_ ?_
    · rintro (hindex | ⟨fileId',hmem,hname⟩)
      · cases hindex
      · cases hname
        exact hactive fileId mem_cons_self hmem
    · intro deleted' fs' hsweep
      refine ih (hsweep.safe h hstored hdisk) (hsweep.stored.trans hstored) (hsweep.diskNormal hdisk)
        (fun x hx => hactive x (mem_cons_of_mem _ hx)) ?_
      exact fun deleted'' fs'' hsweep' => hQ deleted'' fs'' (hsweep.trans hsweep')

/-- The slot is in no operation and has no old files. -/
structure Recovered (path : Bytes) (fs : Fs) (m : SlotManifestData) (identity : Nat)
    (es : List Entry) : Prop where
  present : (fs.dir path).present = true
  stored : (fs.dir path).stored = some ⟨m,identity⟩
  gcPending : m.gcPending = false
  disk : DiskNormal fs path m es
  dataExist : ∀ fileId ∈ m.activeData, (fs.file path (.data fileId)).isSome = true

def cleared (m : SlotManifestData) : SlotManifestData :=
  { m with gcPending := false, obsoleteIndex := [], obsoleteData := [] }

theorem normalManifest_cleared (h : NormalManifest m) : NormalManifest (cleared m) :=
  ⟨h.normal,h.txnId,h.activeIndex,h.activeData,fun hgc => by cases hgc⟩

variable {Q : Post Slot SlotManifestData}

theorem wp_continueGc (h : Safe S s g) (hstored : (s.fs.dir cfg.slotPath).stored = some ⟨m,identity⟩)
    (hdisk : DiskNormal s.fs cfg.slotPath m g) (hgc : m.gcPending = true)
    (hQ : ∀ fs' identity', Recovered cfg.slotPath fs' (cleared m) identity' g →
      Q (cleared m) (cached t (cleared m) identity') { s with fs := fs' } g) :
    wp S.contract Q E (continueGc cfg m) t s g := by
  obtain ⟨hdata,hindex⟩ := hdisk.manifest.obsolete hgc
  -- what is left to do once the old files are gone
  have hpersist : ∀ fs₁, Sweeps cfg.slotPath m s.fs fs₁ →
      wp S.contract Q E (do persistManifest cfg (cleared m); return cleared m) t { s with fs := fs₁ } g := by
    intro fs₁ hsweep
    have hdisk' : DiskNormal (fs₁.storeManifest cfg.slotPath (cleared m)) cfg.slotPath (cleared m) g :=
      (hsweep.diskNormal hdisk).congr (normalManifest_cleared hdisk.manifest) hdisk.home rfl
        (fun _ hf => hf) fun name => Fs.file_storeManifest _ _ _ _ _
    rw [wp_bind]
    refine wp_persistNormal (hsweep.safe h hstored hdisk) hdisk' ?_
    exact fun fs' hm hd hexist => hQ fs' _ ⟨hd.present,hd.stored,rfl,hm.diskNormal hdisk',hexist⟩
  rw [continueGc,wp_bind]
  refine wp_deleteDataFiles h hstored hdisk hdata ?_
  intro deleted fs₁ hsweep
  have hafterIndex : ∀ deleted' fs₂, Sweeps cfg.slotPath m s.fs fs₂ → wp S.contract Q E
        (if deleted || deleted' || m.gcPending then do
          persistManifest cfg (cleared m)
          return cleared m
        else return m) t { s with fs := fs₂ } g := by
    intro deleted' fs₂ hsweep₂
    simp only [hgc,Bool.or_true,if_true]
    exact hpersist fs₂ hsweep₂
  rw [wp_bind,deleteIndexIfExists]
  split_ifs
  · exact hafterIndex false fs₁ hsweep
  · refine wp_deleteFileIfExists (hsweep.safe h hstored hdisk) (m := m) ?_ ?_
    · rintro (hname | ⟨fileId,_,hname⟩)
      · exact hindex (FileName.index.inj hname)
      · cases hname
    · exact fun deleted' fs₂ hsweep' => hafterIndex deleted' fs₂ (hsweep.trans hsweep')

theorem wp_dataFilesExist {Q : Post Slot Bool} {fileIds : List UInt32} (h : Safe S s g)
    (hexist : ∀ fileId ∈ fileIds, (s.fs.file cfg.slotPath (.data fileId)).isSome = true) (hQ : Q true t s g) :
    wp S.contract Q E (dataFilesExist cfg fileIds) t s g := by
  induction fileIds with
  | nil => exact hQ
  | cons fileId fileIds ih =>
    rw [dataFilesExist,wp_bind]
    refine wp_fileExist h ?_
    rw [hexist fileId mem_cons_self,if_pos rfl]
    exact ih fun x hx => hexist x (mem_cons_of_mem _ hx)

theorem wp_pendingArtifactsReady {Q : Post Slot Bool} (h : Safe S s g)
    (hdisk : DiskCommitting s.fs cfg.slotPath m g) (hQ : Q true t s g) :
    wp S.contract Q E (pendingArtifactsReady cfg m) t s g := by
  obtain ⟨recs,hindexed,_⟩ := hdisk.log
  have hlong := hindexed
  obtain ⟨_,inode,tail,hf,_⟩ := hindexed
  rw [hf] at hlong
  have hindex : m.pendingIndex.isEmpty = false := by simpa using hdisk.manifest.pendingIndex
  have hdata : m.pendingData.isEmpty = false := by simpa using hdisk.manifest.pendingData
  rw [pendingArtifactsReady,hindex,hdata]
  simp only [Bool.or_self,Bool.false_eq_true,if_false]
  rw [wp_bind]
  refine wp_fileExist h ?_
  simp only [hf,isSome_some,Bool.not_true,Bool.false_eq_true,if_false]
  rw [wp_bind]
  refine wp_fileSize h ?_
  have hsize : ¬ (header ++ (encodeAll encodeRecord recs ++ tail)).length < headerSize := not_lt.mpr hlong.length_le
  simp only [hf,map_some,elim_some,hsize,decide_false,Bool.false_eq_true,if_false]
  exact wp_dataFilesExist h hdisk.dataExist hQ

/-- The manifest that takes over what an announced compaction has built. -/
def switched (m : SlotManifestData) : SlotManifestData :=
  toNormal { m with
    obsoleteIndex := m.activeIndex, obsoleteData := m.activeData
    activeIndex := m.pendingIndex, activeData := m.pendingData, gcPending := true }

theorem normalManifest_switched (h : CommittingManifest m) : NormalManifest (switched m) :=
  ⟨rfl,rfl,h.pendingIndex,h.pendingData,fun _ => h.apart⟩

theorem diskNormal_switched {es : List Entry} (h : DiskCommitting fs path m es)
    (hfile : ∀ name, fs'.file path name = fs.file path name) : DiskNormal fs' path (switched m) es := by
  obtain ⟨recs,hindexed,hlog⟩ := h.log
  refine ⟨normalManifest_switched h.manifest,h.home,recs,.indexed ((hfile _).symm ▸ hindexed),?_⟩
  refine hlog.mono (fun _ hf => hf) ?_
  intro fileId _ f hf
  exact ⟨f,(hfile _).trans hf,prefix_refl _⟩

theorem wp_recoverCompactCommitting (h : Safe S s g) (hdisk : DiskCommitting s.fs cfg.slotPath m g)
    (hQ : ∀ fs' identity', OnDisk fs' cfg.slotPath (switched m) identity' → DiskNormal fs' cfg.slotPath (switched m) g →
      Q (switched m) (cached t (switched m) identity') { s with fs := fs' } g) :
    wp S.contract Q E (recoverCompactCommitting cfg m) t s g := by
  have hdisk' : DiskNormal (s.fs.storeManifest cfg.slotPath (switched m)) cfg.slotPath (switched m) g :=
    diskNormal_switched hdisk fun name => Fs.file_storeManifest _ _ _ _ _
  rw [recoverCompactCommitting,wp_bind]
  refine wp_pendingArtifactsReady h hdisk ?_
  rw [if_pos rfl,wp_bind]
  refine wp_persistNormal h hdisk' ?_
  exact fun fs' hm hd _ => hQ fs' _ hd (hm.diskNormal hdisk')

/-- A recovery needs no new numbers. -/
def KeepsIds (path : Bytes) (fs fs' : Fs) : Prop := IdsBounded fs path → IdsBounded fs' path

theorem KeepsIds.of_mends (h : Mends fs fs' path) : KeepsIds path fs fs' := by
  intro hbounded m identity hstored
  exact hbounded m identity (h.stored ▸ hstored)

/-- The manifest has been replaced by one that names no other files. -/
theorem KeepsIds.of_stored {m' : SlotManifestData} {identity' : Nat}
    (hstored : (fs.dir path).stored = some ⟨m,identity⟩) (hstored' : (fs'.dir path).stored = some ⟨m',identity'⟩)
    (hids : ∀ fileId ∈ m'.activeData ++ m'.pendingData ++ m'.obsoleteData,
      fileId ∈ m.activeData ++ m.pendingData ++ m.obsoleteData) : KeepsIds path fs fs' := by
  intro hbounded m₁ identity₁ hs fileId hmem
  obtain ⟨rfl,rfl⟩ : m₁ = m' ∧ identity₁ = identity' := by simpa using hs.symm.trans hstored'
  exact hbounded m identity hstored fileId (hids fileId hmem)

theorem cached_of_not_initialized (hinit : t.runtime.initialized = false) : cached t m identity = t := by
  simp [cached,hinit]

theorem ids_cleared : ∀ fileId ∈ (cleared m).activeData ++ (cleared m).pendingData ++
    (cleared m).obsoleteData, fileId ∈ m.activeData ++ m.pendingData ++ m.obsoleteData := by
  intro fileId hmem
  simp only [cleared,append_nil,mem_append] at hmem ⊢
  exact Or.inl hmem

theorem ids_switched : ∀ fileId ∈ (switched m).activeData ++ (switched m).pendingData ++
    (switched m).obsoleteData, fileId ∈ m.activeData ++ m.pendingData ++ m.obsoleteData := by
  intro fileId hmem
  simp only [switched,toNormal,append_nil,mem_append] at hmem ⊢
  tauto

/-- What holds when there is a manifest and the files it names as active exist. -/
def HasManifest (path : Bytes) (Q : Post Slot Unit) (t : Slot) (s : Shared) (g : List Entry) : Prop :=
  ∀ fs' m identity, KeepsIds path s.fs fs' → DiskInv fs' path g → (fs'.dir path).present = true →
    (fs'.dir path).stored = some ⟨m,identity⟩ →
    (∀ fileId ∈ m.activeData, (fs'.file path (.data fileId)).isSome = true) → Q () t { s with fs := fs' } g

/-- Recovery of a slot whose manifest is in no operation. -/
theorem wp_recoverGc (h : Safe S s g) (hinit : t.runtime.initialized = false)
    (hd : OnDisk s.fs cfg.slotPath m identity) (hdisk : DiskNormal s.fs cfg.slotPath m g)
    (hexist : m.gcPending = false → ∀ fileId ∈ m.activeData, (s.fs.file cfg.slotPath (.data fileId)).isSome = true)
    (hQ : ∀ m' fs' identity', KeepsIds cfg.slotPath s.fs fs' →
      Recovered cfg.slotPath fs' m' identity' g → Q m' t { s with fs := fs' } g) :
    wp S.contract Q E (if m.gcPending then continueGc cfg m else return m) t s g := by
  split_ifs with hgc
  · refine wp_continueGc h hd.stored hdisk hgc ?_
    intro fs' identity' hrecovered
    rw [cached_of_not_initialized hinit]
    exact hQ _ fs' identity' (.of_stored hd.stored hrecovered.stored ids_cleared) hrecovered
  · have hgc' : m.gcPending = false := by simpa using hgc
    exact hQ m s.fs identity (.of_mends (Mends.refl _ _)) ⟨hd.present,hd.stored,hgc',hdisk,hexist hgc'⟩

theorem wp_recoverManifestIfNeeded (h : Safe S s g) (hinit : t.runtime.initialized = false)
    (hd : OnDisk s.fs cfg.slotPath m identity)
    (hexist : ∀ fileId ∈ m.activeData, (s.fs.file cfg.slotPath (.data fileId)).isSome = true)
    (hQ : ∀ m' fs' identity', KeepsIds cfg.slotPath s.fs fs' →
      Recovered cfg.slotPath fs' m' identity' g → Q m' t { s with fs := fs' } g) :
    wp S.contract Q E (recoverManifestIfNeeded cfg m) t s g := by
  rw [recoverManifestIfNeeded,wp_bind,recoverOperation]
  rcases h.disk with ⟨⟨hnone,_⟩,_⟩ | ⟨m₁,identity₁,hstored₁,hdisk⟩
  · cases hnone.symm.trans hd.stored
  obtain ⟨rfl,rfl⟩ : m₁ = m ∧ identity₁ = identity := by simpa [hstored₁] using hd.stored
  rcases hdisk with hnormal | hcommitting
  · have hstate := hnormal.manifest.state
    simp only [hstate,reduceCtorEq,false_and,if_false,hnormal.manifest.isTransfer,Bool.false_eq_true]
    exact wp_recoverGc h hinit hd hnormal (fun _ => hexist) hQ
  · have hm := hcommitting.manifest
    rw [if_pos ⟨hm.state,hm.opType,hm.opPhase⟩]
    refine wp_recoverCompactCommitting h hcommitting ?_
    intro fs₁ identity' hd' hdisk'
    have hids : KeepsIds cfg.slotPath s.fs fs₁ := .of_stored hstored₁ hd'.stored ids_switched
    rw [cached_of_not_initialized hinit]
    refine wp_recoverGc (S := S) ⟨?_,h.after⟩ hinit hd' hdisk' ?_ ?_
    · exact Or.inr ⟨_,_,hd'.stored,Or.inl hdisk'⟩
    · exact fun hgc => by cases hgc
    · exact fun m' fs' identity' hr => hQ m' fs' identity' (hr ∘ hids)

theorem wp_loadManifest (h : Safe S s g) (hstored : (s.fs.dir cfg.slotPath).stored = some ⟨m,identity⟩)
    (hQ : Q m t s g) : wp S.contract Q E (loadManifest cfg) t s g := by
  have hexec : exec (.loadManifest cfg.slotPath) s = (.ok m, s) := by
    simp [exec,hstored,h.disk.validate hstored,Except.map]
  rw [loadManifest,wp_bind]
  refine wp_atomic h (fun _ => rfl) ?_
  rw [hexec]
  exact hQ

theorem wp_loadManifest_none (h : Safe S s g) (hstored : (s.fs.dir cfg.slotPath).stored = none)
    (hnone : ∀ e : Status, e.code = .notFound → E e t s g) :
    wp S.contract Q E (loadManifest cfg) t s g := by
  have hexec : exec (.loadManifest cfg.slotPath) s = (.error ⟨.notFound,"Manifest not found"⟩, s) := by
    simp [exec,hstored]
  rw [loadManifest,wp_bind]
  refine wp_atomic h (fun _ => rfl) ?_
  rw [hexec]
  exact hnone _ rfl

private theorem keys_eq_nil {files : AList fun _ : FileName => File}
    (h : ∀ name, files.lookup name = none) : files.keys = [] := by
  rw [eq_nil_iff_forall_not_mem]
  intro name hmem
  exact AList.lookup_eq_none.mp (h name) (AList.mem_keys.mp hmem)

theorem wp_buildBootstrapManifestFromDisk (h : Safe S s g) (hunused : Unused s.fs cfg.slotPath)
    (hQ : Q bootstrap t s g) :
    wp S.contract Q E (buildBootstrapManifestFromDisk cfg) t s g := by
  have hkeys : (s.fs.dir cfg.slotPath).files.keys = [] := keys_eq_nil hunused.2
  rw [buildBootstrapManifestFromDisk,wp_bind,globIndex,wp_bind]
  refine wp_atomic h (fun _ => rfl) ?_
  simp only [exec,hkeys,filterMap_nil,wp_ofExcept_ok]
  rw [wp_bind,bestBootstrapIndex,wp_pure,wp_bind]
  refine wp_atomic h (fun _ => rfl) ?_
  simp only [exec,hkeys,filterMap_nil]
  exact hQ

theorem ensureActiveFiles_withHome : ensureActiveFiles cfg (withHome cfg m) = ensureActiveFiles cfg m := by
  simp only [ensureActiveFiles,withHome_activeIndex,withHome_activeData]

theorem normalManifest_bootstrap : NormalManifest bootstrap := ⟨rfl,rfl,by decide,by decide,fun h => by cases h⟩

theorem wp_persistBootstrap {Q : Post Slot Unit} (h : Safe S s g) (hinit : t.runtime.initialized = false)
    (hunused : Unused s.fs cfg.slotPath) (hlog : g = []) (hQ : HasManifest cfg.slotPath Q t s g) :
    wp S.contract Q E (do
      persistManifest cfg bootstrap
      ensureActiveFiles cfg bootstrap) t s g := by
  let first := withHome cfg bootstrap
  have hdisk : DiskNormal (s.fs.storeManifest cfg.slotPath first) cfg.slotPath first g := by
    refine ⟨normalManifest_withHome normalManifest_bootstrap,withHome_home,[],?_,?_⟩
    · rw [Fs.file_storeManifest,hunused.2]
      exact .absent
    · rw [hlog]
      exact .nil
  have hnew : DiskInv (s.fs.storeManifest cfg.slotPath first) cfg.slotPath g :=
    Or.inr ⟨_,_,Fs.stored_storeManifest _ _ _,Or.inl hdisk⟩
  have hids : ∀ fileId ∈ first.activeData ++ first.pendingData ++ first.obsoleteData, fileId < lastFileId := by
    have heq : first.activeData ++ first.pendingData ++ first.obsoleteData = [1] := by
      simp only [first,withHome]
      split_ifs <;> rfl
    rw [heq]
    intro fileId hmem
    rw [mem_singleton.mp hmem,UInt32.lt_iff_toNat_lt]
    simp [lastFileId]
  rw [wp_bind]
  refine wp_persistManifest h normalManifest_bootstrap.activeIndex hnew ?_
  intro fs₁ hm₁ _
  have hsafe : Safe S { s with fs := fs₁ } g := ⟨hm₁.diskInv hnew,h.after⟩
  have hd₁ := onDisk_storeManifest.mend hm₁
  rw [cached_of_not_initialized hinit,← ensureActiveFiles_withHome]
  refine wp_ensureActiveFiles hsafe hd₁ hdisk.manifest.activeIndex ?_
  intro fs' hm hexist
  have hd := hd₁.mend hm
  refine hQ fs' _ _ ?_ (hm.diskInv hsafe.disk) hd.present hd.stored hexist
  intro _ m identity hstored
  obtain ⟨rfl,_⟩ : m = first ∧ identity = _ := by simpa using hstored.symm.trans hd.stored
  exact hids

theorem wp_bootstrapManifestIfNeed {Q : Post Slot Unit} (h : Safe S s g) (hinit : t.runtime.initialized = false)
    (hQ : HasManifest cfg.slotPath Q t s g) :
    wp S.contract Q E (bootstrapManifestIfNeed cfg) t s g := by
  rw [bootstrapManifestIfNeed,wp_bind]
  refine wp_createDir h ?_
  intro fs₁ hm₁ hpresent₁
  have hsafe := h.mend hm₁
  rw [wp_bind,wp_attempt]
  rcases hsafe.disk with ⟨hunused,hlog⟩ | ⟨m,identity,hstored,hdisk⟩
  · refine wp_loadManifest_none hsafe hunused.1 ?_
    intro e he
    simp only [he,if_true]
    rw [wp_bind]
    refine wp_buildBootstrapManifestFromDisk hsafe hunused ?_
    refine wp_persistBootstrap hsafe hinit hunused hlog ?_
    exact fun fs' m identity hr => hQ fs' m identity (hr ∘ KeepsIds.of_mends hm₁)
  · have hindex : m.activeIndex ≠ [] := by
      rcases hdisk with hnormal | hcommitting
      · exact hnormal.manifest.activeIndex
      · exact hcommitting.manifest.activeIndex
    refine wp_loadManifest hsafe hstored ?_
    refine wp_ensureActiveFiles hsafe ⟨hpresent₁,hstored⟩ hindex ?_
    intro fs' hm hexist
    exact hQ fs' m identity (.of_mends (hm₁.trans hm)) (hm.diskInv hsafe.disk)
      (hm.present hpresent₁) (hm.stored.trans hstored) hexist

end Slot

end Manifest

end Datasystem.SlotClient
