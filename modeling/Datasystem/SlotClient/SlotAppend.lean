import Datasystem.SlotClient.SlotCache

/-!
# Appending to a slot

A record that is cut off is not read, so the history gains the entry when the last byte of its record is
written.
-/

namespace Datasystem.SlotClient

open RecordLog SlotIndexCodec Act List SlotSnapshot SlotWriter Option Fs

/-- A snapshot shows what a history amounts to. -/
structure Shows (fs : Fs) (path : Bytes) (files : List UInt32) (snapshot : SlotSnapshot)
    (c : Content) : Prop where
  puts : ∀ k v, Rel (fun r p => Represents fs path files (.put r) (.put k v p))
    (snapshot.findVersion k v) (c.puts k v)
  deletedUpTo : ∀ k, snapshot.deletedUpTo k = c.deletedUpTo k

variable {fs fs' fs'' : Fs} {path : Bytes} {files : List UInt32} {snapshot : SlotSnapshot}
  {c : Content} {slot slot' slot'' : Slot} {m : SlotManifestData} {identity : Nat}
  {recs recs' : List SlotRecord} {es es' es'' : List Entry}

theorem Shows.empty : Shows fs path files {} Content.empty := ⟨fun _ _ => .none,fun _ => rfl⟩

theorem Shows.apply (h : Shows fs path files snapshot c) {r : SlotRecord} {e : Entry}
    (hr : Represents fs path files r e) :
    Shows fs path files (snapshot.applyUnchecked r) (c.apply e) := by
  cases r with
  | put r =>
    cases e with
    | delete k v => exact hr.elim
    | put key version payload =>
      have hr' := hr
      obtain ⟨rfl,rfl,_⟩ := hr
      refine ⟨?_,h.deletedUpTo⟩
      intro k v
      simp only [applyUnchecked,findVersion_applyPut,Content.apply]
      split_ifs with hkv
      · obtain ⟨rfl,rfl⟩ := hkv
        exact .some hr'
      · exact h.puts k v
  | delete r =>
    cases e with
    | put k v payload => exact hr.elim
    | delete key version =>
      obtain ⟨rfl,rfl,_⟩ := hr
      refine ⟨h.puts,?_⟩
      intro k
      simp only [applyUnchecked,deletedUpTo_applyDelete,Content.apply]
      split_ifs with hk
      · rw [h.deletedUpTo,hk]
      · exact h.deletedUpTo k
  | importBegin r => cases e <;> exact hr.elim
  | importEnd r => cases e <;> exact hr.elim

theorem Shows.ofRecords (hlog : LogOf fs path files recs es) :
    Shows fs path files (ofRecords recs) (Content.of es) := by
  suffices hfold : ∀ {snapshot : SlotSnapshot} {c : Content}, Shows fs path files snapshot c →
      Shows fs path files (recs.foldl applyUnchecked snapshot) (es.foldl Content.apply c) from hfold Shows.empty
  induction hlog with
  | nil => exact fun h => h
  | cons hr _ ih => exact fun h => ih (h.apply hr)

def Found (fs : Fs) (path : Bytes) (value : SlotSnapshotValue) (payload : Bytes) : Prop :=
  ∃ f, fs.file path (.data value.fileId) = some f ∧
    value.offset + value.size ≤ f.bytes.length ∧ slice f.bytes value.offset value.size = payload

theorem found_valueOf {r : SlotPutRecord} {k : Bytes} {v : UInt64} {p : Bytes}
    (h : Represents fs path files (.put r) (.put k v p)) :
    Found fs path (valueOf k r) p := by
  obtain ⟨_,_,_,_,hholds⟩ := h
  exact hholds

/-- The answer of a search: the payload or that there is none. -/
structure Answer (find : Option Bytes) (r : Except Status Bytes) : Prop where
  found : ∀ p, find = some p → r = .ok p
  missing : find = none → ∃ e, r = .error e ∧ e.code = .notFoundInL2Cache

/-- The value that a search finds stands for the payload it should find. -/
structure Locates (fs : Fs) (path : Bytes) (find : Option Bytes)
    (r : Except Status SlotSnapshotValue) : Prop where
  found : ∀ p, find = some p → ∃ value, r = .ok value ∧ Found fs path value p
  missing : find = none → ∃ e, r = .error e ∧ e.code = .notFoundInL2Cache

theorem locates_some {p : Bytes} {value : SlotSnapshotValue} (h : Found fs path value p) :
    Locates fs path (some p) (.ok value) := by
  refine ⟨?_,fun hnone => by cases hnone⟩
  rintro _ ⟨⟩
  exact ⟨value,rfl,h⟩

theorem locates_none {e : Status} (h : e.code = .notFoundInL2Cache) : Locates fs path none (.error e) :=
  ⟨fun _ hsome => (by cases hsome),fun _ => ⟨e,rfl,h⟩⟩

theorem Shows.findExact (h : Shows fs path files snapshot c) (k : Bytes) (v : UInt64) :
    Locates fs path (c.visible k v) (snapshot.findExact k v) := by
  rcases snapshot.findExact_eq k v with ⟨r,hfind,hdeleted,heq⟩ | ⟨hnone,e,heq,hcode⟩
  · have hrel := h.puts k v
    rw [hfind] at hrel
    cases hput : c.puts k v with
    | none =>
      rw [hput] at hrel
      cases hrel
    | some p =>
      rw [hput] at hrel
      have hvisible : c.visible k v = some p := by
        rw [Content.visible_eq_some,← h.deletedUpTo]
        exact ⟨hput,hdeleted⟩
      rw [hvisible,heq]
      cases hrel with
      | some hr => exact locates_some (found_valueOf hr)
  · have hvisible : c.visible k v = none := by
      rw [eq_none_iff_forall_ne_some]
      intro p hp
      rw [Content.visible_eq_some,← h.deletedUpTo] at hp
      have hrel := h.puts k v
      rw [hp.1] at hrel
      cases hfind : snapshot.findVersion k v with
      | none =>
        rw [hfind] at hrel
        cases hrel
      | some r =>
        obtain ⟨w,hw,hle⟩ := hnone r hfind
        exact absurd (hp.2 w hw) (not_lt.mpr hle)
    rw [hvisible,heq]
    exact locates_none hcode

/-- The version that a search without a version finds: the largest one above the given version and
above the deleted ones. -/
def Content.IsLatest (c : Content) (k : Bytes) (minVersion v : UInt64) (p : Bytes) : Prop :=
  c.puts k v = some p ∧ minVersion < v ∧ (c.deletedUpTo k).getD 0 < v ∧
    ∀ v' p', c.puts k v' = some p' → minVersion < v' → (c.deletedUpTo k).getD 0 < v' → v' ≤ v

theorem Content.IsLatest.unique {k : Bytes} {minVersion v v' : UInt64} {p p' : Bytes}
    (h : c.IsLatest k minVersion v p) (h' : c.IsLatest k minVersion v' p') : v = v' ∧ p = p' := by
  have hv : v = v' := le_antisymm (h'.2.2.2 v p h.1 h.2.1 h.2.2.1) (h.2.2.2 v' p' h'.1 h'.2.1 h'.2.2.1)
  subst hv
  exact ⟨rfl,some.inj (h.1.symm.trans h'.1)⟩

noncomputable def Content.latest (c : Content) (k : Bytes) (minVersion : UInt64) : Option Bytes :=
  open Classical in
  if h : ∃ v p, c.IsLatest k minVersion v p then some h.choose_spec.choose else none

theorem Content.latest_eq_some {k : Bytes} {minVersion v : UInt64} {p : Bytes}
    (h : c.IsLatest k minVersion v p) : c.latest k minVersion = some p := by
  have hex : ∃ v p, c.IsLatest k minVersion v p := ⟨v,p,h⟩
  rw [Content.latest,dif_pos hex]
  exact congrArg some (hex.choose_spec.choose_spec.unique h).2

theorem Content.latest_eq_none {k : Bytes} {minVersion : UInt64}
    (h : ∀ v p, ¬ c.IsLatest k minVersion v p) : c.latest k minVersion = none := by
  rw [Content.latest,dif_neg]
  rintro ⟨v,p,hlatest⟩
  exact h v p hlatest

theorem Shows.findLatest (h : Shows fs path files snapshot c) (k : Bytes) (minVersion : UInt64) :
    Locates fs path (c.latest k minVersion) (snapshot.findLatest k minVersion) := by
  -- a put of the history is found in the snapshot
  have hfound : ∀ v p, c.puts k v = some p → ∃ r, snapshot.findVersion k v = some r := by
    intro v p hp
    have hrel := h.puts k v
    rw [hp] at hrel
    cases hfind : snapshot.findVersion k v with
    | none =>
      rw [hfind] at hrel
      cases hrel
    | some r => exact ⟨r,rfl⟩
  cases snapshot.findLatest_eq k minVersion with
  | inl hlatest =>
    obtain ⟨r,hfind,hmin,hdeleted,heq,hmax⟩ := hlatest
    have hrel := h.puts k r.version
    rw [hfind] at hrel
    cases hput : c.puts k r.version with
    | none =>
      rw [hput] at hrel
      cases hrel
    | some p =>
      rw [hput] at hrel
      rw [h.deletedUpTo] at hdeleted hmax
      have hlatest : c.IsLatest k minVersion r.version p := by
        refine ⟨hput,hmin,hdeleted,?_⟩
        intro v' p' hp' hmin' hdeleted'
        obtain ⟨r',hr'⟩ := hfound v' p' hp'
        by_contra hlt
        rcases hmax v' r' hr' (not_le.mp hlt) with hle | hle
        · exact absurd hmin' (not_lt.mpr hle)
        · exact absurd hdeleted' (not_lt.mpr hle)
      rw [Content.latest_eq_some hlatest,heq]
      cases hrel with
      | some hr => exact locates_some (found_valueOf hr)
  | inr hnone =>
    obtain ⟨hnone,e,heq,hcode⟩ := hnone
    have hlatest : ∀ v p, ¬ c.IsLatest k minVersion v p := by
      rintro v p ⟨hp,hmin,hdeleted,_⟩
      obtain ⟨r,hr⟩ := hfound v p hp
      rw [← h.deletedUpTo] at hdeleted
      rcases hnone v r hr with hle | hle
      · exact absurd hmin (not_lt.mpr hle)
      · exact absurd hdeleted (not_lt.mpr hle)
    rw [Content.latest_eq_none hlatest,heq]
    exact locates_none hcode

/-- The active data files have grown. -/
def Extends (path : Bytes) (m : SlotManifestData) (fs fs' : Fs) : Prop :=
  ∀ fileId ∈ m.activeData, ∀ f, fs.file path (.data fileId) = some f →
    ∃ f', fs'.file path (.data fileId) = some f' ∧ f.bytes <+: f'.bytes

theorem Extends.logOf (h : Extends path m fs fs') (hlog : LogOf fs path m.activeData recs es) :
    LogOf fs' path m.activeData recs es := hlog.mono (fun _ hf => hf) h

section Calls

variable {cfg : SlotConfig} {S : Setting cfg.slotPath}
  {E : Post Slot Status} {t : Slot} {s : Shared} {g : List Entry} {e : Entry}

variable {f : File}

theorem Clean.append {r : SlotRecord} (h : Clean (some f) recs) (hr : Encodable r) :
    Clean (some ⟨f.inode,f.bytes ++ encodeRecord r⟩) (recs ++ [r]) := by
  obtain ⟨hrecs,inode,hf⟩ := h
  refine ⟨?_,inode,?_⟩
  · intro x hx
    rcases mem_append.mp hx with hx | hx
    · exact hrecs x hx
    · rw [mem_singleton.mp hx]
      exact hr
  · rw [some.inj hf]
    simp [encodeAll]

theorem Clean.cut {r : SlotRecord} {reach : Nat} (h : Clean (some f) recs) (hr : Encodable r)
    (hreach : reach < (encodeRecord r).length) :
    Indexed (some ⟨f.inode,f.bytes ++ (encodeRecord r).take reach⟩) recs := by
  obtain ⟨hrecs,inode,hf⟩ := h
  refine ⟨hrecs,inode,(encodeRecord r).take reach,?_,recordFraming.torn_of_cut hr (List.take_prefix _ _) ?_⟩
  · rw [some.inj hf]
    simp
  · intro heq
    have hlen := congrArg List.length heq
    rw [length_take] at hlen
    omega

theorem extends_setIndex : Extends path m fs (fs.setFile path (.index m.activeIndex) f) := by
  intro fileId _ f' hf'
  exact ⟨f',by rw [file_setFile,if_neg (by simp),hf'],prefix_refl _⟩

theorem Fits.append {r : SlotRecord} (h : Fits path fs t m identity recs es)
    (hf : fs.file path (.index m.activeIndex) = some f) (hr : Encodable r)
    (hrep : Represents fs path m.activeData r e) :
    Fits path (fs.setFile path (.index m.activeIndex) ⟨f.inode,f.bytes ++ encodeRecord r⟩) { t with
        writer := { t.writer with activeIndexSize := f.bytes.length + (encodeRecord r).length }
        runtime := { t.runtime with snapshot := t.runtime.snapshot.applyUnchecked r } }
      m identity (recs ++ [r]) (es ++ [e]) := by
  have hclean := h.settled.index
  rw [hf] at hclean
  have hext : Extends path m fs (fs.setFile path (.index m.activeIndex) ⟨f.inode,f.bytes ++ encodeRecord r⟩) :=
    extends_setIndex
  have hdata : ∀ fileId, (fs.setFile path (.index m.activeIndex)
      ⟨f.inode,f.bytes ++ encodeRecord r⟩).file path (.data fileId) = fs.file path (.data fileId) := by
    intro fileId
    rw [file_setFile,if_neg (by simp)]
  refine { h with settled := ?_, log := ?_, snapshot := ?_, writer := ⟨?_,h.writer.data.congr (hdata _),h.writer.last⟩ }
  · refine { h.settled with present := ?_, stored := ?_, index := ?_, dataExist := ?_ }
    · simpa using h.settled.present
    · simpa using h.settled.stored
    · rw [file_setFile,if_pos ⟨rfl,rfl⟩]
      exact hclean.append hr
    · intro fileId hmem
      rw [hdata]
      exact h.settled.dataExist fileId hmem
  · have hone : LogOf fs path m.activeData [r] [e] := .cons hrep .nil
    exact rel_append (hext.logOf h.log) (hext.logOf hone)
  · simp [ofRecords,h.snapshot]
  · obtain ⟨f',hf',hfd,_⟩ := h.writer.index
    obtain rfl : f = f' := by simpa [hf] using hf'
    refine ⟨⟨f.inode,f.bytes ++ encodeRecord r⟩,?_,hfd,by simp⟩
    rw [file_setFile,if_pos ⟨rfl,rfl⟩]

variable {Q : Post Slot Unit}

theorem diskInv_of_settled {fs' : Fs} (h : Fits path fs t m identity recs es)
    (hstored : (fs'.dir path).stored = (fs.dir path).stored)
    (hindex : Indexed (fs'.file path (.index m.activeIndex)) recs')
    (hlog : LogOf fs' path m.activeData recs' es') : DiskInv fs' path es' :=
  Or.inr ⟨m,identity,hstored.trans h.settled.stored,
    Or.inl ⟨h.settled.manifest,h.home,recs',.indexed hindex,hlog⟩⟩

namespace Slot

/-- A record is appended to the index, the snapshot and the history. -/
theorem wp_appendRecord {r : SlotRecord} {buffered : Nat}
    {apply : SlotSnapshot → SlotSnapshot}
    (h : Fits cfg.slotPath s.fs t m identity recs g)
    (hrep : Represents s.fs cfg.slotPath m.activeData r e)
    (happly : ∀ snapshot, apply snapshot = snapshot.applyUnchecked r) (hsame : S.after g)
    (hmore : S.after (g ++ [e]))
    (hQ : ∀ fs' t', Fits cfg.slotPath fs' t' m identity (recs ++ [r]) (g ++ [e]) →
      Q () t' { s with fs := fs' } (g ++ [e]))
    (hE : ∀ e', E e' t s g) :
    wp S.contract Q E
      (appendRecord cfg (encodeRecord r) buffered apply) t s g := by
  rw [appendRecord,wp_bind,appendIndexPayload,wp_bind,wp_getState]
  have hr : Encodable r := (LogOf.encodable (.cons hrep .nil)) r mem_cons_self
  obtain ⟨f,hf,hfd,hsize⟩ := h.writer.index
  have hclean := h.settled.index
  rw [hf] at hclean
  have hwrite : ∀ b', s.fs.write ⟨cfg.slotPath,.index m.activeIndex,f.inode⟩ b' f.bytes.length =
      s.fs.setFile cfg.slotPath (.index m.activeIndex) ⟨f.inode,f.bytes ++ b'⟩ := by
    intro b'
    rw [write_eq hf,overwrite_end]
  have hne : (encodeRecord r).isEmpty = false := by
    simpa using recordFraming.encode_ne_nil hr
  have hdone := h.append hf hr hrep
  simp only [hfd,appendEncodedRecordsAt,hne,Bool.false_eq_true,if_false]
  rw [wp_bind,wp_bind,hsize]
  refine wp_writeFile (g ++ [e]) ?_ ?_ fun _ => hE
  · intro reach
    rw [hwrite]
    by_cases hreach : reach < (encodeRecord r).length
    · refine ⟨g,hsame,diskInv_of_settled h (by simp) ?_ (extends_setIndex.logOf h.log)⟩
      rw [file_setFile,if_pos ⟨rfl,rfl⟩]
      exact hclean.cut hr hreach
    · refine ⟨(g ++ [e]),hmore,?_⟩
      rw [take_of_length_le (not_lt.mp hreach)]
      exact hdone.diskInv
  · intro _
    rw [hwrite,wp_pure,wp_modify,wp_bind,recordOperation,wp_modify,wp_bind,wp_modifyState]
    refine wp_flushRuntimeLocked ⟨hdone.diskInv,hmore⟩ ?_
    intro w hw
    have hflushed := hdone.flushed (w := w) ⟨hw.dataFd,hw.indexFd,hw.fileId,hw.dataSize,hw.indexSize⟩
    refine hQ _ _ ?_
    rw [happly]
    exact hflushed

end Slot

/-- The payload stands in an active data file. -/
def Placed (fs : Fs) (path : Bytes) (m : SlotManifestData) (payload : Bytes) (place : UInt32 × Nat) : Prop :=
  place.1 ∈ m.activeData ∧ place.2 + payload.length ≤ ssizeMax ∧
    ∃ f, fs.file path (.data place.1) = some f ∧ place.2 + payload.length ≤ f.bytes.length ∧
      slice f.bytes place.2 payload.length = payload

variable {fileId : UInt32}

theorem Settled.setData (h : Settled fs path m identity recs) :
    Settled (fs.setFile path (.data fileId) f) path m identity recs := by
  refine ⟨by simpa using h.present,by simpa using h.stored,h.manifest,h.gcPending,?_,?_⟩
  · rw [file_setFile,if_neg (by simp)]
    exact h.index
  · intro fileId' hmem
    rw [file_setFile]
    split_ifs
    · rfl
    · exact h.dataExist fileId' hmem

theorem extends_appendData (hf : fs.file path (.data fileId) = some f) (b : Bytes) :
    Extends path m fs (fs.setFile path (.data fileId) ⟨f.inode,f.bytes ++ b⟩) := by
  intro fileId' _ f' hf'
  rw [file_setFile]
  split_ifs with hsame
  · obtain rfl : fileId' = fileId := FileName.data.inj hsame.2
    obtain rfl : f = f' := by simpa [hf] using hf'
    exact ⟨_,rfl,prefix_append _ _⟩
  · exact ⟨f',hf',prefix_refl _⟩

theorem Fits.appendData (h : Fits path fs t m identity recs es) {b : Bytes}
    (hf : fs.file path (.data t.writer.activeDataFileId) = some f) :
    Fits path (fs.setFile path (.data t.writer.activeDataFileId) ⟨f.inode,f.bytes ++ b⟩)
      { t with writer := { t.writer with activeDataSize := f.bytes.length + b.length } } m identity recs es := by
  have hext := extends_appendData (m := m) hf b
  refine { h with settled := h.settled.setData, log := hext.logOf h.log, writer := ⟨?_,?_,h.writer.last⟩ }
  · exact h.writer.index.congr (by rw [file_setFile,if_neg (by simp)])
  · obtain ⟨f',hf',hfd,_⟩ := h.writer.data
    obtain rfl : f = f' := by simpa [hf] using hf'
    refine ⟨⟨f.inode,f.bytes ++ b⟩,?_,hfd,by simp⟩
    rw [file_setFile,if_pos ⟨rfl,rfl⟩]

namespace Slot

variable {payload : Bytes}

theorem wp_appendPayloadToActiveFileLocked {Q : Post Slot Nat}
    (h : Fits cfg.slotPath s.fs t m identity recs g) (hsame : S.after g)
    (hQ : ∀ fs' t' offset, Fits cfg.slotPath fs' t' m identity recs g →
      Placed fs' cfg.slotPath m payload (t.writer.activeDataFileId, offset) → Q offset t' { s with fs := fs' } g)
    (hE : ∀ e, E e t s g) :
    wp S.contract Q E (appendPayloadToActiveFileLocked payload) t s g := by
  obtain ⟨f,hf,hfd,hsize⟩ := h.writer.data
  have hmem := mem_of_getLast? h.writer.last
  unfold appendPayloadToActiveFileLocked
  split_ifs with hempty
  · -- nothing is written
    obtain rfl : payload = [] := by simpa using hempty
    exact hQ s.fs t 0 h ⟨hmem,by simp,f,hf,by simp,by simp [slice]⟩
  · have hwrite : ∀ b', s.fs.write ⟨cfg.slotPath,.data t.writer.activeDataFileId,f.inode⟩ b'
        f.bytes.length = s.fs.setFile cfg.slotPath (.data t.writer.activeDataFileId) ⟨f.inode,f.bytes ++ b'⟩ := by
      intro b'
      rw [write_eq hf,overwrite_end]
    rw [appendData,wp_bind,wp_getState]
    simp only [hfd,hsize]
    rw [wp_bind]
    refine wp_writeFile g ?_ ?_ fun _ => hE
    · intro reach
      rw [hwrite]
      exact ⟨g,hsame,(h.appendData hf).diskInv⟩
    · intro hlen
      rw [hwrite,wp_bind,wp_modify,wp_pure]
      have hfits := h.appendData (b := payload) hf
      rw [← hsize] at hfits
      refine hQ _ _ _ hfits ⟨hmem,hlen,⟨f.inode,f.bytes ++ payload⟩,?_,by simp,?_⟩
      · rw [file_setFile,if_pos ⟨rfl,rfl⟩]
      · simp [slice]

theorem wp_persistActiveData {activeData : List UInt32}
    (h : Fits cfg.slotPath s.fs t m identity recs g) (hsame : S.after g)
    (hmore : ∀ fileId ∈ m.activeData, fileId ∈ activeData)
    (hQ : ∀ fs' identity', Settled fs' cfg.slotPath { m with activeData := activeData } identity' recs →
      (∀ fileId f, s.fs.file cfg.slotPath (.data fileId) = some f → fs'.file cfg.slotPath (.data fileId) = some f) →
      fs'.file cfg.slotPath (.index m.activeIndex) = s.fs.file cfg.slotPath (.index m.activeIndex) →
      Q () { t with runtime := { t.runtime with
        manifest := { m with activeData := activeData }, manifestIdentity := identity' } } { s with fs := fs' } g) :
    wp S.contract Q E (persistActiveData cfg activeData) t s g := by
  let m' : SlotManifestData := { m with activeData := activeData }
  have hne : activeData ≠ [] := by
    obtain ⟨fileId,hmem⟩ := exists_mem_of_ne_nil _ h.settled.manifest.activeData
    exact ne_nil_of_mem (hmore fileId hmem)
  have hgc : m.gcPending = false := h.settled.gcPending
  have hmanifest : NormalManifest m' := by
    refine ⟨h.settled.manifest.normal,h.settled.manifest.txnId,h.settled.manifest.activeIndex,hne,
      ?_⟩
    intro hgc'
    rw [show m'.gcPending = m.gcPending from rfl,hgc] at hgc'
    cases hgc'
  have hfile : ∀ name, (s.fs.storeManifest cfg.slotPath m').file cfg.slotPath name =
      s.fs.file cfg.slotPath name := fun name => file_storeManifest _ _ _ _ _
  have hdisk : DiskNormal (s.fs.storeManifest cfg.slotPath m') cfg.slotPath m' g := by
    refine ⟨hmanifest,h.home,recs,?_,?_⟩
    · rw [hfile]
      exact .indexed h.settled.index.indexed
    · exact h.log.mono hmore fun fileId _ f hf => ⟨f,(hfile _).trans hf,prefix_refl _⟩
  rw [persistActiveData,wp_bind,wp_modifyState,wp_bind,wp_getState]
  simp only [h.manifest]
  refine wp_persistNormal (S := S) ⟨h.diskInv,hsame⟩ hdisk ?_
  intro fs' hm hd hexist
  have hclean : Clean ((s.fs.storeManifest cfg.slotPath m').file cfg.slotPath (.index m.activeIndex)) recs := by
    rw [hfile]
    exact h.settled.index
  have hindex := (hm.clean m.activeIndex recs hclean).trans (hfile _)
  have hs : Settled fs' cfg.slotPath m' s.fs.nextInode recs := by
    refine ⟨hd.present,hd.stored,hmanifest,hgc,?_,hexist⟩
    rw [hindex]
    exact h.settled.index
  have hpost := hQ fs' s.fs.nextInode hs (fun fileId f hf => hm.data fileId f ((hfile _).trans hf)) hindex
  simpa [cached,h.initialized] using hpost

theorem fits_of_settled {t' : Slot} {identity' : Nat} (h : Fits cfg.slotPath fs t m identity recs es)
    {activeData : List UInt32} (hs : Settled fs' cfg.slotPath { m with activeData := activeData } identity' recs)
    (hlog : LogOf fs' cfg.slotPath activeData recs es)
    (hruntime : t'.runtime = { t.runtime with
      manifest := { m with activeData := activeData }, manifestIdentity := identity' })
    (hwriter : WriterFits fs' cfg.slotPath { m with activeData := activeData } t'.writer) :
    Fits cfg.slotPath fs' t' { m with activeData := activeData } identity' recs es := by
  refine ⟨hs,h.home,hlog,?_,?_,?_,?_,hwriter⟩
  · rw [hruntime]
    exact h.initialized
  · rw [hruntime]
  · rw [hruntime]
  · rw [hruntime]
    exact h.snapshot

/-- The active data file for a payload: the last one or, when it is full, a new one. -/
theorem wp_rotateWritableDataFileLocked {Q : Post Slot UInt32}
    (h : Fits cfg.slotPath s.fs t m identity recs g) (hsame : S.after g)
    (hfits : Q t.writer.activeDataFileId t s g)
    (hnew : ∀ fs' t' m' identity', Fits cfg.slotPath fs' t' m' identity' recs g →
      Q t'.writer.activeDataFileId t' { s with fs := fs' } g) :
    wp S.contract Q E (rotateWritableDataFileLocked cfg payload.length) t s g := by
  have hne : m.activeData.isEmpty = false := by simpa using h.settled.manifest.activeData
  have hinit := h.initialized
  rw [rotateWritableDataFileLocked,wp_bind,wp_getState,wp_bind]
  simp only [checkFailReturnStatus,hinit,if_true,wp_ofExcept_ok]
  rw [wp_bind,bootstrapActiveData,wp_bind,wp_getState,h.manifest,hne]
  simp only [Bool.false_eq_true,if_false]
  rw [wp_pure,wp_bind,wp_getState]
  split_ifs
  · exact hfits
  · rw [wp_bind]
    refine wp_flushRuntimeLocked ⟨h.diskInv,hsame⟩ ?_
    intro w hw
    have hflushed := h.flushed hw
    rw [wp_bind,allocateNextDataFileIdLocked,wp_bind,wp_getState,wp_bind]
    simp only [checkFailReturnStatus,hinit,if_true,wp_ofExcept_ok,wp_pure,h.manifest]
    rw [wp_bind]
    refine wp_persistActiveData hflushed hsame (fun fileId hmem => mem_append_left _ hmem) ?_
    intro fs' identity' hs hdata hindex
    have hlog : LogOf fs' cfg.slotPath (m.activeData ++ [nextActiveFileId m.activeData]) recs g :=
      h.log.mono (fun _ hmem => mem_append_left _ hmem) fun fileId _ f hf => ⟨f,hdata fileId f hf,prefix_refl _⟩
    have hdisk : DiskInv fs' cfg.slotPath g :=
      Or.inr ⟨_,_,hs.stored,Or.inl ⟨hs.manifest,h.home,recs,.indexed hs.index.indexed,hlog⟩⟩
    rw [wp_bind,wp_getState,wp_bind]
    refine wp_init (S := S) ⟨hdisk,hsame⟩ hs ?_
    intro w' hw'
    have hid : nextActiveFileId m.activeData = w'.activeDataFileId := by simpa using hw'.last
    have hfits' : Fits cfg.slotPath fs' { t with
        runtime := { t.runtime with
          manifest := { m with activeData := m.activeData ++ [nextActiveFileId m.activeData] }
          manifestIdentity := identity' }
        writer := w' } _ identity' recs g := fits_of_settled h hs hlog rfl hw'
    rw [wp_pure,hid]
    rw [hid] at hfits'
    exact hnew fs' _ _ _ hfits'

variable {l : List UInt32}

theorem le_foldl_max {a x : UInt32} (h : x ∈ l ∨ x ≤ a) : x ≤ l.foldl max a := by
  induction l generalizing a with
  | nil =>
    rcases h with h | h
    · cases h
    · exact h
  | cons y l ih =>
    rw [foldl_cons]
    refine ih ?_
    rcases h with h | h
    · rcases mem_cons.mp h with rfl | h
      · exact Or.inr (le_max_right _ _)
      · exact Or.inl h
    · exact Or.inr (h.trans (le_max_left _ _))

theorem lt_add_one_of_le {x y : UInt32} (h : x ≤ y) (hy : y < lastFileId) : x < y + 1 := by
  rw [UInt32.lt_iff_toNat_lt] at hy ⊢
  rw [UInt32.le_iff_toNat_le] at h
  have hlast : lastFileId.toNat = 4294967295 := rfl
  rw [UInt32.toNat_add,UInt32.toNat_one,Nat.mod_eq_of_lt (by omega)]
  omega

theorem foldl_max_lt {a b : UInt32} (h : ∀ x ∈ l, x < b) (ha : a < b) : l.foldl max a < b := by
  induction l generalizing a with
  | nil => exact ha
  | cons y l ih => exact ih (fun x hx => h x (mem_cons_of_mem _ hx)) (max_lt ha (h y mem_cons_self))

theorem nextActiveFileId_not_mem (h : ∀ x ∈ l, x < lastFileId) : nextActiveFileId l ∉ l := by
  intro hmem
  exact lt_irrefl _ (lt_add_one_of_le (le_foldl_max (Or.inl hmem)) (foldl_max_lt h (by decide)))

/-- The new file stands before the last one, which the writer has open. -/
private theorem getLast?_insertBeforeLast (h : l ≠ []) (x : UInt32) :
    (l.dropLast ++ x :: l.getLast?.toList).getLast? = l.getLast? := by
  rw [getLast?_eq_some_getLast h]
  simp

private theorem mem_insertBeforeLast {x y : UInt32} (hy : y ∈ l) : y ∈ l.dropLast ++ x :: l.getLast?.toList := by
  have hne := ne_nil_of_mem hy
  rw [getLast?_eq_some_getLast hne]
  rw [← dropLast_append_getLast hne] at hy
  simp only [mem_append,toList_some,mem_cons,not_mem_nil,or_false] at hy ⊢
  tauto

theorem wp_allocateExclusiveDataFileLocked {Q : Post Slot UInt32}
    (h : Fits cfg.slotPath s.fs t m identity recs g) (hsame : S.after g)
    (hids : ∀ fileId ∈ m.activeData, fileId < lastFileId)
    (hQ : ∀ fileId fs' t' m' identity', Fits cfg.slotPath fs' t' m' identity' recs g →
      LogOf fs' cfg.slotPath m.activeData recs g → fileId ∉ m.activeData → fileId ∈ m'.activeData →
      (∀ x ∈ m.activeData, x ∈ m'.activeData) → m'.activeData.getLast? = m.activeData.getLast? →
      Q fileId t' { s with fs := fs' } g) :
    wp S.contract Q E (allocateExclusiveDataFileLocked cfg) t s g := by
  have hne : m.activeData.isEmpty = false := by simpa using h.settled.manifest.activeData
  have hinit := h.initialized
  rw [allocateExclusiveDataFileLocked,wp_bind,wp_getState,wp_bind]
  simp only [checkFailReturnStatus,hinit,h.manifest,hne,Bool.not_false,if_true,wp_ofExcept_ok]
  rw [wp_bind,wp_ofExcept_ok,wp_bind,allocateNextDataFileIdLocked,wp_bind,wp_getState,wp_bind]
  simp only [checkFailReturnStatus,hinit,if_true,wp_ofExcept_ok,wp_pure,h.manifest]
  rw [wp_bind]
  have hlast := getLast?_insertBeforeLast h.settled.manifest.activeData (nextActiveFileId m.activeData)
  refine wp_persistActiveData h hsame (fun fileId hmem => mem_insertBeforeLast hmem) ?_
  intro fs' identity' hs hdata hindex
  rw [wp_pure]
  have hwriter : WriterFits fs' cfg.slotPath { m with
        activeData := m.activeData.dropLast ++ nextActiveFileId m.activeData :: m.activeData.getLast?.toList }
      t.writer := by
    refine ⟨h.writer.index.congr hindex,?_,hlast.trans h.writer.last⟩
    obtain ⟨f,hf,hfd,hsize⟩ := h.writer.data
    exact ⟨f,hdata _ f hf,hfd,hsize⟩
  have hlog : ∀ {files}, (∀ fileId ∈ m.activeData, fileId ∈ files) → LogOf fs' cfg.slotPath files recs g :=
    fun hfiles => h.log.mono hfiles fun fileId _ f hf => ⟨f,hdata fileId f hf,prefix_refl _⟩
  exact hQ _ fs' _ _ identity' (fits_of_settled h hs (hlog fun _ hmem => mem_insertBeforeLast hmem) rfl hwriter)
    (hlog fun _ hmem => hmem) (nextActiveFileId_not_mem hids) (by simp) (fun _ hmem => mem_insertBeforeLast hmem) hlast

/-- A data file that no record refers to gets any content. -/
theorem fits_setUnreferenced {old : List UInt32} {f : File}
    (h : Fits path fs t m identity recs es) (hlog : LogOf fs path old recs es)
    (hold : ∀ x ∈ old, x ∈ m.activeData) (hnot : fileId ∉ old)
    (hlast : m.activeData.getLast? ≠ some fileId) :
    Fits path (fs.setFile path (.data fileId) f) t m identity recs es := by
  have hother : ∀ x, x ≠ fileId → (fs.setFile path (.data fileId) f).file path (.data x) = fs.file path (.data x) := by
    intro x hne
    rw [file_setFile,if_neg]
    exact fun hsame => hne (FileName.data.inj hsame.2)
  refine { h with settled := h.settled.setData, log := ?_, writer := ⟨?_,?_,h.writer.last⟩ }
  · refine hlog.mono hold ?_
    intro x hx f' hf'
    exact ⟨f',(hother x fun hsame => hnot (hsame ▸ hx)).trans hf',prefix_refl _⟩
  · exact h.writer.index.congr (by rw [file_setFile,if_neg (by simp)])
  · exact h.writer.data.congr (hother _ fun hsame => hlast (hsame ▸ h.writer.last))

theorem wp_writeExclusivePayloadLocked {old : List UInt32}
    (h : Fits cfg.slotPath s.fs t m identity recs g) (hsame : S.after g)
    (hlog : LogOf s.fs cfg.slotPath old recs g) (hold : ∀ x ∈ old, x ∈ m.activeData) (hnot : fileId ∉ old)
    (hmem : fileId ∈ m.activeData) (hlast : m.activeData.getLast? ≠ some fileId)
    (hQ : ∀ fs', Fits cfg.slotPath fs' t m identity recs g →
      Placed fs' cfg.slotPath m payload (fileId, 0) → Q () t { s with fs := fs' } g) (hE : ∀ e, E e t s g) :
    wp S.contract Q E (writeExclusivePayloadLocked cfg payload fileId) t s g := by
  obtain ⟨f,hf⟩ := isSome_iff_exists.mp (h.settled.dataExist fileId hmem)
  have hsafe : Safe S s g := ⟨h.diskInv,hsame⟩
  rw [writeExclusivePayloadLocked,wp_bind]
  refine wp_ensureFile hsafe ⟨h.settled.present,h.settled.stored⟩ hmem ?_
  intro fs' hm _
  obtain rfl := hm.settled m identity recs h.settled
  rw [wp_bind]
  refine wp_openFile_of_some hsafe hf ?_
  rw [wp_bind,writeStreamToFd]
  split_ifs with hempty
  · obtain rfl : payload = [] := by simpa using hempty
    rw [wp_pure]
    refine wp_fsyncFd hsafe ?_
    exact hQ s.fs h ⟨hmem,by simp,f,hf,by simp,by simp [slice]⟩
  · refine wp_writeFile g ?_ ?_ fun _ => hE
    · intro reach
      rw [write_eq hf]
      exact ⟨g,hsame,(fits_setUnreferenced h hlog hold hnot hlast).diskInv⟩
    · intro hlen
      rw [write_eq hf]
      have hfits := fits_setUnreferenced (f := ⟨f.inode,overwrite f.bytes 0 payload⟩) h hlog hold hnot hlast
      have hsafe' : Safe S { s with
          fs := s.fs.setFile cfg.slotPath (.data fileId) ⟨f.inode,overwrite f.bytes 0 payload⟩ } g :=
        ⟨hfits.diskInv,hsame⟩
      refine wp_fsyncFd hsafe' ?_
      refine hQ _ hfits ⟨hmem,hlen,⟨f.inode,overwrite f.bytes 0 payload⟩,?_,?_,?_⟩
      · rw [file_setFile,if_pos ⟨rfl,rfl⟩]
      · simp [overwrite]
      · simp [overwrite,slice]

/-- The payload of a save is written; the history does not know it yet. -/
theorem wp_placePayload {Q : Post Slot (UInt32 × Nat)}
    (h : Fits cfg.slotPath s.fs t m identity recs g) (hsame : S.after g)
    (hids : ∀ fileId ∈ m.activeData, fileId < lastFileId)
    (hQ : ∀ place fs' t' m' identity', Fits cfg.slotPath fs' t' m' identity' recs g →
      Placed fs' cfg.slotPath m' payload place → Q place t' { s with fs := fs' } g)
    (hE : ∀ e fs' t' m' identity', Fits cfg.slotPath fs' t' m' identity' recs g → E e t' { s with fs := fs' } g) :
    wp S.contract Q E (placePayload cfg payload) t s g := by
  unfold placePayload
  split_ifs with hlarge
  · -- a file of its own
    rw [wp_bind]
    refine wp_allocateExclusiveDataFileLocked h hsame hids ?_
    intro fileId fs₁ t₁ m₁ identity₁ hfits₁ hlog₁ hfresh hmem₁ hold hlast
    have hlast₁ : m₁.activeData.getLast? ≠ some fileId := by
      rw [hlast]
      exact fun hsome => hfresh (mem_of_getLast? hsome)
    rw [wp_bind]
    refine wp_writeExclusivePayloadLocked hfits₁ hsame hlog₁ hold hfresh hmem₁ hlast₁ ?_ ?_
    · exact fun fs' hfits hplaced => hQ _ fs' t₁ m₁ identity₁ hfits hplaced
    · exact fun e => hE e fs₁ t₁ m₁ identity₁ hfits₁
  · -- the active file
    have happend : ∀ fs₁ t₁ m₁ identity₁, Fits cfg.slotPath fs₁ t₁ m₁ identity₁ recs g →
        wp S.contract Q E (do
          let offset ← appendPayloadToActiveFileLocked payload
          return (t₁.writer.activeDataFileId, offset)) t₁ { s with fs := fs₁ } g := by
      intro fs₁ t₁ m₁ identity₁ hfits₁
      rw [wp_bind]
      refine wp_appendPayloadToActiveFileLocked hfits₁ hsame ?_ ?_
      · exact fun fs' t' offset hfits hplaced => hQ _ fs' t' m₁ identity₁ hfits hplaced
      · exact fun e => hE e fs₁ t₁ m₁ identity₁ hfits₁
    rw [wp_bind]
    refine wp_rotateWritableDataFileLocked h hsame (happend s.fs t m identity h) ?_
    exact fun fs' t' m' identity' hfits => happend fs' t' m' identity' hfits

end Slot

end Calls

end Datasystem.SlotClient
