import Datasystem.Lib.Machine
import Datasystem.SlotClient.SlotAppend
import Datasystem.SlotClient.SlotCompactor

/-!
# Calls on a slot

A save and a delete append one entry or none; the searches answer from the history.
The mutex serializes the calls, so a call is one step. A compaction is executed operation by operation; calls
come in between whenever it does not hold the mutex. A crash leaves what the operations before it and a part of
the one in flight have written.
-/

namespace Datasystem.SlotClient

inductive SlotCall where
  | save (key : Bytes) (version : UInt64) (payload : Bytes) (writeMode : UInt8) (ttlSecond : UInt32)
  | delete (key : Bytes) (maxVerToDelete : UInt64) (deleteAllVersion : Bool)
  | get (key : Bytes) (version : UInt64)
  | getWithoutVersion (key : Bytes) (minVersion : UInt64)
  | repair
deriving DecidableEq, Repr

/-- The body of a call; only the searches return bytes. -/
def SlotCall.prog (cfg : SlotConfig) : SlotCall → Prog SlotOp SlotRes (Except Status Bytes)
  | .save key version payload writeMode ttlSecond =>
    (Slot.save cfg key version payload writeMode ttlSecond).bind fun r => .pure (r.map fun _ => [])
  | .delete key maxVerToDelete deleteAllVersion =>
    (Slot.delete cfg key maxVerToDelete deleteAllVersion).bind fun r => .pure (r.map fun _ => [])
  | .get key version => Slot.get cfg key version
  | .getWithoutVersion key minVersion => Slot.getWithoutVersion cfg key minVersion
  | .repair => (Slot.repair cfg).bind fun r => .pure (r.map fun _ => [])

structure SlotSystem where
  shared : Shared := {}
  /-- The rest of the running compaction. -/
  compaction : Option (Prog SlotOp SlotRes Slot.CompactOutcome) := none
  /-- The data files the running compaction has written. -/
  compactTargets : List UInt32 := []
  /-- The status of the last compaction that has ended. -/
  compacted : Option (Except Status Unit) := none

inductive SlotEvent where
  | call (c : SlotCall)
  | tick (ms : Nat)
  | compact
  | work
  | workFails (e : Status) (reach : Nat)
  | crash (reach : Nat)
  | crashIn (c : SlotCall) (performed reach : Nat)

namespace SlotSystem

variable (cfg : SlotConfig) (s : SlotSystem)

def callResult (c : SlotCall) : Except Status Bytes := ((c.prog cfg).run exec s.shared).1

def afterCall (c : SlotCall) : SlotSystem := { s with shared := ((c.prog cfg).run exec s.shared).2 }

/-- A new process on the files that are left. -/
def restart (shared : Shared) : SlotSystem := { shared := { fs := shared.fs, nowMs := shared.nowMs } }

/-- Go on with the compaction: after a turn of its loop comes the next one. -/
def resume : Prog SlotOp SlotRes Slot.CompactOutcome → SlotSystem
  | .pure (.finished r) => { s with compaction := none, compactTargets := [], compacted := some r }
  | .pure (.again ctx) => { s with compaction := some (Slot.compactTurn cfg ctx) }
  | p => { s with compaction := some p }

/-- The state after an operation of the compaction with the given result. -/
def afterWork (o : SlotOp) (shared : Shared) (rest : Prog SlotOp SlotRes Slot.CompactOutcome) : SlotSystem :=
  resume cfg
    { s with
      shared := shared
      compactTargets := s.compactTargets ++ (writtenData o).toList } rest

def cutOffIn {α : Type} (p : Prog SlotOp SlotRes α) (reach : Nat) (shared : Shared) : Shared :=
  match p with
  | .pure _ => shared
  | .op o _ => cutOff o reach shared

def step : SlotEvent → Option SlotSystem
  | .call c => if s.shared.locked then none else some (afterCall cfg s c)
  | .tick ms => some { s with shared := { s.shared with nowMs := s.shared.nowMs + ms } }
  | .compact =>
    match s.compaction with
    | some _ => none
    | none => some { s with compaction := some (Slot.compactBegin cfg) }
  | .work =>
    match s.compaction with
    | some (.op o k) => some (afterWork cfg s o (exec o s.shared).2 (k (exec o s.shared).1))
    | _ => none
  | .workFails e reach =>
    match s.compaction with
    | some (.op o k) => (failure e o).map fun r => afterWork cfg s o (cutOff o reach s.shared) (k r)
    | _ => none
  | .crash reach =>
    match s.compaction with
    | some p => some (restart (cutOffIn p reach s.shared))
    | none => some (restart s.shared)
  | .crashIn c performed reach =>
    if s.shared.locked then none
    else
      let at' := (c.prog cfg).advance exec performed s.shared
      some (restart (cutOffIn at'.1 reach at'.2))

def machine : Machine SlotSystem SlotEvent := ⟨{},step cfg⟩

end SlotSystem

open RecordLog SlotIndexCodec Act Slot
open Content (of)

variable {cfg : SlotConfig} {path : Bytes} {fs : Fs} {es : List Entry} {S : Setting cfg.slotPath}
  {E : Post Slot Status} {t : Slot} {s : Shared} {g : List Entry}

/-- The files stand for a history and the object agrees with them. -/
structure InOrder (path : Bytes) (slot : Slot) (fs : Fs) (es : List Entry) : Prop where
  disk : DiskInv fs path es
  cache : CacheOk path fs slot es

theorem Fits.inOrder {m : SlotManifestData} {identity : Nat} {recs : List SlotRecord}
    (h : Fits path fs t m identity recs es) : InOrder path t fs es :=
  ⟨h.diskInv,h.cacheOk⟩

namespace Slot

theorem wp_whenWritable {Q : Post Slot Unit} {body : SlotAct Slot Unit} (h : InOrder cfg.slotPath t s.fs g)
    (hsame : S.after g)
    (hbody : ∀ fs₁ t₁ m identity recs, KeepsIds cfg.slotPath s.fs fs₁ → Fits cfg.slotPath fs₁ t₁ m identity recs g →
      wp S.contract Q E body t₁ { s with fs := fs₁ } g) :
    wp S.contract Q E (do
      ensureRuntimeReadyLocked cfg
      let slot ← getState
      ofExcept (ensureWritable slot.runtime.manifest)
      body) t s g := by
  rw [wp_bind]
  refine wp_ensureRuntimeReadyLocked ⟨h.disk,hsame⟩ h.cache ?_
  intro fs₁ t₁ m identity recs hr hfits
  rw [wp_bind,wp_getState,wp_bind,hfits.manifest]
  simp only [ensureWritable,checkFailReturnStatus,hfits.settled.manifest.normal,if_true,wp_ofExcept_ok]
  exact hbody fs₁ t₁ m identity recs hr hfits

theorem wp_saveLocked {key payload : Bytes} {version : UInt64} {writeMode : UInt8}
    {ttlSecond : UInt32} (h : InOrder cfg.slotPath t s.fs g) (hkey : key.length < 2 ^ 32)
    (hids : IdsBounded s.fs cfg.slotPath) (hsame : S.after g) (hmore : S.after (g ++ [.put key version payload])) :
    wp S.contract
      (fun _ t' s' g' => InOrder cfg.slotPath t' s'.fs g' ∧ g' = g ++ [.put key version payload])
      (fun _ t' s' g' => InOrder cfg.slotPath t' s'.fs g' ∧ g' = g)
      (saveLocked cfg key version payload writeMode ttlSecond) t s g := by
  rw [saveLocked]
  refine wp_whenWritable h hsame ?_
  intro fs₁ t₁ m identity recs hr hfits
  have hids₁ : ∀ fileId ∈ m.activeData, fileId < lastFileId := fun fileId hmem =>
    hr hids m identity hfits.settled.stored fileId (by simp [hmem])
  rw [wp_bind]
  refine wp_placePayload hfits hsame hids₁ ?_ ?_
  · intro place fs' t' m' identity' hfits' hplaced
    rw [wp_bind,encodePut]
    by_cases hempty : key.isEmpty
    · simp only [hempty,checkFailReturnStatus,Bool.not_true,Bool.false_eq_true,if_false]
      exact ⟨hfits'.inOrder,rfl⟩
    · simp only [hempty,checkFailReturnStatus,Bool.not_false,if_true]
      refine wp_appendRecord (e := .put key version payload) hfits' ?_ (fun _ => rfl) hsame
        hmore ?_ fun _ => ⟨hfits'.inOrder,rfl⟩
      · obtain ⟨hmem,hlen,f,hf,hbound,hslice⟩ := hplaced
        have hrange : place.2 < 2 ^ 64 ∧ payload.length < 2 ^ 64 := by
          simp only [ssizeMax] at hlen
          omega
        exact ⟨rfl,rfl,hmem,⟨hkey,hrange⟩,f,hf,hbound,hslice⟩
      · intro fs'' t'' hfits''
        exact ⟨hfits''.inOrder,rfl⟩
  · intro e fs' t' m' identity' hfits'
    exact ⟨hfits'.inOrder,rfl⟩

def deletedVersion (maxVerToDelete : UInt64) (deleteAllVersion : Bool) : UInt64 :=
  if deleteAllVersion then UInt64.ofNat (2 ^ 64 - 1) else maxVerToDelete

theorem wp_deleteLocked {key : Bytes} {maxVerToDelete : UInt64} {deleteAllVersion : Bool}
    (h : InOrder cfg.slotPath t s.fs g) (hkey : key.length < 2 ^ 32) (hsame : S.after g)
    (hmore : S.after (g ++ [.delete key (deletedVersion maxVerToDelete deleteAllVersion)])) :
    wp S.contract
      (fun _ t' s' g' => InOrder cfg.slotPath t' s'.fs g' ∧
        g' = g ++ [.delete key (deletedVersion maxVerToDelete deleteAllVersion)])
      (fun _ t' s' g' => InOrder cfg.slotPath t' s'.fs g' ∧ g' = g)
      (deleteLocked cfg key maxVerToDelete deleteAllVersion) t s g := by
  rw [deleteLocked]
  refine wp_whenWritable h hsame ?_
  intro fs₁ t₁ m identity recs _ hfits
  rw [wp_bind,encodeDelete]
  by_cases hempty : key.isEmpty
  · simp only [hempty,checkFailReturnStatus,Bool.not_true,Bool.false_eq_true,if_false]
    exact ⟨hfits.inOrder,rfl⟩
  · simp only [hempty,checkFailReturnStatus,Bool.not_false,if_true]
    refine wp_appendRecord (e := .delete key (deletedVersion maxVerToDelete deleteAllVersion))
      hfits ⟨rfl,rfl,hkey⟩ (fun _ => rfl) hsame hmore ?_ fun _ => ⟨hfits.inOrder,rfl⟩
    intro fs' t' hfits'
    exact ⟨hfits'.inOrder,rfl⟩

def Finds (cfg : SlotConfig) (answer : Content → Option Bytes) (g : List Entry)
    (r : Except Status SlotSnapshotValue) (t' : Slot) (s' : Shared) (g' : List Entry) : Prop :=
  g' = g ∧ InOrder cfg.slotPath t' s'.fs g' ∧ Locates s'.fs cfg.slotPath (answer (of g)) r

/-- Look up a value in a cached state that agrees with the history. -/
theorem wp_findLocked {find : SlotSnapshot → Except Status SlotSnapshotValue}
    {answer : Content → Option Bytes} (h : InOrder cfg.slotPath t s.fs g) (hsame : S.after g)
    (hfind : ∀ {fs files snapshot c}, Shows fs cfg.slotPath files snapshot c →
      Locates fs cfg.slotPath (answer c) (find snapshot)) :
    wp S.contract (fun value => Finds cfg answer g (.ok value)) (fun e => Finds cfg answer g (.error e))
      (findLocked cfg find) t s g := by
  rw [findLocked,wp_bind]
  refine wp_ensureRuntimeReadyLocked ⟨h.disk,hsame⟩ h.cache ?_
  intro fs₁ t₁ m identity recs _ hfits
  have hlocates := hfind (Shows.ofRecords hfits.log)
  rw [wp_bind,wp_getState,hfits.snapshot,wp_ofExcept]
  cases hfound : find (SlotSnapshot.ofRecords recs) with
  | ok value => exact ⟨rfl,hfits.inOrder,hfound ▸ hlocates⟩
  | error e => exact ⟨rfl,hfits.inOrder,hfound ▸ hlocates⟩

theorem wp_readRecordData {Q : Except Status Bytes → Shared → List Entry → Prop}
    {value : SlotSnapshotValue} (h : Safe S s g)
    (hQ : ∀ r, (∀ p, Found s.fs cfg.slotPath value p → r = .ok p) → Q r s g) :
    ((readRecordData cfg value ()).bind fun r => .pure r.1).wp S.contract Q s g := by
  rw [Prog.wp_bind]
  suffices hread : wp S.contract
      (fun b (_ : Unit) s' g' => Q (.ok b) s' g') (fun e _ s' g' => Q (.error e) s' g')
      (readRecordData cfg value) () s g by
    refine Prog.wp_mono ?_ hread
    rintro ⟨r,_⟩ s' g' hr
    cases r <;> exact hr
  rw [readRecordData,wp_bind,openFile,wp_bind]
  cases hf : s.fs.file cfg.slotPath (.data value.fileId) with
  | none =>
    have hexec : exec (.openFile cfg.slotPath (.data value.fileId) false) s =
        (.error ⟨.ioError,"Open file failed"⟩, s) := by
      simp [exec,hf]
    refine wp_atomic h (fun _ => rfl) ?_
    rw [hexec]
    refine hQ _ ?_
    rintro p ⟨f,hf',_⟩
    cases hf.symm.trans hf'
  | some f =>
    have hexec : exec (.openFile cfg.slotPath (.data value.fileId) false) s =
        (.ok ⟨cfg.slotPath,.data value.fileId,f.inode⟩, s) := by
      simp [exec,hf]
    refine wp_atomic h (fun _ => rfl) ?_
    rw [hexec,wp_ofExcept_ok]
    split_ifs with hsize
    · refine hQ _ ?_
      rintro p ⟨f',hf',_,rfl⟩
      simp [slice,hsize]
    · have hread : (exec (.readFile ⟨cfg.slotPath,.data value.fileId,f.inode⟩ value.offset value.size) s).2 = s := by
        simp only [exec,Fs.behind_eq hf]
        split_ifs <;> rfl
      rw [readFile,wp_bind]
      refine wp_atomic h (fun _ => rfl) ?_
      rw [hread,wp_ofExcept]
      have hfound : ∀ p, Found s.fs cfg.slotPath value p →
          (exec (.readFile ⟨cfg.slotPath,.data value.fileId,f.inode⟩ value.offset value.size) s).1 = .ok p := by
        rintro p ⟨f',hf',hlen,rfl⟩
        obtain rfl : f = f' := by simpa [hf] using hf'
        simp [exec,Fs.behind_eq hf,hlen,slice]
      cases hr : (exec (.readFile ⟨cfg.slotPath,.data value.fileId,f.inode⟩ value.offset value.size) s).1 with
      | ok b => exact hQ _ fun p hp => hr.symm.trans (hfound p hp)
      | error e => exact hQ _ fun p hp => hr.symm.trans (hfound p hp)

/-- A call has left the slot in order. -/
structure CallEnds (path : Bytes) (s : Shared) (es : List Entry) : Prop extends InOrder path s.slot s.fs es where
  unlocked : s.locked = false

theorem wp_readValue {find : SlotSnapshot → Except Status SlotSnapshotValue}
    (answer : Content → Option Bytes) (h : InOrder cfg.slotPath s.slot s.fs g) (hsame : S.after g)
    (hfind : ∀ {fs files snapshot c}, Shows fs cfg.slotPath files snapshot c →
      Locates fs cfg.slotPath (answer c) (find snapshot)) :
    (readValue cfg find).wp S.contract
      (fun r s' g' => CallEnds cfg.slotPath s' g' ∧ g' = g ∧ Answer (answer (of g)) r) s g := by
  rw [readValue,Prog.wp_bind]
  refine wp_withLock ⟨h.disk,hsame⟩ ?_
  refine wp_mono ?_ ?_ (wp_findLocked (s := { s with locked := true }) h hsame hfind)
  · rintro value t' s' g' ⟨rfl,horder,hlocates⟩
    refine ⟨⟨horder.disk,hsame⟩,?_⟩
    refine wp_readRecordData (s := { s' with slot := t', locked := false }) ⟨horder.disk,hsame⟩ ?_
    intro r hr
    refine ⟨⟨horder,rfl⟩,rfl,?_,?_⟩
    · intro p hp
      obtain ⟨value',hvalue,hfound⟩ := hlocates.found p hp
      cases hvalue
      exact hr p hfound
    · intro hnone
      obtain ⟨e,he,_⟩ := hlocates.missing hnone
      cases he
  · rintro e t' s' g' ⟨rfl,horder,hlocates⟩
    refine ⟨⟨horder.disk,hsame⟩,⟨horder,rfl⟩,rfl,?_,?_⟩
    · intro p hp
      obtain ⟨value,hvalue,_⟩ := hlocates.found p hp
      cases hvalue
    · intro hnone
      obtain ⟨e',he',hcode⟩ := hlocates.missing hnone
      cases he'
      exact ⟨e,rfl,hcode⟩

end Slot

namespace SlotCall

def entry : SlotCall → Option Entry
  | .save key version payload _ _ => some (.put key version payload)
  | .delete key maxVerToDelete deleteAllVersion =>
    some (.delete key (deletedVersion maxVerToDelete deleteAllVersion))
  | _ => none

noncomputable def answer (c : Content) : SlotCall → Option (Option Bytes)
  | .get key version => some (c.visible key version)
  | .getWithoutVersion key minVersion => some (c.latest key minVersion)
  | _ => none

/-- The length of the key fits the length word of a record. -/
def KeyFits : SlotCall → Prop
  | .save key _ _ _ _ => key.length < 2 ^ 32
  | .delete key _ _ => key.length < 2 ^ 32
  | _ => True

/-- What a call returns and what it makes of the history: one that succeeds adds its entry, one that fails adds
nothing, and the searches answer from the history. -/
structure Returns (c : SlotCall) (es : List Entry) (r : Except Status Bytes) (es' : List Entry) : Prop where
  ok : ∀ b, r = .ok b → es' = es ++ c.entry.toList
  error : ∀ e, r = .error e → es' = es
  answers : ∀ find, c.answer (of es) = some find → Answer find r

theorem wp_write {c : SlotCall} {e : Entry} {body : SlotAct Slot Unit}
    (hprog : c.prog cfg = (withLock body).bind fun r => .pure (r.map fun _ => []))
    (hentry : c.entry = some e) (hanswer : c.answer (of g) = none)
    (h : InOrder cfg.slotPath s.slot s.fs g) (hsame : S.after g) (hmore : S.after (g ++ [e]))
    (hbody : wp S.contract (fun _ t' s' g' => InOrder cfg.slotPath t' s'.fs g' ∧ g' = g ++ [e])
      (fun _ t' s' g' => InOrder cfg.slotPath t' s'.fs g' ∧ g' = g) body s.slot { s with locked := true } g) :
    (c.prog cfg).wp S.contract (fun r s' g' => CallEnds cfg.slotPath s' g' ∧ c.Returns g r g') s g := by
  have hfind : ∀ find, c.answer (of g) = some find → ∀ {r}, Answer find r := by
    intro find h
    cases hanswer.symm.trans h
  rw [hprog,Prog.wp_bind]
  refine wp_withLock ⟨h.disk,hsame⟩ (wp_mono ?_ ?_ hbody)
  · rintro _ t' s' g' ⟨horder,rfl⟩
    refine ⟨⟨horder.disk,hmore⟩,⟨horder,rfl⟩,?_⟩
    exact ⟨fun _ _ => by simp [hentry],fun _ h => (by cases h),fun find h => hfind find h⟩
  · rintro e t' s' g' ⟨horder,rfl⟩
    refine ⟨⟨horder.disk,hsame⟩,⟨horder,rfl⟩,?_⟩
    exact ⟨fun _ h => (by cases h),fun _ _ => rfl,fun find h => hfind find h⟩

theorem wp_repair (h : InOrder cfg.slotPath s.slot s.fs g) (hsame : S.after g) :
    (prog cfg .repair).wp S.contract (fun r s' g' => CallEnds cfg.slotPath s' g' ∧ Returns .repair g r g') s g := by
  rw [prog,Prog.wp_bind,Slot.repair]
  refine wp_withLock ⟨h.disk,hsame⟩ ?_
  refine wp_repairLocked ⟨h.disk,hsame⟩ ?_
  intro fs' t' m identity recs _ hfits
  refine ⟨⟨hfits.diskInv,hsame⟩,⟨hfits.inOrder,rfl⟩,?_⟩
  exact ⟨fun _ _ => by simp [entry],fun _ h => (by cases h),fun _ h => (by cases h)⟩

/-- A call on a slot in order. -/
theorem wp_prog (c : SlotCall) (h : InOrder cfg.slotPath s.slot s.fs g) (hkey : c.KeyFits)
    (hids : IdsBounded s.fs cfg.slotPath) (hsame : S.after g)
    (hmore : ∀ e, c.entry = some e → S.after (g ++ [e])) :
    (c.prog cfg).wp S.contract (fun r s' g' => CallEnds cfg.slotPath s' g' ∧ c.Returns g r g') s g := by
  have hsearch : ∀ c : SlotCall, c.entry = none → ∀ {r : Except Status Bytes} {find : Option Bytes},
      c.answer (of g) = some find → Answer find r → c.Returns g r g := by
    intro c hentry r find hanswer hr
    refine ⟨fun _ _ => by simp [hentry],fun _ _ => rfl,?_⟩
    intro find' hfind'
    rw [hanswer] at hfind'
    exact Option.some.inj hfind' ▸ hr
  cases c with
  | save key version payload writeMode ttlSecond =>
    refine wp_write rfl rfl rfl h hsame (hmore _ rfl) ?_
    exact Slot.wp_saveLocked (s := { s with locked := true }) h hkey hids hsame (hmore _ rfl)
  | delete key maxVerToDelete deleteAllVersion =>
    refine wp_write rfl rfl rfl h hsame (hmore _ rfl) ?_
    exact wp_deleteLocked (s := { s with locked := true }) h hkey hsame (hmore _ rfl)
  | get key version =>
    refine Prog.wp_mono ?_ (wp_readValue (fun c => c.visible key version) h hsame fun h => h.findExact key version)
    rintro r s' g' ⟨hends,rfl,hr⟩
    exact ⟨hends,hsearch (.get key version) rfl rfl hr⟩
  | getWithoutVersion key minVersion =>
    refine Prog.wp_mono ?_ (wp_readValue (fun c => c.latest key minVersion) h hsame fun h =>
      h.findLatest key minVersion)
    rintro r s' g' ⟨hends,rfl,hr⟩
    exact ⟨hends,hsearch (.getWithoutVersion key minVersion) rfl rfl hr⟩
  | repair => exact wp_repair h hsame

end SlotCall

namespace SlotSystem

variable (cfg : SlotConfig)

/-- No compaction runs; the keys fit their length word and there is a larger number than those of the data files. -/
def Uncompacted (s : SlotSystem) : SlotEvent → Prop
  | .call c | .crashIn c _ _ => c.KeyFits ∧ IdsBounded s.shared.fs cfg.slotPath
  | .tick _ | .crash _ => True
  | _ => False

/-- What an event makes of the history; a call that is cut off may have added its entry. -/
def Records (s : SlotSystem) (es es' : List Entry) : SlotEvent → Prop
  | .call c => c.Returns es (callResult cfg s c) es'
  | .crashIn c _ _ => es' = es ∨ es' = es ++ c.entry.toList
  | _ => es' = es

/-- The run of the events, as long as they meet the condition, has a history that the files stand for. -/
def HasHistory : List SlotEvent → SlotSystem → List Entry → Prop
  | [], s, es => DiskInv s.shared.fs cfg.slotPath es
  | a :: events, s, es => DiskInv s.shared.fs cfg.slotPath es ∧ ∀ s', Uncompacted cfg s a → step cfg s a = some s' →
      ∃ es', Records cfg s es es' a ∧ HasHistory events s' es'

structure SlotInv (s : SlotSystem) (es : List Entry) : Prop extends CallEnds cfg.slotPath s.shared es where
  compaction : s.compaction = none

variable {cfg} {s s' : SlotSystem} {es : List Entry}

theorem slotInv_restart {shared : Shared} (h : DiskInv shared.fs cfg.slotPath es) : SlotInv cfg (restart shared) es :=
  ⟨⟨⟨h,.of_not_initialized rfl⟩,rfl⟩,rfl⟩

theorem SlotInv.wp_prog (h : SlotInv cfg s es) {c : SlotCall} (hkey : c.KeyFits)
    (hids : IdsBounded s.shared.fs cfg.slotPath) :
    (c.prog cfg).wp (⟨fun l => l = es ∨ l = es ++ c.entry.toList⟩ : Setting cfg.slotPath).contract
      (fun r s' g' => CallEnds cfg.slotPath s' g' ∧ c.Returns es r g') s.shared es :=
  c.wp_prog h.toInOrder hkey hids (Or.inl rfl) fun e he => Or.inr (by simp [he])

theorem SlotInv.step (h : SlotInv cfg s es) {a : SlotEvent} (ha : Uncompacted cfg s a)
    (hstep : SlotSystem.step cfg s a = some s') : ∃ es', Records cfg s es es' a ∧ SlotInv cfg s' es' := by
  cases a with
  | call c =>
    obtain ⟨es',hends,hreturns⟩ := Prog.wp_run (h.wp_prog ha.1 ha.2) (fun _ _ => ⟨rfl,rfl⟩) fun _ _ => ⟨rfl,rfl⟩
    simp only [SlotSystem.step,h.unlocked] at hstep
    cases hstep
    exact ⟨es',hreturns,hends,h.compaction⟩
  | tick ms =>
    cases hstep
    exact ⟨es,rfl,⟨⟨h.disk,h.cache⟩,h.unlocked⟩,h.compaction⟩
  | crash reach =>
    simp only [SlotSystem.step,h.compaction] at hstep
    cases hstep
    exact ⟨es,rfl,slotInv_restart h.disk⟩
  | crashIn c performed reach =>
    obtain ⟨es',hwp⟩ := Prog.wp_advance (h.wp_prog ha.1 ha.2) (fun _ _ => ⟨rfl,rfl⟩) (fun _ _ => ⟨rfl,rfl⟩) performed
    simp only [SlotSystem.step,h.unlocked] at hstep
    cases hstep
    generalize (c.prog cfg).advance exec performed s.shared = at' at hwp
    obtain ⟨rest,shared⟩ := at'
    cases rest with
    | pure r =>
      refine ⟨es',?_,slotInv_restart hwp.1.disk⟩
      cases r with
      | ok b => exact Or.inr (hwp.2.ok b rfl)
      | error e => exact Or.inl (hwp.2.error e rfl)
    | op o k =>
      -- what the operation in flight leaves behind, wherever it is cut off
      obtain ⟨es'',hlog,hdisk⟩ := (hwp shared es' ⟨rfl,rfl⟩).1 reach
      exact ⟨es'',hlog,slotInv_restart hdisk⟩
  | compact => exact ha.elim
  | work => exact ha.elim
  | workFails e reach => exact ha.elim

theorem SlotInv.hasHistory (h : SlotInv cfg s es) (events : List SlotEvent) : HasHistory cfg events s es := by
  induction events generalizing s es with
  | nil => exact h.disk
  | cons a events ih =>
    refine ⟨h.disk,fun s' ha hstep => ?_⟩
    obtain ⟨es',hrecords,hinv⟩ := h.step ha hstep
    exact ⟨es',hrecords,ih hinv⟩

/-- A process that ends before it has written its deletion. -/
def interruptedDelete : List SlotEvent :=
  [.call (.save [1] 1 [2] 0 0),.crashIn (.delete [1] 1 false) 2 0,.call (.get [1] 1)]

end SlotSystem

end Datasystem.SlotClient
