import Datasystem.Master.NotifyWorkerOp

/-!
# Recovery of metadata from workers

The result is as the reports ask for only if none of them is newer than the first one: the version of an entry
is never raised.
-/

namespace Datasystem.Master

open List OCNotifyWorkerManager OCMetadataManager Finmap

structure RecoveryAnswer where
  asyncWorkerOp : PersistOpAnswer := {}
  removeLocation : WriteAnswer := {}
  insertExpired : Status := .success
  serialized : Bool := true
  put : StoreAnswer := {}
deriving DecidableEq, Repr

namespace OCMetadataManager

def mergeRecoveredMeta (m : OCMetadataManager) (objectKey workerAddr : Bytes) (objectMeta : ObjectMetaPb) (entry : ObjectMeta)
    (a : WriteAnswer) : ObjectMeta × ObjectMetaStore :=
  let oldPrimaryAddress := entry.objectMeta.primaryAddress
  let locations := entry.locations.insert workerAddr .ack
  if !objectMeta.isRecovered || objectMeta.primaryAddress ≠ workerAddr then ({ entry with locations }, m.objectStore)
  else
    let objectMeta := { entry.objectMeta with primaryAddress := workerAddr }
    if oldPrimaryAddress = [] || oldPrimaryAddress = workerAddr then ({ entry with objectMeta, locations }, m.objectStore)
    else
      ({ entry with objectMeta, locations := locations.erase oldPrimaryAddress },
        (m.objectStore.removeObjectLocation objectKey oldPrimaryAddress a).2)

def persistRecoveredMeta (m : OCMetadataManager) (objectKey : Bytes) (entry : ObjectMeta) (writeMode : WriteMode)
    (a : RecoveryAnswer) : Status × OCMetadataManager :=
  let m := { m with metaTable := m.metaTable.insert objectKey entry }
  let rc := ObjectMetaStore.createSerializedStringForMeta a.serialized
  if !rc.isOk then (rc, m)
  else
    let (rc, store) := m.objectStore.createOrUpdateMeta objectKey entry.objectMeta (writeMode2MetaType writeMode) a.put
    (rc, { m with objectStore := store })

def recoveryMetaFromWorker (m : OCMetadataManager) (workerAddr objectKey : Bytes) (objectMeta : ObjectMetaPb)
    (a : RecoveryAnswer) : Status × OCMetadataManager :=
  if workerAddr = [] then (⟨.invalid,"Cannot RecoveryMetaFromWorker with empty worker address."⟩, m)
  else
    match m.metaTable.lookup objectKey with
    | some entry =>
      if entry.objectMeta.config.dataFormat ≠ objectMeta.config.dataFormat then
        (⟨.invalid,"Invalid data format of objectKey(%s)"⟩, m)
      else if objectMeta.version < entry.objectMeta.version then
        -- The version on the master is newer.
        let (rc, notifyWorkerManager) := m.notifyWorkerManager.insertAsyncWorkerOp m.objectStore.config workerAddr objectKey
          cacheInvalidOp (writeMode2MetaType objectMeta.config.writeMode) a.asyncWorkerOp
        (rc, { m with notifyWorkerManager })
      else
        let (entry, store) := m.mergeRecoveredMeta objectKey workerAddr objectMeta entry a.removeLocation
        persistRecoveredMeta { m with objectStore := store } objectKey entry objectMeta.config.writeMode a
    | none =>
      let entry : ObjectMeta :=
        { objectMeta := { objectMeta with isRecovered := false, primaryAddress := workerAddr }
          locations := (∅ : Locations).insert workerAddr .ack }
      if 0 < objectMeta.ttlSecond && !a.insertExpired.isOk then
        (a.insertExpired, { m with metaTable := m.metaTable.insert objectKey entry })
      else m.persistRecoveredMeta objectKey entry objectMeta.config.writeMode a

end OCMetadataManager

structure WorkerReport where
  workerAddr : Bytes
  objectMeta : ObjectMetaPb
  answer : RecoveryAnswer := {}

/-- The reports about an object arrive one after the other. -/
def OCMetadataManager.recover (m : OCMetadataManager) (objectKey : Bytes) (reports : List WorkerReport) :
    OCMetadataManager :=
  reports.foldl (fun m r => (m.recoveryMetaFromWorker r.workerAddr objectKey r.objectMeta r.answer).2) m

/-- The entry of an object is what the reports ask for. -/
def Rebuilt (objectKey : Bytes) (reports : List WorkerReport) (m : OCMetadataManager) : Prop :=
  ∃ entry, m.metaTable.lookup objectKey = some entry ∧
    (∃ r ∈ reports, r.objectMeta.version = entry.objectMeta.version) ∧
    (∀ r ∈ reports, r.objectMeta.version ≤ entry.objectMeta.version) ∧
    (∀ w, w ∈ entry.locations ↔ ∃ r ∈ reports, r.workerAddr = w ∧ r.objectMeta.version = entry.objectMeta.version) ∧
    ∀ r ∈ reports, r.objectMeta.version < entry.objectMeta.version →
      m.notifyWorkerManager.checkExistAsyncWorkerOp r.workerAddr objectKey { cacheInvalid := true } = true

def WorkerReport.canTell (c : StoreConfig) (notify : OCNotifyWorkerManager) (r : WorkerReport) : Bool :=
  !notify.isWorkerDead r.workerAddr &&
    r.answer.asyncWorkerOp.accepted c (writeMode2MetaType r.objectMeta.config.writeMode)

/-- What concerns the reports about one object. -/
structure RecoveredObject where
  version : Nat
  dataFormat : DataFormat
  primary : Bytes
  locations : Finset Bytes
  told : Finset Bytes

namespace RecoveredObject

variable (canTell : WorkerReport → Bool)

def merge (v : RecoveredObject) (r : WorkerReport) : RecoveredObject :=
  if !r.objectMeta.isRecovered || r.objectMeta.primaryAddress ≠ r.workerAddr then
    { v with locations := insert r.workerAddr v.locations }
  else if v.primary = [] || v.primary = r.workerAddr then
    { v with locations := insert r.workerAddr v.locations, primary := r.workerAddr }
  else { v with locations := (insert r.workerAddr v.locations).erase v.primary, primary := r.workerAddr }

def report (v : RecoveredObject) (r : WorkerReport) : RecoveredObject :=
  if r.workerAddr = [] ∨ v.dataFormat ≠ r.objectMeta.config.dataFormat then v
  else if r.objectMeta.version < v.version then
    if canTell r then { v with told := insert r.workerAddr v.told } else v
  else v.merge r

end RecoveredObject

/-- The entry of an object shows what the reports have done to a master that began as `base`. -/
structure Shows (base : OCMetadataManager) (objectKey : Bytes) (m : OCMetadataManager) (v : RecoveredObject) : Prop where
  entry : ∃ e, m.metaTable.lookup objectKey = some e ∧ e.objectMeta.version = v.version ∧
    e.objectMeta.config.dataFormat = v.dataFormat ∧ e.objectMeta.primaryAddress = v.primary ∧
    ∀ w, w ∈ e.locations ↔ w ∈ v.locations
  told : ∀ w, (m.notifyWorkerManager.notifyWorkerOpTable.lookup (w, objectKey)).map NotifyWorkerOpEntry.op =
    if w ∈ v.told then some cacheInvalidOp else none
  config : m.objectStore.config = base.objectStore.config
  faultWorkers : m.notifyWorkerManager.faultWorkers = base.notifyWorkerManager.faultWorkers

section Simulation

variable {base m : OCMetadataManager} {objectKey : Bytes}

theorem persistRecoveredMeta_eq (m : OCMetadataManager) (objectKey : Bytes) (entry : ObjectMeta) (writeMode : WriteMode)
    (a : RecoveryAnswer) :
    (m.persistRecoveredMeta objectKey entry writeMode a).2.metaTable = m.metaTable.insert objectKey entry ∧
      (m.persistRecoveredMeta objectKey entry writeMode a).2.notifyWorkerManager = m.notifyWorkerManager ∧
      (m.persistRecoveredMeta objectKey entry writeMode a).2.objectStore.config = m.objectStore.config := by
  unfold persistRecoveredMeta
  dsimp only
  split_ifs <;> simp

variable {v : RecoveredObject}

theorem Shows.persist
    (htold : ∀ w, (m.notifyWorkerManager.notifyWorkerOpTable.lookup (w, objectKey)).map NotifyWorkerOpEntry.op =
      if w ∈ v.told then some cacheInvalidOp else none) (hconfig : m.objectStore.config = base.objectStore.config)
    (hfault : m.notifyWorkerManager.faultWorkers = base.notifyWorkerManager.faultWorkers) {entry : ObjectMeta}
    (hentry : entry.objectMeta.version = v.version ∧ entry.objectMeta.config.dataFormat = v.dataFormat ∧
      entry.objectMeta.primaryAddress = v.primary ∧ ∀ w, w ∈ entry.locations ↔ w ∈ v.locations)
    (writeMode : WriteMode) (a : RecoveryAnswer) :
    Shows base objectKey (m.persistRecoveredMeta objectKey entry writeMode a).2 v := by
  obtain ⟨htable,hnotify,hstore⟩ := persistRecoveredMeta_eq m objectKey entry writeMode a
  refine ⟨⟨entry,?_,hentry⟩,?_,hstore.trans hconfig,by rw [hnotify,hfault]⟩
  · rw [htable,lookup_insert]
  · rw [hnotify]
    exact htold

theorem mergeRecoveredMeta_eq (m : OCMetadataManager) (objectKey : Bytes) (r : WorkerReport) {e : ObjectMeta}
    (he : e.objectMeta.version = v.version ∧ e.objectMeta.config.dataFormat = v.dataFormat ∧
      e.objectMeta.primaryAddress = v.primary ∧ ∀ w, w ∈ e.locations ↔ w ∈ v.locations) (a : WriteAnswer) :
    (m.mergeRecoveredMeta objectKey r.workerAddr r.objectMeta e a).2.config = m.objectStore.config ∧
      (m.mergeRecoveredMeta objectKey r.workerAddr r.objectMeta e a).1.objectMeta.version = (v.merge r).version ∧
      (m.mergeRecoveredMeta objectKey r.workerAddr r.objectMeta e a).1.objectMeta.config.dataFormat =
        (v.merge r).dataFormat ∧
      (m.mergeRecoveredMeta objectKey r.workerAddr r.objectMeta e a).1.objectMeta.primaryAddress = (v.merge r).primary ∧
      ∀ w, w ∈ (m.mergeRecoveredMeta objectKey r.workerAddr r.objectMeta e a).1.locations ↔ w ∈ (v.merge r).locations := by
  obtain ⟨hversion,hformat,hprimary,hlocations⟩ := he
  simp only [mergeRecoveredMeta,RecoveredObject.merge,hprimary]
  split_ifs <;> simp [hversion,hformat,hprimary,hlocations]

theorem Shows.older (h : Shows base objectKey m v) (r : WorkerReport) : Shows base objectKey { m with
        notifyWorkerManager := (m.notifyWorkerManager.insertAsyncWorkerOp m.objectStore.config r.workerAddr objectKey
          cacheInvalidOp (writeMode2MetaType r.objectMeta.config.writeMode) r.answer.asyncWorkerOp).2 }
      (if r.canTell base.objectStore.config base.notifyWorkerManager then
        { v with told := insert r.workerAddr v.told } else v) := by
  have htell : (!m.notifyWorkerManager.isWorkerDead r.workerAddr &&
      r.answer.asyncWorkerOp.accepted m.objectStore.config (writeMode2MetaType r.objectMeta.config.writeMode)) =
      r.canTell base.objectStore.config base.notifyWorkerManager := by
    rw [WorkerReport.canTell,isWorkerDead,h.faultWorkers,h.config]
    rfl
  have htable := insertAsyncWorkerOp_table m.objectStore.config m.notifyWorkerManager r.workerAddr
    objectKey cacheInvalidOp (writeMode2MetaType r.objectMeta.config.writeMode) r.answer.asyncWorkerOp
  rw [htell] at htable
  have hfault : (m.notifyWorkerManager.insertAsyncWorkerOp m.objectStore.config r.workerAddr objectKey cacheInvalidOp
      (writeMode2MetaType r.objectMeta.config.writeMode) r.answer.asyncWorkerOp).2.faultWorkers =
      base.notifyWorkerManager.faultWorkers := by simp [h.faultWorkers]
  by_cases hcan : r.canTell base.objectStore.config base.notifyWorkerManager = true
  · rw [if_pos hcan] at htable ⊢
    refine ⟨h.entry,?_,h.config,hfault⟩
    intro w
    dsimp only
    rw [htable]
    by_cases hw : w = r.workerAddr
    · subst hw
      rw [lookup_insert,if_pos (Finset.mem_insert_self _ _)]
      have hold := h.told r.workerAddr
      by_cases hw : r.workerAddr ∈ v.told
      · rw [if_pos hw] at hold
        obtain ⟨entry,hentry,hop⟩ := Option.map_eq_some_iff.mp hold
        rw [hentry,Option.map_some,Option.elim_some,hop]
        rfl
      · rw [if_neg hw,Option.map_eq_none_iff] at hold
        rw [hold]
        rfl
    · rw [lookup_insert_of_ne _ (by simp [hw]),h.told]
      simp [hw]
  · rw [if_neg hcan] at htable ⊢
    refine ⟨h.entry,?_,h.config,hfault⟩
    intro w
    dsimp only
    rw [htable]
    exact h.told w

theorem Shows.report (h : Shows base objectKey m v) (r : WorkerReport) :
    Shows base objectKey (m.recoveryMetaFromWorker r.workerAddr objectKey r.objectMeta r.answer).2
      (v.report (fun r => r.canTell base.objectStore.config base.notifyWorkerManager) r) := by
  obtain ⟨e,hlookup,he⟩ := h.entry
  unfold recoveryMetaFromWorker RecoveredObject.report
  by_cases haddr : r.workerAddr = []
  · rw [if_pos haddr,if_pos (Or.inl haddr)]
    exact h
  · rw [if_neg haddr,hlookup]
    dsimp only
    by_cases hformat : v.dataFormat = r.objectMeta.config.dataFormat
    · have hsame : ¬ e.objectMeta.config.dataFormat ≠ r.objectMeta.config.dataFormat := by
        rw [he.2.1]
        exact not_not_intro hformat
      have haccepted : ¬ (r.workerAddr = [] ∨ v.dataFormat ≠ r.objectMeta.config.dataFormat) := by simp [haddr,hformat]
      rw [if_neg hsame,if_neg haccepted]
      by_cases hold : r.objectMeta.version < v.version
      · rw [if_pos hold,if_pos (he.1.symm ▸ hold)]
        exact h.older r
      · rw [if_neg hold,if_neg (he.1.symm ▸ hold)]
        obtain ⟨hconfig,hentry⟩ := mergeRecoveredMeta_eq m objectKey r he r.answer.removeLocation
        have htold : (v.merge r).told = v.told := by
          unfold RecoveredObject.merge
          split_ifs <;> rfl
        refine Shows.persist (m := { m with objectStore := _ }) ?_ (hconfig.trans h.config) h.faultWorkers hentry _ _
        rw [htold]
        exact h.told
    · have hdiffer : e.objectMeta.config.dataFormat ≠ r.objectMeta.config.dataFormat := by
        rw [he.2.1]
        exact hformat
      rw [if_pos hdiffer,if_pos (Or.inr hformat)]
      exact h

theorem Shows.first (hnone : m.metaTable.lookup objectKey = none)
    (hops : ∀ w, m.notifyWorkerManager.notifyWorkerOpTable.lookup (w, objectKey) = none) {r : WorkerReport}
    (haddr : r.workerAddr ≠ []) :
    Shows m objectKey (m.recoveryMetaFromWorker r.workerAddr objectKey r.objectMeta r.answer).2
      ⟨r.objectMeta.version,r.objectMeta.config.dataFormat,r.workerAddr,{r.workerAddr},∅⟩ := by
  have hlocations : ∀ w, w ∈ (∅ : Locations).insert r.workerAddr .ack ↔ w ∈ ({r.workerAddr} : Finset Bytes) := by
    intro w
    rw [AList.mem_insert]
    simp
  rw [recoveryMetaFromWorker,if_neg haddr,hnone]
  dsimp only
  split_ifs
  · exact ⟨⟨_,lookup_insert _,rfl,rfl,rfl,hlocations⟩,by simpa using hops,rfl,rfl⟩
  · exact .persist (by simpa using hops) rfl rfl ⟨rfl,rfl,rfl,hlocations⟩ _ _

theorem Shows.recover (h : Shows base objectKey m v) (reports : List WorkerReport) :
    Shows base objectKey (m.recover objectKey reports)
      (reports.foldl (RecoveredObject.report fun r => r.canTell base.objectStore.config base.notifyWorkerManager) v) := by
  induction reports generalizing m v with
  | nil => exact h
  | cons r reports ih => exact ih (h.report r)

end Simulation

namespace RecoveredObject

variable {canTell : WorkerReport → Bool} {first : WorkerReport}

structure Rebuilt (reports : List WorkerReport) (v : RecoveredObject) : Prop where
  reported : ∃ r ∈ reports, r.objectMeta.version = v.version
  newest : ∀ r ∈ reports, r.objectMeta.version ≤ v.version
  locations : ∀ w, w ∈ v.locations ↔ ∃ r ∈ reports, r.workerAddr = w ∧ r.objectMeta.version = v.version
  told : ∀ r ∈ reports, r.objectMeta.version < v.version → r.workerAddr ∈ v.told

/-- A report that goes together with the first one. -/
structure Follows (canTell : WorkerReport → Bool) (first r : WorkerReport) : Prop where
  addressed : r.workerAddr ≠ []
  format : r.objectMeta.config.dataFormat = first.objectMeta.config.dataFormat
  notNewer : r.objectMeta.version ≤ first.objectMeta.version
  notPrimary : r.objectMeta.version = first.objectMeta.version →
    ¬ (r.objectMeta.isRecovered = true ∧ r.objectMeta.primaryAddress = r.workerAddr)
  told : r.objectMeta.version < first.objectMeta.version → canTell r = true

def start (first : WorkerReport) : RecoveredObject :=
  ⟨first.objectMeta.version,first.objectMeta.config.dataFormat,first.workerAddr,{first.workerAddr},∅⟩

variable {v : RecoveredObject}

/-- What an accepted report that does not take the primary copy over does. -/
theorem report_of_follows (hversion : v.version = first.objectMeta.version)
    (hformat : v.dataFormat = first.objectMeta.config.dataFormat) {r : WorkerReport} (hr : Follows canTell first r) :
    v.report canTell r =
      if r.objectMeta.version < v.version then { v with told := insert r.workerAddr v.told }
      else { v with locations := insert r.workerAddr v.locations } := by
  rw [report,if_neg (by simp [hr.addressed,hr.format,hformat])]
  split_ifs with hold htell
  · rfl
  · exact absurd (hr.told (hversion ▸ hold)) htell
  · have heq : r.objectMeta.version = first.objectMeta.version := le_antisymm hr.notNewer (not_lt.mp (hversion ▸ hold))
    have hkeeps : (!r.objectMeta.isRecovered || decide (r.objectMeta.primaryAddress ≠ r.workerAddr)) = true := by
      cases hrec : r.objectMeta.isRecovered with
      | false => rfl
      | true => simpa using fun hself => hr.notPrimary heq ⟨hrec,hself⟩
    rw [merge,if_pos hkeeps]

variable {rest : List WorkerReport}

/-- Reports that all go together with the first one give what they ask for. -/
theorem rebuilt_of_follows (h : ∀ r ∈ rest, Follows canTell first r) :
    (rest.foldl (report canTell) (start first)).version = first.objectMeta.version ∧
      (rest.foldl (report canTell) (start first)).dataFormat = first.objectMeta.config.dataFormat ∧
      Rebuilt (first :: rest) (rest.foldl (report canTell) (start first)) := by
  induction rest using List.reverseRecOn with
  | nil =>
    refine ⟨rfl,rfl,⟨first,by simp,rfl⟩,by simp [start],by simp [start,eq_comm],by simp [start]⟩
  | append_singleton rest r ih =>
    obtain ⟨hversion,hformat,hrebuilt⟩ := ih fun a ha => h a (mem_append_left _ ha)
    have hr : Follows canTell first r := h r (by simp)
    have hstep := report_of_follows hversion hformat hr
    rw [foldl_append,foldl_cons,foldl_nil,hstep]
    have hmem : ∀ a, a ∈ first :: (rest ++ [r]) ↔ a ∈ first :: rest ∨ a = r := by
      intro a
      simp [or_assoc]
    split_ifs with hold
    · refine ⟨hversion,hformat,?_,?_,?_,?_⟩
      · obtain ⟨a,ha,hav⟩ := hrebuilt.reported
        exact ⟨a,(hmem a).mpr (Or.inl ha),hav⟩
      · intro a ha
        rcases (hmem a).mp ha with ha | rfl
        · exact hrebuilt.newest a ha
        · exact hold.le
      · intro w
        rw [hrebuilt.locations]
        constructor
        · rintro ⟨a,ha,hw⟩
          exact ⟨a,(hmem a).mpr (Or.inl ha),hw⟩
        · rintro ⟨a,ha,hw⟩
          rcases (hmem a).mp ha with ha | rfl
          · exact ⟨a,ha,hw⟩
          · exact absurd hw.2 hold.ne
      · intro a ha haold
        rcases (hmem a).mp ha with ha | rfl
        · exact Finset.mem_insert_of_mem (hrebuilt.told a ha haold)
        · exact Finset.mem_insert_self _ _
    · have heq : r.objectMeta.version = (rest.foldl (report canTell) (start first)).version :=
        le_antisymm (hversion ▸ hr.notNewer) (not_lt.mp hold)
      refine ⟨hversion,hformat,⟨r,(hmem r).mpr (Or.inr rfl),heq⟩,?_,?_,?_⟩
      · intro a ha
        rcases (hmem a).mp ha with ha | rfl
        · exact hrebuilt.newest a ha
        · exact heq.le
      · intro w
        rw [Finset.mem_insert,hrebuilt.locations]
        constructor
        · rintro (rfl | ⟨a,ha,hw⟩)
          · exact ⟨r,(hmem r).mpr (Or.inr rfl),rfl,heq⟩
          · exact ⟨a,(hmem a).mpr (Or.inl ha),hw⟩
        · rintro ⟨a,ha,hw⟩
          rcases (hmem a).mp ha with ha | rfl
          · exact Or.inr ⟨a,ha,hw⟩
          · exact Or.inl hw.1.symm
      · intro a ha haold
        rcases (hmem a).mp ha with ha | rfl
        · exact hrebuilt.told a ha haold
        · exact absurd haold hold

/-- What holds after any reports, of which no two are of one worker. -/
structure Reported (canTell : WorkerReport → Bool) (first : WorkerReport) (rest : List WorkerReport) (v : RecoveredObject) :
    Prop where
  version : v.version = first.objectMeta.version
  format : v.dataFormat = first.objectMeta.config.dataFormat
  primary : v.primary ≠ [] ∧ ∃ r ∈ first :: rest, r.workerAddr = v.primary ∧ v.version ≤ r.objectMeta.version
  located : ∀ w ∈ v.locations, ∃ r ∈ first :: rest, r.workerAddr = w ∧ w ≠ [] ∧ r.objectMeta.config.dataFormat = v.dataFormat
  told : ∀ w ∈ v.told, ∃ r ∈ first :: rest, r.workerAddr = w ∧ w ≠ [] ∧
    r.objectMeta.config.dataFormat = v.dataFormat ∧ canTell r = true
  /-- Who takes the primary copy over drives its holder out. -/
  displaced : ∀ r ∈ rest, r.workerAddr ≠ [] → r.objectMeta.config.dataFormat = v.dataFormat →
    v.version ≤ r.objectMeta.version → r.objectMeta.isRecovered = true → r.objectMeta.primaryAddress = r.workerAddr →
    ∃ a ∈ first :: rest, v.version ≤ a.objectMeta.version ∧ a.workerAddr ∉ v.locations

def TakesPrimary (v : RecoveredObject) (r : WorkerReport) : Prop :=
  r.workerAddr ≠ [] ∧ r.objectMeta.config.dataFormat = v.dataFormat ∧ v.version ≤ r.objectMeta.version ∧
    r.objectMeta.isRecovered = true ∧ r.objectMeta.primaryAddress = r.workerAddr

theorem Reported.extend (h : Reported canTell first rest v) {r : WorkerReport} (hr : ¬ v.TakesPrimary r) :
    Reported canTell first (rest ++ [r]) v := by
  have hmem : ∀ a ∈ first :: rest, a ∈ first :: (rest ++ [r]) := by
    intro a ha
    rw [← cons_append]
    exact mem_append_left _ ha
  refine ⟨h.version,h.format,⟨h.primary.1,?_⟩,?_,?_,?_⟩
  · obtain ⟨a,ha,hprimary⟩ := h.primary.2
    exact ⟨a,hmem a ha,hprimary⟩
  · intro w hw
    obtain ⟨a,ha,hlocated⟩ := h.located w hw
    exact ⟨a,hmem a ha,hlocated⟩
  · intro w hw
    obtain ⟨a,ha,htold⟩ := h.told w hw
    exact ⟨a,hmem a ha,htold⟩
  · intro b hb haddr hformat hversion hrec hself
    rcases mem_append.mp hb with hb | hb
    · obtain ⟨a,ha,hdisplaced⟩ := h.displaced b hb haddr hformat hversion hrec hself
      exact ⟨a,hmem a ha,hdisplaced⟩
    · obtain rfl := mem_singleton.mp hb
      exact absurd ⟨haddr,hformat,hversion,hrec,hself⟩ hr

theorem Reported.report (h : Reported canTell first rest v) {r : WorkerReport}
    (hnew : ∀ a ∈ first :: rest, a.workerAddr ≠ r.workerAddr) :
    Reported canTell first (rest ++ [r]) (v.report canTell r) := by
  have hlast : r ∈ first :: (rest ++ [r]) := by simp
  unfold RecoveredObject.report
  split_ifs with hrejected hold htell
  · refine h.extend ?_
    rintro ⟨haddr,hformat,-⟩
    exact hrejected.elim haddr fun hne => hne hformat.symm
  · have hx : Reported canTell first (rest ++ [r]) v := h.extend fun htakes => absurd htakes.2.2.1 (not_le.mpr hold)
    refine ⟨hx.version,hx.format,hx.primary,hx.located,?_,hx.displaced⟩
    intro w hw
    rcases Finset.mem_insert.mp hw with rfl | hw
    · have hok := not_or.mp hrejected
      exact ⟨r,hlast,rfl,hok.1,(not_not.mp hok.2).symm,htell⟩
    · exact hx.told w hw
  · exact h.extend fun htakes => absurd htakes.2.2.1 (not_le.mpr hold)
  · have hok := not_or.mp hrejected
    have hlocated : r.workerAddr ≠ [] ∧ r.objectMeta.config.dataFormat = v.dataFormat := ⟨hok.1,(not_not.mp hok.2).symm⟩
    obtain ⟨a,ha,haprimary,haversion⟩ := h.primary.2
    unfold merge
    split_ifs with hkeeps hsame
    · have hx : Reported canTell first (rest ++ [r]) v := by
        refine h.extend ?_
        rintro ⟨-,-,-,hrec,hself⟩
        simp [hrec,hself] at hkeeps
      refine ⟨hx.version,hx.format,hx.primary,?_,hx.told,?_⟩
      · intro w hw
        rcases Finset.mem_insert.mp hw with rfl | hw
        · exact ⟨r,hlast,rfl,hlocated⟩
        · exact hx.located w hw
      · intro b hb haddr hformat hversion hrec hself
        rcases mem_append.mp hb with hb | hb
        · obtain ⟨c,hc,hcversion,hcout⟩ := h.displaced b hb haddr hformat hversion hrec hself
          refine ⟨c,?_,hcversion,?_⟩
          · rw [← cons_append]
            exact mem_append_left _ hc
          · exact fun hin => hcout ((Finset.mem_insert.mp hin).resolve_left (hnew c hc))
        · obtain rfl := mem_singleton.mp hb
          simp [hrec,hself] at hkeeps
    · -- The holder of the primary copy has reported before, so it is another worker.
      rcases (by simpa using hsame : v.primary = [] ∨ v.primary = r.workerAddr) with hempty | hself
      · exact absurd hempty h.primary.1
      · exact absurd (haprimary.trans hself) (hnew a ha)
    · have hbefore : ∀ b ∈ first :: rest, b ∈ first :: (rest ++ [r]) := by
        intro b hb
        rw [← cons_append]
        exact mem_append_left _ hb
      refine ⟨h.version,h.format,⟨hlocated.1,r,hlast,rfl,not_lt.mp hold⟩,?_,?_,?_⟩
      · intro w hw
        rcases Finset.mem_insert.mp (Finset.mem_of_mem_erase hw) with rfl | hw
        · exact ⟨r,hlast,rfl,hlocated⟩
        · obtain ⟨b,hb,hlocated'⟩ := h.located w hw
          exact ⟨b,hbefore b hb,hlocated'⟩
      · intro w hw
        obtain ⟨b,hb,htold⟩ := h.told w hw
        exact ⟨b,hbefore b hb,htold⟩
      · intro b _ _ _ _ _ _
        refine ⟨a,hbefore a ha,haversion,?_⟩
        rw [haprimary]
        exact Finset.notMem_erase _ _

theorem reported_foldl (hfirst : first.workerAddr ≠ []) (hnodup : ((first :: rest).map WorkerReport.workerAddr).Nodup) :
    Reported canTell first rest (rest.foldl (RecoveredObject.report canTell) (start first)) := by
  induction rest using List.reverseRecOn with
  | nil =>
    refine ⟨rfl,rfl,⟨hfirst,first,mem_cons_self,rfl,le_rfl⟩,?_,by simp [start],by simp⟩
    intro w hw
    obtain rfl := Finset.mem_singleton.mp hw
    exact ⟨first,mem_cons_self,rfl,hfirst,rfl⟩
  | append_singleton rest r ih =>
    rw [← cons_append,map_append] at hnodup
    obtain ⟨hbefore,-,hapart⟩ := nodup_append.mp hnodup
    rw [foldl_append,foldl_cons,foldl_nil]
    refine (ih hbefore).report ?_
    intro a ha
    exact hapart _ (mem_map_of_mem ha) _ (by simp)

/-- Only reports that all go together with the first one give what they ask for. -/
theorem follows_of_rebuilt (hfirst : first.workerAddr ≠ [])
    (hnodup : ((first :: rest).map WorkerReport.workerAddr).Nodup)
    (h : Rebuilt (first :: rest) (rest.foldl (RecoveredObject.report canTell) (start first))) :
    ∀ r ∈ rest, Follows canTell first r := by
  intro r hr
  have hreported : Reported canTell first rest _ := reported_foldl hfirst hnodup
  have hmem : r ∈ first :: rest := mem_cons_of_mem _ hr
  have hsame : ∀ a ∈ first :: rest, a.workerAddr = r.workerAddr → a = r :=
    fun a ha heq => inj_on_of_nodup_map hnodup ha hmem heq
  have hle := h.newest r hmem
  have hdisplaced := hreported.displaced r hr
  rcases hle.lt_or_eq with hold | heq
  · obtain ⟨a,ha,haddr,hne,hformat,htell⟩ := hreported.told _ (h.told r hmem hold)
    obtain rfl := hsame a ha haddr
    refine ⟨hne,hformat.trans hreported.format,?_,?_,fun _ => htell⟩
    · rw [← hreported.version]
      exact hle
    · intro hversion
      rw [← hreported.version] at hversion
      exact absurd hversion hold.ne
  · obtain ⟨a,ha,haddr,hne,hformat⟩ := hreported.located _ ((h.locations r.workerAddr).mpr ⟨r,hmem,rfl,heq⟩)
    obtain rfl := hsame a ha haddr
    refine ⟨hne,hformat.trans hreported.format,?_,?_,?_⟩
    · rw [← hreported.version]
      exact hle
    · rintro - ⟨hrec,hself⟩
      obtain ⟨b,hb,hbversion,hout⟩ := hdisplaced hne hformat heq.ge hrec hself
      exact hout ((h.locations _).mpr ⟨b,hb,rfl,le_antisymm (h.newest b hb) hbversion⟩)
    · intro hold
      rw [← hreported.version] at hold
      exact absurd heq hold.ne

end RecoveredObject

/-- No worker without an address is known for an object. -/
def NoAnonymous (objectKey : Bytes) (m : OCMetadataManager) : Prop :=
  (∀ e, m.metaTable.lookup objectKey = some e → [] ∉ e.locations) ∧
    m.notifyWorkerManager.notifyWorkerOpTable.lookup ([], objectKey) = none

theorem mergeRecoveredMeta_locations (m : OCMetadataManager) (objectKey : Bytes) (r : WorkerReport) (e : ObjectMeta)
    (a : WriteAnswer) {w : Bytes}
    (hw : w ∈ (m.mergeRecoveredMeta objectKey r.workerAddr r.objectMeta e a).1.locations) :
    w = r.workerAddr ∨ w ∈ e.locations := by
  unfold mergeRecoveredMeta at hw
  dsimp only at hw
  split_ifs at hw
  · exact (AList.mem_insert _).mp hw
  · exact (AList.mem_insert _).mp hw
  · exact (AList.mem_insert _).mp (AList.mem_erase.mp hw).2

variable {objectKey : Bytes} {m : OCMetadataManager}

theorem NoAnonymous.persist (h : m.notifyWorkerManager.notifyWorkerOpTable.lookup ([], objectKey) = none)
    {entry : ObjectMeta} (hentry : [] ∉ entry.locations) (writeMode : WriteMode) (a : RecoveryAnswer) :
    NoAnonymous objectKey (m.persistRecoveredMeta objectKey entry writeMode a).2 := by
  obtain ⟨htable,hnotify,-⟩ := persistRecoveredMeta_eq m objectKey entry writeMode a
  constructor
  · intro e he
    rw [htable,lookup_insert] at he
    cases he
    exact hentry
  · rw [hnotify]
    exact h

theorem NoAnonymous.report (h : NoAnonymous objectKey m) (r : WorkerReport) :
    NoAnonymous objectKey (m.recoveryMetaFromWorker r.workerAddr objectKey r.objectMeta r.answer).2 := by
  unfold recoveryMetaFromWorker
  by_cases haddr : r.workerAddr = []
  · rw [if_pos haddr]
    exact h
  · rw [if_neg haddr]
    have hempty : [] ∉ (∅ : Locations).insert r.workerAddr .ack := by
      rw [AList.mem_insert]
      simpa using Ne.symm haddr
    cases hlookup : m.metaTable.lookup objectKey with
    | some e =>
      dsimp only
      split_ifs
      · exact h
      · refine ⟨h.1,?_⟩
        dsimp only
        rw [insertAsyncWorkerOp_table]
        split_ifs
        · rw [lookup_insert_of_ne _ (by simpa using Ne.symm haddr)]
          exact h.2
        · exact h.2
      · apply NoAnonymous.persist
        · exact h.2
        · intro hmem
          rcases mergeRecoveredMeta_locations m objectKey r e r.answer.removeLocation hmem with hself | hmem
          · exact haddr hself.symm
          · exact h.1 e hlookup hmem
    | none =>
      dsimp only
      split_ifs
      · refine ⟨?_,h.2⟩
        intro e he
        rw [lookup_insert] at he
        cases he
        exact hempty
      · exact .persist h.2 hempty _ _

theorem NoAnonymous.recover (h : NoAnonymous objectKey m) (reports : List WorkerReport) :
    NoAnonymous objectKey (m.recover objectKey reports) := by
  induction reports generalizing m with
  | nil => exact h
  | cons r reports ih => exact ih (h.report r)

theorem NoAnonymous.not_rebuilt (h : NoAnonymous objectKey m) {reports : List WorkerReport} {r : WorkerReport}
    (hr : r ∈ reports) (haddr : r.workerAddr = []) : ¬ Rebuilt objectKey reports m := by
  rintro ⟨entry,hlookup,-,hnewest,hlocations,htold⟩
  rcases (hnewest r hr).lt_or_eq with hold | heq
  · have hop := htold r hr hold
    rw [checkExistAsyncWorkerOp,haddr,h.2] at hop
    cases hop
  · exact h.1 entry hlookup ((hlocations []).mpr ⟨r,hr,haddr,heq⟩)

theorem Shows.rebuilt_iff {base m : OCMetadataManager} {v : RecoveredObject} (h : Shows base objectKey m v)
    (reports : List WorkerReport) : Rebuilt objectKey reports m ↔ v.Rebuilt reports := by
  obtain ⟨e,hlookup,hversion,-,-,hlocations⟩ := h.entry
  have htold : ∀ w, m.notifyWorkerManager.checkExistAsyncWorkerOp w objectKey { cacheInvalid := true } = true ↔
      w ∈ v.told := by
    intro w
    have hop := h.told w
    rw [checkExistAsyncWorkerOp]
    by_cases hw : w ∈ v.told
    · rw [if_pos hw] at hop
      obtain ⟨entry,hentry,hflag⟩ := Option.map_eq_some_iff.mp hop
      simp [hw,hentry,hflag,cacheInvalidOp,NotifyWorkerOpType.testAnyFlag]
    · rw [if_neg hw,Option.map_eq_none_iff] at hop
      simp [hw,hop]
  constructor
  · rintro ⟨entry,hentry,hreported,hnewest,hlocated,hop⟩
    obtain rfl := Option.some.inj (hlookup.symm.trans hentry)
    rw [hversion] at hreported hnewest hlocated hop
    refine ⟨hreported,hnewest,fun w => (hlocations w).symm.trans (hlocated w),?_⟩
    intro r hr hold
    exact (htold _).mp (hop r hr hold)
  · intro hv
    refine ⟨e,hlookup,?_⟩
    rw [hversion]
    refine ⟨hv.reported,hv.newest,fun w => (hlocations w).trans (hv.locations w),?_⟩
    intro r hr hold
    exact (htold _).mpr (hv.told r hr hold)

/-- The reports about an object, each of another worker, rebuild its entry on a master that knows nothing of it
exactly if they all go together with the report that arrives first. -/
theorem recovered_meta_rebuilt_iff (m : OCMetadataManager) (objectKey : Bytes) (first : WorkerReport)
    (rest : List WorkerReport) (hnone : m.metaTable.lookup objectKey = none)
    (hops : ∀ w, m.notifyWorkerManager.notifyWorkerOpTable.lookup (w, objectKey) = none)
    (hnodup : ((first :: rest).map WorkerReport.workerAddr).Nodup) :
    Rebuilt objectKey (first :: rest) (m.recover objectKey (first :: rest)) ↔
      first.workerAddr ≠ [] ∧ ∀ r ∈ rest, RecoveredObject.Follows
        (fun r => r.canTell m.objectStore.config m.notifyWorkerManager) first r := by
  by_cases hfirst : first.workerAddr = []
  · have hanonymous : NoAnonymous objectKey m := ⟨fun e he => absurd (hnone.symm.trans he) (by simp),hops []⟩
    simp [hfirst,(hanonymous.recover (first :: rest)).not_rebuilt mem_cons_self hfirst]
  · have hshows : Shows m objectKey (m.recover objectKey (first :: rest)) _ :=
      (Shows.first hnone hops hfirst).recover rest
    rw [hshows.rebuilt_iff]
    constructor
    · exact fun h => ⟨hfirst,RecoveredObject.follows_of_rebuilt hfirst hnodup h⟩
    · exact fun h => (RecoveredObject.rebuilt_of_follows h.2).2.2

/-- A report and an older one. -/
theorem recovered_meta_rebuilt_from_two : Rebuilt [107] [⟨[49],{ version := 2 },{}⟩,⟨[50],{ version := 1 },{}⟩]
      (({} : OCMetadataManager).recover [107] [⟨[49],{ version := 2 },{}⟩,⟨[50],{ version := 1 },{}⟩]) := by
  refine (recovered_meta_rebuilt_iff {} [107] _ _ rfl (fun _ => rfl) (by decide)).mpr ⟨by decide,?_⟩
  intro r hr
  obtain rfl := mem_singleton.mp hr
  exact ⟨by decide,rfl,by decide,by decide,by decide⟩

/-- The same reports in the other order: the entry keeps the older version, and both workers are locations. -/
theorem recovered_meta_not_rebuilt : ¬ Rebuilt [107] [⟨[50],{ version := 1 },{}⟩,⟨[49],{ version := 2 },{}⟩]
      (({} : OCMetadataManager).recover [107] [⟨[50],{ version := 1 },{}⟩,⟨[49],{ version := 2 },{}⟩]) := by
  rintro ⟨entry,hlookup,-,hnewest,-⟩
  have hentry : entry.objectMeta.version = 1 := by
    cases hlookup
    rfl
  have hle := hnewest ⟨[49],{ version := 2 },{}⟩ (by simp)
  rw [hentry] at hle
  exact absurd hle (by decide)

end Datasystem.Master
