import Datasystem.Master.CreateMeta

/-!
# Updates that fail

A request that returns an error should leave the version, size, state and primary address of the object as
they were. It does not if it fails after the entry has been rewritten: nothing restores the entry then.
-/

namespace Datasystem.Master

open OCMetadataManager

namespace OCMetadataManager

def selectLocation (m : OCMetadataManager) (objectKey sourceWorker : Bytes) : List (Sigma fun _ : Bytes => AckState) → Bytes
  | [] => []
  | addr :: locationsVec =>
    if sourceWorker ≠ addr.1 ∧ addr.2 = .ack ∧ !m.notifyWorkerManager.checkExistAsyncWorkerOp addr.1 objectKey
        { cacheInvalid := true, primaryCopyInvalid := true } then addr.1
    else selectLocation m objectKey sourceWorker locationsVec

/-- `SelectObjectLocation`; the locations are tried in an order that is chosen at random. -/
def selectObjectLocation (m : OCMetadataManager) (objectKey sourceWorker : Bytes) (locations : Locations)
    (shuffle : List (Sigma fun _ : Bytes => AckState) → List (Sigma fun _ : Bytes => AckState)) : Bytes :=
  match locations.entries with
  | [] => []
  | [addr] => m.selectLocation objectKey sourceWorker [addr]
  | locationsVec => m.selectLocation objectKey sourceWorker (shuffle locationsVec)

def queryMeta (m : OCMetadataManager) (objectKey sourceWorker : Bytes)
    (shuffle : List (Sigma fun _ : Bytes => AckState) → List (Sigma fun _ : Bytes => AckState)) :
    Option (ObjectMetaPb × Bytes) :=
  match m.metaTable.lookup objectKey with
  | none => none
  | some entry =>
    if entry.multiSetState = .pending then none
    else some (entry.objectMeta, m.selectObjectLocation objectKey sourceWorker entry.locations shuffle)

theorem queryMeta_fst {m : OCMetadataManager} {objectKey sourceWorker : Bytes}
    {shuffle : List (Sigma fun _ : Bytes => AckState) → List (Sigma fun _ : Bytes => AckState)} {entry : ObjectMeta}
    (hentry : m.metaTable.lookup objectKey = some entry) {info : ObjectMetaPb × Bytes}
    (hinfo : m.queryMeta objectKey sourceWorker shuffle = some info) : info.1 = entry.objectMeta := by
  unfold queryMeta at hinfo
  rw [hentry] at hinfo
  dsimp only at hinfo
  split_ifs at hinfo
  rw [← Option.some.inj hinfo]

end OCMetadataManager

inductive UpdateRequest where
  | create (request : CreateMetaReqPb)
  /-- One key of a request for many keys. -/
  | createOfMulti (objectKey : Bytes) (newMeta : ObjectMeta) (address : Bytes) (version : Nat)
  | update (request : UpdateMetaReqPb)

namespace UpdateRequest

def objectKey : UpdateRequest → Bytes
  | create request => request.objectKey
  | createOfMulti objectKey _ _ _ => objectKey
  | update request => request.objectKey

variable (m : OCMetadataManager)

def handle (a : CreateAnswer) : UpdateRequest → Status × OCMetadataManager
  | create request => m.createMetaRequest request a
  | createOfMulti objectKey newMeta address version =>
    let (rc, _, m) := m.createMetaOfMulti objectKey newMeta address version a.toUpdateAnswer
    (rc, m)
  | update request => m.updateMetaRequest request a.toUpdateAnswer

def changedMeta (a : CreateAnswer) : UpdateRequest → ChangedMeta
  | create request => OCMetadataManager.changeTo request.newMeta request.address a.timestamp
  | createOfMulti _ newMeta address version => OCMetadataManager.changeTo newMeta.objectMeta address version
  | update request => request.changeTo a.timestamp

/-- The request is for this master and for an object that is not being deleted. -/
def admitted (a : CreateAnswer) (objectKey address : Bytes) : Bool :=
  objectKey ≠ [] ∧ address ≠ [] ∧ a.fillRedirect.isOk ∧ !a.redirected ∧ a.removeExpired.isOk

/-- The request passes all checks that come before the copies are told. -/
def checked (entry : ObjectMeta) (a : CreateAnswer) : UpdateRequest → Bool
  | create request =>
    admitted a request.objectKey request.address && !(request.newMeta.config.consistencyType = .causal ∧ !a.addHeavyOp) &&
      (m.checkUpdate request.objectKey entry request.newMeta request.nestedKeys).isOk
  | createOfMulti objectKey newMeta _ _ => (m.checkUpdate objectKey entry newMeta.objectMeta []).isOk
  | update request =>
    admitted a request.objectKey request.address && !(entry.multiSetState = .pending) &&
      !(entry.isCausal && !a.addHeavyOp) && (m.checkUpdateRequest request entry).isOk

/-- The entry is rewritten: the checks have passed and all copies have been told. -/
def rewrites (entry : ObjectMeta) (a : CreateAnswer) (r : UpdateRequest) : Bool :=
  r.checked m entry a && m.copiesTold r.objectKey entry (r.changedMeta a) a.toUpdateAnswer

def nestedKeys : UpdateRequest → List Bytes
  | create request => request.nestedKeys
  | createOfMulti _ _ _ _ => []
  | update request => request.nestedKeys

/-- The nested keys have to be recorded; those of an update also if there are none. -/
def recordsNestedKeys : UpdateRequest → Bool
  | create request =>
    request.nestedKeys ≠ [] ∧ m.nestedRefManager.isNestedKeysDiff request.objectKey request.nestedKeys
  | createOfMulti _ _ _ _ => false
  | update request => m.nestedRefManager.isNestedKeysDiff request.objectKey request.nestedKeys

/-- Everything that comes after the entry has been rewritten succeeds. -/
def completes (entry : ObjectMeta) (a : CreateAnswer) (r : UpdateRequest) : Bool :=
  a.persists m.objectStore.config (writeMode2MetaType entry.objectMeta.config.writeMode)
      (entry.locations.lookup (r.changedMeta a).newAddress = some .ack) &&
    a.recordsNested m.objectStore.config (r.recordsNestedKeys m) r.nestedKeys && a.insertExpired.isOk

/-- What a failed request has to leave: the version, size, state and primary address of the object, so that a query
never gives a new version with a location of the old one. -/
structure Keeps (r : UpdateRequest) (entry : ObjectMeta) (m' : OCMetadataManager) : Prop where
  core : ∃ entry', m'.metaTable.lookup r.objectKey = some entry' ∧ entry'.core = entry.core
  query : ∀ sourceWorker shuffle info, m'.queryMeta r.objectKey sourceWorker shuffle = some info →
    info.1.version = entry.objectMeta.version

theorem keeps_of_core {r : UpdateRequest} {entry entry' : ObjectMeta} {m' : OCMetadataManager}
    (hentry' : m'.metaTable.lookup r.objectKey = some entry') (hcore : entry'.core = entry.core) : r.Keeps entry m' where
  core := ⟨entry',hentry',hcore⟩
  query _ _ _ hinfo := by
    rw [queryMeta_fst hentry' hinfo]
    exact congrArg MetaCore.version hcore

/-- What a request does to an object that exists. -/
structure Outcome (m : OCMetadataManager) (entry : ObjectMeta) (a : CreateAnswer) (r : UpdateRequest)
    (result : Status × OCMetadataManager) : Prop where
  core : ∃ entry', result.2.metaTable.lookup r.objectKey = some entry' ∧
    entry'.core = if r.rewrites m entry a then (r.changedMeta a).core else entry.core
  isOk : r.rewrites m entry a = true → result.1.isOk = r.completes m entry a

variable {m} {entry : ObjectMeta} {a : CreateAnswer} {r : UpdateRequest}

theorem Outcome.of_update {result : Status × OCMetadataManager × ObjectMeta}
    (h : OCMetadataManager.UpdateOutcome r.objectKey m entry (r.changedMeta a) (r.rewrites m entry a)
      (r.completes m entry a) result) :
    r.Outcome m entry a (result.1, result.2.1.setMeta r.objectKey result.2.2) where
  core := ⟨result.2.2,by simp [setMeta],h.core⟩
  isOk := h.isOk

theorem Outcome.of_kept {result : Status × OCMetadataManager} {entry' : ObjectMeta}
    (hentry' : result.2.metaTable.lookup r.objectKey = some entry') (hcore : entry'.core = entry.core)
    (hchecked : r.checked m entry a = false) : r.Outcome m entry a result where
  core := ⟨entry',hentry',by simp [rewrites,hchecked,hcore]⟩
  isOk h := by simp [rewrites,hchecked] at h

variable {objectKey : Bytes}

theorem isOk_checkBinaryFormatParamMatch {nested : OCNestedManager} {prevMeta : ObjectMeta} {config : ConfigPb}
    {nestedObjectKeys : List Bytes}
    (h : (checkBinaryFormatParamMatch nested objectKey prevMeta config nestedObjectKeys).isOk = true) :
    config.dataFormat = .binary := by
  unfold checkBinaryFormatParamMatch at h
  by_contra hformat
  simp [hformat,inconsistentParams,Status.isOk] at h

theorem isOk_checkUpdate {newMeta : ObjectMetaPb} {nestedObjectKeys : List Bytes}
    (h : (m.checkUpdate objectKey entry newMeta nestedObjectKeys).isOk = true) :
    newMeta.config.dataFormat = .binary := by
  unfold checkUpdate at h
  dsimp only at h
  split_ifs at h with hexistence hpending
  · simp [h] at hexistence
  · simp [multiMetaIsCreating,Status.isOk] at h
  · exact isOk_checkBinaryFormatParamMatch h

theorem checked_create_of_format {request : CreateMetaReqPb} (hformat : request.newMeta.config.dataFormat ≠ .binary) :
    (create request).checked m entry a = false := by
  have hcheck : (m.checkUpdate request.objectKey entry request.newMeta request.nestedKeys).isOk = false := by
    by_contra h
    exact hformat (isOk_checkUpdate (by simpa using h))
  simp [checked,hcheck]

theorem metaTable_persistMeta (m : OCMetadataManager) (objectKey : Bytes) (objectMeta : ObjectMetaPb) (type : WriteType)
    (a : UpdateAnswer) : (m.persistMeta objectKey objectMeta type a).2.metaTable = m.metaTable := by
  unfold persistMeta
  dsimp only
  split_ifs <;> rfl

/-- A hash that exists gets one more location, whatever becomes of the entry in the stores. -/
theorem createHashMeta_keeps (hentry : m.metaTable.lookup objectKey = some entry) (newMeta : ObjectMetaPb)
    (address : Bytes) (a : UpdateAnswer) :
    ∃ entry', (m.createHashMeta objectKey newMeta address a).2.metaTable.lookup objectKey = some entry' ∧
      entry'.core = entry.core := by
  rw [createHashMeta,hentry]
  dsimp only
  split_ifs
  · exact ⟨entry,hentry,rfl⟩
  · rw [metaTable_persistMeta]
    exact ⟨_,Finmap.lookup_insert _,rfl⟩

theorem createDeviceMeta_keeps (hentry : m.metaTable.lookup objectKey = some entry) (newMeta : ObjectMetaPb)
    (address : Bytes) (a : UpdateAnswer) : (m.createDeviceMeta objectKey newMeta address a).2 = m := by
  rw [createDeviceMeta,hentry]

theorem outcome_create {request : CreateMetaReqPb} (hentry : m.metaTable.lookup request.objectKey = some entry) :
    (create request).Outcome m entry a (m.createMetaRequest request a) := by
  have hkept (rc : Status) (hchecked : (create request).checked m entry a = false) :
      (create request).Outcome m entry a (rc, m) :=
    .of_kept (r := create request) hentry rfl hchecked
  unfold createMetaRequest createMeta
  split_ifs with hargs hfill hredirected hexpired hheavy hhash hhetero
  · exact hkept _ (by rcases hargs with h | h <;> simp [checked,admitted,h])
  · exact hkept _ (by simp at hfill; simp [checked,admitted,hfill])
  · exact hkept _ (by simp [checked,admitted,hredirected])
  · exact hkept _ (by simp at hexpired; simp [checked,admitted,hexpired])
  · exact hkept _ (by simp at hheavy; simp [checked,hheavy])
  · obtain ⟨entry',hentry',hcore⟩ := createHashMeta_keeps hentry request.newMeta request.address a.toUpdateAnswer
    exact .of_kept (r := create request) hentry' hcore (checked_create_of_format (by simp [hhash]))
  · have hkeeps := createDeviceMeta_keeps hentry request.newMeta request.address a.toUpdateAnswer
    apply Outcome.of_kept (r := create request) _ rfl (checked_create_of_format (by simp [hhetero]))
    rw [hkeeps]
    exact hentry
  · rw [createMetaForBinaryFormat,hentry]
    apply Outcome.of_update
    have hchecked : (create request).checked m entry a =
        (m.checkUpdate request.objectKey entry request.newMeta request.nestedKeys).isOk := by
      simp_all [checked,admitted]
      exact fun _ => imp_iff_not_or.mp hheavy
    rw [rewrites,hchecked]
    exact updateExisting_outcome m request.objectKey entry request.newMeta request.address
      request.nestedKeys a.timestamp a.toUpdateAnswer

theorem outcome_createOfMulti (hentry : m.metaTable.lookup objectKey = some entry) (newMeta : ObjectMeta)
    (address : Bytes) (version : Nat) :
    (createOfMulti objectKey newMeta address version).Outcome m entry a
      (handle m a (createOfMulti objectKey newMeta address version)) := by
  have hresult : handle m a (createOfMulti objectKey newMeta address version) =
      ((m.updateMeta objectKey entry newMeta.objectMeta address version a.toUpdateAnswer).1,
        (m.updateMeta objectKey entry newMeta.objectMeta address version a.toUpdateAnswer).2.1.setMeta objectKey
          (m.updateMeta objectKey entry newMeta.objectMeta address version a.toUpdateAnswer).2.2) := by
    simp [handle,createMetaOfMulti,hentry]
  rw [hresult]
  apply Outcome.of_update
  exact updateExisting_outcome m objectKey entry newMeta.objectMeta address [] version a.toUpdateAnswer

theorem outcome_update {request : UpdateMetaReqPb} (hentry : m.metaTable.lookup request.objectKey = some entry) :
    (update request).Outcome m entry a (m.updateMetaRequest request a.toUpdateAnswer) := by
  have hkept (rc : Status) (hchecked : (update request).checked m entry a = false) :
      (update request).Outcome m entry a (rc, m) :=
    .of_kept (r := update request) hentry rfl hchecked
  rw [updateMetaRequest,hentry]
  dsimp only
  split_ifs with hargs hfill hredirected hexpired hpending hheavy
  · exact hkept _ (by rcases hargs with h | h <;> simp [checked,admitted,h])
  · exact hkept _ (by simp at hfill; simp [checked,admitted,hfill])
  · exact hkept _ (by simp [checked,admitted,hredirected])
  · exact hkept _ (by simp at hexpired; simp [checked,admitted,hexpired])
  · exact hkept _ (by simp [checked,hpending])
  · exact hkept _ (by simp at hheavy; simp [checked,hheavy])
  · apply Outcome.of_update
    have hchecked : (update request).checked m entry a = (m.checkUpdateRequest request entry).isOk := by
      simp_all [checked,admitted]
      exact fun _ => by simpa using imp_iff_not_or.mp hheavy
    rw [rewrites,hchecked]
    exact updateMetaByState_outcome m entry request a.toUpdateAnswer

theorem outcome (hentry : m.metaTable.lookup r.objectKey = some entry) : r.Outcome m entry a (r.handle m a) := by
  cases r with
  | create request => exact outcome_create hentry
  | createOfMulti objectKey newMeta address version => exact outcome_createOfMulti hentry newMeta address version
  | update request => exact outcome_update hentry

end UpdateRequest

/-- A request that fails leaves the version, size, state and primary address of the object, and a query gives no other
version, exactly if the entry is not rewritten, or nothing fails after that, or it is rewritten to what it was. -/
theorem failed_update_keeps_meta_iff (m : OCMetadataManager) (r : UpdateRequest) (entry : ObjectMeta) (a : CreateAnswer)
    (hentry : m.metaTable.lookup r.objectKey = some entry) :
    (¬ (r.handle m a).1.isOk → r.Keeps entry (r.handle m a).2) ↔
      ¬ r.rewrites m entry a ∨ r.completes m entry a ∨ (r.changedMeta a).core = entry.core := by
  have houtcome := UpdateRequest.outcome (a := a) hentry
  obtain ⟨entry',hentry',hcore⟩ := houtcome.core
  cases hrewrites : r.rewrites m entry a
  · rw [hrewrites,if_neg Bool.false_ne_true] at hcore
    simp only [Bool.false_eq_true,not_false_eq_true,true_or,iff_true]
    exact fun _ => UpdateRequest.keeps_of_core hentry' hcore
  · rw [hrewrites,if_pos rfl] at hcore
    rw [houtcome.isOk hrewrites]
    constructor
    · intro hkeeps
      by_cases hcompletes : r.completes m entry a = true
      · exact .inr (.inl hcompletes)
      · obtain ⟨entry'',hentry'',hcore''⟩ := (hkeeps hcompletes).core
        rw [hentry',Option.some.injEq] at hentry''
        rw [← hcore,hentry'',hcore'']
        exact .inr (.inr rfl)
    · rintro (hrefused | hcompletes | hsame) hfails
      · exact absurd rfl hrefused
      · exact absurd hcompletes hfails
      · exact UpdateRequest.keeps_of_core hentry' (hcore.trans hsame)

namespace FailedUpdate

def objectKey : Bytes := [107]

def oldWorker : Bytes := [49]

def newWorker : Bytes := [50]

def config : ConfigPb := { isReplica := true }

def published (address : Bytes) (version : Nat) : ObjectMetaPb :=
  { dataSize := 3, version := version, lifeState := .objectPublished, config := config, primaryAddress := address }

def entry : ObjectMeta := { objectMeta := published oldWorker 5, locations := AList.insert oldWorker .ack ∅ }

def manager : OCMetadataManager := { metaTable := Finmap.insert objectKey entry ∅ }

def request : UpdateRequest := .create ⟨objectKey,{ published newWorker 0 with dataSize := 4 },newWorker,[]⟩

def diskFull : Status := ⟨.ioError,"No space left on device"⟩

/-- RocksDB refuses the new entry. -/
def answer : CreateAnswer := { timestamp := 7, put := { rocks := { status := diskFull } } }

end FailedUpdate

open FailedUpdate in
/-- The request fails, but the object has the new version and size, and a primary address that is no location. A query
gives the new version with the worker that has the old copy. -/
theorem failed_update_pairs_new_version :
    manager.metaTable.lookup request.objectKey = some entry ∧ (request.handle manager answer).1 = diskFull ∧
      (∃ entry', (request.handle manager answer).2.metaTable.lookup request.objectKey = some entry' ∧
        entry'.core = ⟨7,4,.objectPublished,newWorker⟩ ∧ newWorker ∉ entry'.locations) ∧
      (∃ objectMeta, (request.handle manager answer).2.queryMeta objectKey [51] id = some (objectMeta, oldWorker) ∧
        objectMeta.version = 7) := by
  refine ⟨rfl,rfl,⟨_,rfl,rfl,?_⟩,_,rfl,rfl⟩
  decide

open FailedUpdate in
/-- The same request succeeds if RocksDB takes the entry. -/
theorem failed_update_keeps_meta_persisted : manager.metaTable.lookup request.objectKey = some entry ∧
      (¬ (request.handle manager { answer with put := {} }).1.isOk →
        request.Keeps entry (request.handle manager { answer with put := {} }).2) :=
  ⟨rfl,(failed_update_keeps_meta_iff manager request entry { answer with put := {} } rfl).mpr (.inr (.inl rfl))⟩

end Datasystem.Master
