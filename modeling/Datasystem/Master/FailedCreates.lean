import Datasystem.Master.FailedUpdates

/-!
# Creations that fail

A key that had no metadata and could not be created should have none afterwards, neither in memory nor in the
stores.
-/

namespace Datasystem.Master

open OCMetadataManager Finmap ObjectMetaStore StoreTable

namespace OCMetadataManager

def Known (m : OCMetadataManager) (key : Bytes) : Prop := key ∈ m.metaTable ∨ m.objectStore.Holds key

/-- The key can be created: there is no metadata, a query finds nothing, and a request to create the object if it
does not exist succeeds. -/
structure Free (m : OCMetadataManager) (key : Bytes) : Prop where
  unknown : ¬ m.Known key
  query : ∀ sourceWorker shuffle, m.queryMeta key sourceWorker shuffle = none
  create : ∀ (newMeta : ObjectMetaPb) (address : Bytes), key ≠ [] → address ≠ [] →
    (m.createMetaRequest ⟨key,{ newMeta with existence := .nx },address,[]⟩ {}).1.isOk

section Free

variable {m : OCMetadataManager} {key : Bytes}

theorem isOk_persistMeta (m : OCMetadataManager) (objectKey : Bytes) (objectMeta : ObjectMetaPb) (type : WriteType)
    (a : UpdateAnswer) :
    (m.persistMeta objectKey objectMeta type a).1.isOk = (a.serialized && a.put.accepted m.objectStore.config type) := by
  unfold persistMeta
  cases a.serialized <;> simp

@[simp] theorem accepted_default (c : StoreConfig) (type : WriteType) : StoreAnswer.accepted {} c type = true := by
  simp [StoreAnswer.accepted]

theorem isOk_persistCreatedMeta (m : OCMetadataManager) (objectKey : Bytes) (newMeta : ObjectMetaPb) (address : Bytes)
    (version : Nat) (a : CreateAnswer) :
    (m.persistCreatedMeta objectKey newMeta address version a).1.isOk =
      (a.serialized && a.put.accepted m.objectStore.config (writeMode2MetaType newMeta.config.writeMode)) := by
  unfold persistCreatedMeta
  cases hserialized : a.serialized
  · simp
  · cases haccepted : a.put.accepted m.objectStore.config (writeMode2MetaType newMeta.config.writeMode)
    · simp [setMeta,haccepted]
    · simp [setMeta,haccepted]

theorem free_of_not_known (hunknown : ¬ m.Known key) : m.Free key := by
  have hnone : m.metaTable.lookup key = none := by
    rw [lookup_eq_none]
    exact fun h => hunknown (.inl h)
  refine ⟨hunknown,fun _ _ => by simp [queryMeta,hnone],fun newMeta address hkey haddress => ?_⟩
  rw [createMetaRequest,createMeta,if_neg (by simp [hkey,haddress])]
  simp only [isOk_success,Bool.not_true,Bool.false_eq_true,if_false,and_false]
  split_ifs
  · simp [createHashMeta,hnone,isOk_persistMeta]
  · simp [createDeviceMeta,hnone,isOk_persistMeta]
  · simp [createMetaForBinaryFormat,hnone,createMetaFirstTime,isOk_persistCreatedMeta]

end Free

theorem holds_removeMeta {store : ObjectMetaStore} (hpersist : store.config.isPersistenceEnabled = true) (key : Bytes)
    (a : StoreAnswer) :
    (store.removeMeta key true a).2.Holds key ↔ key ∈ store.objectMetas.rocks ∧ a.rocks.effect = false ∨
        key ∈ store.objectMetas.etcd ∧ ¬ (a.rocks.status.isOk = true ∧ store.config.etcdEnable = true ∧
          key ∈ store.objectMetas.etcdKeyMap ∧ a.etcd.effect = true) := by
  have hrocks : (store.removeMeta key true a).2.objectMetas.rocks =
      if a.rocks.effect then store.objectMetas.rocks.erase key else store.objectMetas.rocks := by
    unfold removeMeta removeEtcdKey removeRocksKey
    dsimp only
    split_ifs <;> simp_all
  have hetcd : (store.removeMeta key true a).2.objectMetas.etcd =
      if a.rocks.status.isOk = true ∧ store.config.etcdEnable = true ∧ key ∈ store.objectMetas.etcdKeyMap ∧
        a.etcd.effect = true then store.objectMetas.etcd.erase key else store.objectMetas.etcd := by
    unfold removeMeta removeEtcdKey removeRocksKey
    dsimp only
    split_ifs <;> simp_all
  rw [Holds,hrocks,hetcd]
  apply or_congr
  · cases a.rocks.effect <;> simp
  · split_ifs with h <;> simp [h]

/-- What has been written to the stores is gone again. -/
def undone (m : OCMetadataManager) (objectKey : Bytes) (a : CreateAnswer) : Bool :=
  let rocksLeft := a.put.rocks.effect && !a.removeMeta.rocks.effect
  let etcdRemoved := a.removeMeta.rocks.status.isOk && objectKey ∈ m.objectStore.objectMetas.etcdKeyMap &&
    a.removeMeta.etcd.effect
  let etcdLeft := a.put.rocks.status.isOk && a.put.etcd.effect && !etcdRemoved
  !rocksLeft && !etcdLeft

variable {m : OCMetadataManager} {objectKey : Bytes}

theorem holds_undone (hunknown : ¬ m.objectStore.Holds objectKey) (objectMeta : ObjectMetaPb) (type : WriteType)
    (a : CreateAnswer) (hfails : a.put.accepted m.objectStore.config type = false) :
    ((m.objectStore.createOrUpdateMeta objectKey objectMeta type a.put).2.removeMeta objectKey true a.removeMeta).2.Holds
      objectKey ↔ m.undone objectKey a = false := by
  rw [Holds,not_or] at hunknown
  simp only [StoreAnswer.accepted,Bool.or_eq_false_iff,Bool.not_eq_false',Bool.and_eq_false_iff] at hfails
  obtain ⟨hpersist,hfails⟩ := hfails
  rw [holds_removeMeta (by simpa using hpersist)]
  unfold undone createOrUpdateMeta putToEtcdStore putToRocksStore
  cases hrocks : a.put.rocks.status.isOk
  · cases a.put.rocks.effect <;> simp [hpersist,hrocks,hunknown]
  · have hetcd : a.put.etcd.status.isOk = false ∧ m.objectStore.config.etcdEnable = true ∧ type ≠ .rocksOnly := by
      simp_all
    have heffect : a.put.rocks.effect = true := by simp [WriteAnswer.effect,hrocks]
    cases a.put.etcd.effect
    · simp [hpersist,hrocks,heffect,hetcd,hunknown]
    · cases a.removeMeta.rocks.effect <;> simp [hpersist,hrocks,heffect,hetcd]

theorem known_persistCreatedMeta (hunknown : ¬ m.Known objectKey) (newMeta : ObjectMetaPb) (address : Bytes)
    (version : Nat) (a : CreateAnswer)
    (hfails : (m.persistCreatedMeta objectKey newMeta address version a).1.isOk = false) :
    (m.persistCreatedMeta objectKey newMeta address version a).2.Known objectKey ↔
      a.serialized = true ∧ m.undone objectKey a = false := by
  rw [Known,not_or] at hunknown
  rw [isOk_persistCreatedMeta] at hfails
  unfold persistCreatedMeta
  cases hserialized : a.serialized
  · simp [Known,setMeta,hunknown.2]
  · have haccepted : a.put.accepted m.objectStore.config (writeMode2MetaType newMeta.config.writeMode) = false := by
      simpa [hserialized] using hfails
    have hholds := holds_undone hunknown.2 (setMetaInfo newMeta address version {}).objectMeta
      (writeMode2MetaType newMeta.config.writeMode) a haccepted
    simpa [Known,setMeta,haccepted] using hholds

variable {address : Bytes} {a : CreateAnswer}

theorem mem_persistCreatedMeta {newMeta : ObjectMetaPb} {version : Nat}
    (hok : (m.persistCreatedMeta objectKey newMeta address version a).1.isOk = true) :
    objectKey ∈ (m.persistCreatedMeta objectKey newMeta address version a).2.metaTable := by
  rw [isOk_persistCreatedMeta,Bool.and_eq_true] at hok
  simp [persistCreatedMeta,setMeta,hok.1,hok.2]

theorem metaTable_countNestedKeys (a : CreateAnswer) (ids : List Bytes) (m : OCMetadataManager) :
    (countNestedKeys a ids m).2.1.metaTable = m.metaTable := by
  induction ids generalizing m with
  | nil => rfl
  | cons id ids ih =>
    rw [countNestedKeys]
    split_ifs
    · rfl
    · dsimp only
      split_ifs
      · rfl
      · exact ih _
    · exact ih m

theorem metaTable_handleNestedRefsOnCreate (m : OCMetadataManager) (objectKey : Bytes) (nestedObjectKeys : List Bytes)
    (a : CreateAnswer) : (m.handleNestedRefsOnCreate objectKey nestedObjectKeys a).2.metaTable = m.metaTable := by
  have hset := (keepsOthers_setNestedKeys m objectKey nestedObjectKeys true a.nested).metaTable
  unfold handleNestedRefsOnCreate
  dsimp only
  split_ifs
  · exact hset
  · exact hset
  all_goals rw [metaTable_countNestedKeys,hset]

theorem metaTable_createMetaFirstTime {newMeta : ObjectMetaPb} (nestedObjectKeys : List Bytes) :
    (m.createMetaFirstTime objectKey newMeta address nestedObjectKeys a).2.metaTable =
      (m.persistCreatedMeta objectKey newMeta address a.timestamp a).2.metaTable := by
  unfold createMetaFirstTime
  dsimp only
  split_ifs
  · rfl
  · exact metaTable_handleNestedRefsOnCreate _ _ _ _
  · exact metaTable_handleNestedRefsOnCreate _ _ _ _
  · rfl
  · rfl

/-- The creation of a binary object that had no metadata leaves metadata, unless it could not be persisted and this
has been undone. -/
theorem known_createMetaFirstTime (hunknown : ¬ m.Known objectKey) (newMeta : ObjectMetaPb) (address : Bytes)
    (nestedObjectKeys : List Bytes) (a : CreateAnswer) :
    ¬ (m.createMetaFirstTime objectKey newMeta address nestedObjectKeys a).2.Known objectKey ↔ a.serialized = false ∨
        a.put.accepted m.objectStore.config (writeMode2MetaType newMeta.config.writeMode) = false ∧
          m.undone objectKey a = true := by
  have hpersist := isOk_persistCreatedMeta m objectKey newMeta address a.timestamp a
  cases hok : (m.persistCreatedMeta objectKey newMeta address a.timestamp a).1.isOk
  · have hresult : m.createMetaFirstTime objectKey newMeta address nestedObjectKeys a =
        m.persistCreatedMeta objectKey newMeta address a.timestamp a := by
      simp [createMetaFirstTime,hok]
    rw [hresult,known_persistCreatedMeta hunknown newMeta address a.timestamp a hok]
    rw [hok,eq_comm,Bool.and_eq_false_iff] at hpersist
    cases hserialized : a.serialized
    · simp
    · have haccepted : a.put.accepted m.objectStore.config (writeMode2MetaType newMeta.config.writeMode) = false := by
        simpa [hserialized] using hpersist
      simp [haccepted]
  · have hmem := mem_persistCreatedMeta hok
    rw [← metaTable_createMetaFirstTime nestedObjectKeys] at hmem
    rw [hok,eq_comm,Bool.and_eq_true] at hpersist
    simp [Known,hmem,hpersist]

/-- The request is refused, or handed to another master, before anything is done for its key. -/
def refuses (request : CreateMetaReqPb) (a : CreateAnswer) : Bool :=
  !UpdateRequest.admitted a request.objectKey request.address ||
    (request.newMeta.config.consistencyType = .causal ∧ !a.addHeavyOp)

variable {request : CreateMetaReqPb}

theorem createMetaRequest_of_refuses (h : refuses request a = true) : (m.createMetaRequest request a).2 = m := by
  unfold createMetaRequest createMeta
  split_ifs with hargs hfill hredirected hexpired hheavy
  iterate 5 rfl
  all_goals
    simp only [not_or,Bool.not_eq_true',Bool.not_eq_false] at hargs hfill hexpired hredirected
    simp [refuses,UpdateRequest.admitted,hargs,hfill,hredirected,hexpired] at h
    exact absurd ⟨h.1,by simpa using h.2⟩ hheavy

theorem createMetaRequest_of_admitted (h : refuses request a = false) : m.createMetaRequest request a =
      if request.newMeta.config.dataFormat = .hashMap then
        m.createHashMeta request.objectKey request.newMeta request.address a.toUpdateAnswer
      else if request.newMeta.config.dataFormat = .hetero then
        m.createDeviceMeta request.objectKey request.newMeta request.address a.toUpdateAnswer
      else m.createMetaForBinaryFormat request.objectKey request.newMeta request.address request.nestedKeys a := by
  simp only [refuses,UpdateRequest.admitted,Bool.or_eq_false_iff,Bool.not_eq_false',decide_eq_true_eq,
    decide_eq_false_iff_not,Bool.not_eq_true'] at h
  obtain ⟨⟨hkey,haddress,hfill,hredirected,hexpired⟩,hheavy⟩ := h
  simp [createMetaRequest,createMeta,hkey,haddress,hfill,hredirected,hexpired,hheavy]

/-- The key of a request for one object has no metadata after it. -/
def leavesNoMeta (m : OCMetadataManager) (request : CreateMetaReqPb) (a : CreateAnswer) : Bool :=
  let c := request.newMeta.config
  refuses request a || c.dataFormat ≠ .hashMap && c.dataFormat ≠ .hetero &&
    (!a.serialized || !a.put.accepted m.objectStore.config (writeMode2MetaType c.writeMode) && m.undone request.objectKey a)

theorem not_known_createMetaRequest (hunknown : ¬ m.Known request.objectKey) (a : CreateAnswer) :
    ¬ (m.createMetaRequest request a).2.Known request.objectKey ↔ m.leavesNoMeta request a = true := by
  have hnone : m.metaTable.lookup request.objectKey = none := by
    rw [lookup_eq_none]
    exact fun h => hunknown (.inl h)
  cases hrefuses : refuses request a
  · rw [createMetaRequest_of_admitted hrefuses]
    split_ifs with hhash hhetero
    · simp [leavesNoMeta,hrefuses,hhash,createHashMeta,hnone,Known,UpdateRequest.metaTable_persistMeta,setMeta]
    · simp [leavesNoMeta,hrefuses,hhetero,createDeviceMeta,hnone,Known,UpdateRequest.metaTable_persistMeta,setMeta]
    · have hresult : m.createMetaForBinaryFormat request.objectKey request.newMeta request.address request.nestedKeys a =
          m.createMetaFirstTime request.objectKey request.newMeta request.address request.nestedKeys a := by
        simp [createMetaForBinaryFormat,hnone]
      rw [hresult,known_createMetaFirstTime hunknown]
      simp [leavesNoMeta,hrefuses,hhash,hhetero]
  · rw [createMetaRequest_of_refuses hrefuses]
    simp [leavesNoMeta,hrefuses,hunknown]

/-- The roll back skips such an entry. -/
def Stays (address : Bytes) (entry : ObjectMeta) : Prop :=
  entry.multiSetState = .idle ∧ (entry.objectMeta.primaryAddress ≠ address ∨ entry.objectMeta.version ≠ 0)

theorem stays_of_core {entry entry' : ObjectMeta} (h : Stays address entry) (hcore : entry'.core = entry.core)
    (hstate : entry'.multiSetState = entry.multiSetState) : Stays address entry' := by
  refine ⟨hstate.trans h.1,?_⟩
  rw [show entry'.objectMeta.primaryAddress = entry.objectMeta.primaryAddress from congrArg MetaCore.primaryAddress hcore,
    show entry'.objectMeta.version = entry.objectMeta.version from congrArg MetaCore.version hcore]
  exact h.2

theorem stays_of_version {entry : ObjectMeta} (hidle : entry.multiSetState = .idle)
    (hversion : entry.core.version ≠ 0) : Stays address entry :=
  ⟨hidle,.inr hversion⟩

theorem keepsOthers_persistMeta (m : OCMetadataManager) (objectKey : Bytes) (objectMeta : ObjectMetaPb) (type : WriteType)
    (a : UpdateAnswer) : KeepsOthers objectKey m (m.persistMeta objectKey objectMeta type a).2 := by
  unfold persistMeta
  dsimp only
  split_ifs
  · exact .refl objectKey m
  · exact ⟨rfl,writesOnly_createOrUpdateMeta _ _ _ _ _⟩

/-- One key of a request sets the entry of this key and writes no other. -/
structure SetsKey (address objectKey : Bytes) (m m' : OCMetadataManager) : Prop where
  entry : ∃ entry, m'.metaTable = m.metaTable.insert objectKey entry ∧
    ((∀ old, m.metaTable.lookup objectKey = some old → Stays address old) → Stays address entry)
  store : m.objectStore.WritesOnly objectKey m'.objectStore

theorem setsKey_createMetaOfMulti (m : OCMetadataManager) (objectKey : Bytes) (newMeta : ObjectMeta) {version : Nat}
    (a : UpdateAnswer) (haddress : address ≠ []) (hversion : version ≠ 0) (hidle : newMeta.multiSetState = .idle)
    (hnew : newMeta.objectMeta.version = version) :
    SetsKey address objectKey m (m.createMetaOfMulti objectKey newMeta address version a).2.2 := by
  unfold createMetaOfMulti
  cases hlookup : m.metaTable.lookup objectKey with
  | some entry =>
    have houtcome := updateExisting_outcome m objectKey entry newMeta.objectMeta address [] version a
    refine ⟨⟨_,congrArg (insert objectKey _) houtcome.others.metaTable,fun hold => ?_⟩,houtcome.others.store⟩
    have hcore := houtcome.core
    split_ifs at hcore
    · exact stays_of_version (houtcome.multiSetState.trans (hold entry hlookup).1)
        ((congrArg MetaCore.version hcore).trans_ne hversion)
    · exact stays_of_core (hold entry hlookup) hcore houtcome.multiSetState
  | none =>
    have hstays : Stays address ({} : ObjectMeta) := ⟨rfl,.inl haddress.symm⟩
    have hstays' : Stays address newMeta := ⟨hidle,.inr (hnew ▸ hversion)⟩
    have hpersist := keepsOthers_persistMeta (m.setMeta objectKey {}) objectKey newMeta.objectMeta
      (writeMode2MetaType newMeta.objectMeta.config.writeMode) a
    have htable : ((m.setMeta objectKey {}).persistMeta objectKey newMeta.objectMeta
        (writeMode2MetaType newMeta.objectMeta.config.writeMode) a).2.metaTable = m.metaTable.insert objectKey {} :=
      hpersist.metaTable
    dsimp only
    split_ifs
    · exact ⟨⟨_,htable,fun _ => hstays⟩,hpersist.store⟩
    · exact ⟨⟨newMeta,by rw [setMeta,htable,insert_insert],fun _ => hstays'⟩,hpersist.store⟩
    · exact ⟨⟨_,rfl,fun _ => hstays⟩,.refl objectKey m.objectStore⟩
    · exact ⟨⟨newMeta,by simp [setMeta],fun _ => hstays'⟩,.refl objectKey m.objectStore⟩

/-- What holds in every round of the loop: the entries of new keys are skipped by the roll back, the keys that have
failed have entries, and there is nothing new about the empty key. -/
structure LoopInv (m₀ : OCMetadataManager) (address : Bytes) (l : MultiLoop) : Prop where
  stays : ∀ k entry, k ∉ m₀.metaTable → l.manager.metaTable.lookup k = some entry → Stays address entry
  failed : ∀ k ∈ l.rsp.failedObjectKeys, k ≠ [] → k ∈ l.manager.metaTable
  empty : l.manager.Known [] ↔ m₀.Known []

section Loop

variable {m₀ : OCMetadataManager} {address : Bytes} {l : MultiLoop}

theorem LoopInv.setsKey (h : LoopInv m₀ address l) {objectKey : Bytes} (hkey : objectKey ≠ []) {m' : OCMetadataManager}
    (hsets : SetsKey address objectKey l.manager m') (existing : List Bytes) (rollBackIds : List Bytes) (lastRc : Status)
    {failed : List Bytes} (hfailed : ∀ k ∈ failed, k ∈ l.rsp.failedObjectKeys ∨ k = objectKey) :
    LoopInv m₀ address ⟨m',⟨failed,existing,lastRc⟩,rollBackIds⟩ := by
  obtain ⟨entry,htable,hstays⟩ := hsets.entry
  refine ⟨fun k e hnew hlookup => ?_,fun k hk hne => ?_,?_⟩
  · dsimp only at hlookup
    rw [htable] at hlookup
    by_cases hk : k = objectKey
    · subst hk
      rw [lookup_insert,Option.some.injEq] at hlookup
      exact hlookup ▸ hstays fun old hold => h.stays k old hnew hold
    · rw [lookup_insert_of_ne _ hk] at hlookup
      exact h.stays k e hnew hlookup
  · dsimp only
    rw [htable,mem_insert]
    rcases hfailed k hk with hold | hkey'
    · exact .inr (h.failed k hold hne)
    · exact .inl hkey'
  · rw [← h.empty]
    simp only [Known,htable,mem_insert,hkey.symm,false_or,hsets.store.holds [] hkey.symm]

theorem LoopInv.round (h : LoopInv m₀ address l) {req : CreateMultiMetaReqPb} (haddress : req.address = address)
    (hne : address ≠ []) (version : ℕ+) (info : ObjectBaseInfoPb) (a : UpdateAnswer) :
    LoopInv m₀ address (createMultiRound req version l info a) := by
  subst haddress
  unfold createMultiRound
  split_ifs with hkey
  · refine ⟨h.stays,fun k hk hk' => h.failed k ?_ hk',h.empty⟩
    simpa [hkey,hk'] using hk
  · have hsets := setsKey_createMetaOfMulti l.manager info.objectKey
      { objectMeta := req.constructMetaInfo info version, locations := AList.insert req.address .ack ∅ } a hne version.ne_zero rfl rfl
    dsimp only
    split_ifs
    · exact h.setsKey hkey hsets _ _ _ fun k hk => .inl hk
    · exact h.setsKey hkey hsets _ _ _ fun k hk => by simpa using hk
    · exact h.setsKey hkey hsets _ _ _ fun k hk => by simpa using hk
    · exact h.setsKey hkey hsets _ _ _ fun k hk => .inl hk

theorem LoopInv.loop {req : CreateMultiMetaReqPb} (haddress : req.address = address) (hne : address ≠ []) (version : ℕ+)
    (answer : Nat → UpdateAnswer) (infos : List ObjectBaseInfoPb) (i : Nat) (h : LoopInv m₀ address l) :
    LoopInv m₀ address (createMultiLoop req version answer infos i l) := by
  induction infos generalizing i l with
  | nil => exact h
  | cons info infos ih => exact ih (i + 1) (h.round haddress hne version info (answer i))

end Loop

section RollBack

/-- The roll back leaves the stores, adds no entry and skips those that stay. -/
structure RollsBack (address : Bytes) (m m' : OCMetadataManager) : Prop where
  store : m'.objectStore = m.objectStore
  mem : ∀ k ∈ m'.metaTable, k ∈ m.metaTable
  stays : ∀ k entry, m.metaTable.lookup k = some entry → Stays address entry → m'.metaTable.lookup k = some entry

variable {address : Bytes} {m m' : OCMetadataManager}

theorem rollsBack_rollBackMeta (address : Bytes) (m : OCMetadataManager) (objKey : Bytes) :
    RollsBack address m (rollBackMeta address 0 m objKey) := by
  unfold rollBackMeta
  split
  · exact ⟨rfl,fun _ h => h,fun _ _ h _ => h⟩
  · next entry hentry =>
    split_ifs with hmatch
    · refine ⟨rfl,fun k hk => (mem_erase.mp hk).2,fun k e he hstays => ?_⟩
      rw [lookup_erase_ne,he]
      rintro rfl
      rw [hentry,Option.some.injEq] at he
      subst he
      rcases hmatch.2 with hpending | hzero
      · rw [hstays.1] at hpending
        cases hpending
      · exact hstays.2.elim (fun h => h hmatch.1) fun h => h hzero
    · exact ⟨rfl,fun _ h => h,fun _ _ h _ => h⟩

theorem rollsBack_rollBackMultiMeta (rollBackIds : List Bytes) (address : Bytes) (m : OCMetadataManager) :
    RollsBack address m (m.rollBackMultiMetaWhenCreateFailed rollBackIds address) := by
  unfold rollBackMultiMetaWhenCreateFailed
  induction rollBackIds generalizing m with
  | nil => exact ⟨rfl,fun _ h => h,fun _ _ h _ => h⟩
  | cons id ids ih =>
    have hfirst := rollsBack_rollBackMeta address m id
    have hrest := ih (rollBackMeta address 0 m id)
    exact ⟨hrest.store.trans hfirst.store,fun k hk => hfirst.mem k (hrest.mem k hk),
      fun k entry h hstays => hrest.stays k entry (hfirst.stays k entry h hstays) hstays⟩

end RollBack

/-- After a request for many keys, those that are new and have failed have metadata, apart from the empty key. -/
theorem known_createMultiMeta {req : CreateMultiMetaReqPb} {a : MultiAnswer} {key : Bytes} (hunknown : ¬ m.Known key)
    (hfailed : key ∈ (m.createMultiMeta req a).2.1.failedObjectKeys) :
    (m.createMultiMeta req a).2.2.Known key ↔ key ≠ [] := by
  unfold createMultiMeta createMultiMetaNtx at hfailed ⊢
  split_ifs at hfailed ⊢ with hfill hredirected haddress
  · simp at hfailed
  · simp at hfailed
  · simp at hfailed
  · dsimp only at hfailed ⊢
    have hinit : LoopInv m req.address ⟨m,{},[]⟩ := by
      refine ⟨fun k entry hnew hlookup => ?_,by simp,Iff.rfl⟩
      exact absurd (mem_of_lookup_eq_some hlookup) hnew
    have hloop := hinit.loop rfl haddress a.timestamp a.key req.metas 0
    have hback := rollsBack_rollBackMultiMeta
      (createMultiLoop req a.timestamp a.key req.metas 0 ⟨m,{},[]⟩).rollBackIds req.address
      (createMultiLoop req a.timestamp a.key req.metas 0 ⟨m,{},[]⟩).manager
    constructor
    · rintro hknown rfl
      apply hunknown
      rw [← hloop.empty]
      exact hknown.imp (hback.mem []) fun h => hback.store ▸ h
    · intro hne
      obtain ⟨entry,hentry⟩ := mem_iff.mp (hloop.failed key hfailed hne)
      have hstays := hloop.stays key entry (fun h => hunknown (.inl h)) hentry
      exact .inl (mem_of_lookup_eq_some (hback.stays key entry hentry hstays))

end OCMetadataManager

/-- A request to create objects, and how the other components answer to it. -/
inductive CreateRequest where
  | single (request : CreateMetaReqPb) (answer : CreateAnswer)
  | multi (req : CreateMultiMetaReqPb) (answer : MultiAnswer)

namespace CreateRequest

def result (m : OCMetadataManager) : CreateRequest → OCMetadataManager
  | single request a => (m.createMetaRequest request a).2
  | multi req a => (m.createMultiMeta req a).2.2

def ReportsFailed (m : OCMetadataManager) (key : Bytes) : CreateRequest → Prop
  | single request a => key = request.objectKey ∧ (m.createMetaRequest request a).1.isOk = false
  | multi req a =>
    (m.createMultiMeta req a).1.isOk = false ∧ key ∈ req.metas.map (·.objectKey) ∨
      key ∈ (m.createMultiMeta req a).2.1.failedObjectKeys

/-- Nothing has to be taken back, or a request for one key does take it back. -/
def TakesBack (m : OCMetadataManager) : CreateRequest → Prop
  | single request a =>
    m.Known request.objectKey ∨ (m.createMetaRequest request a).1.isOk = true ∨ m.leavesNoMeta request a = true
  | multi req a => ∀ key ∈ (m.createMultiMeta req a).2.1.failedObjectKeys, key ≠ [] → m.Known key

end CreateRequest

theorem OCMetadataManager.createMultiMeta_of_error {m : OCMetadataManager} {req : CreateMultiMetaReqPb} {a : MultiAnswer}
    (h : (m.createMultiMeta req a).1.isOk = false) : (m.createMultiMeta req a).2.2 = m := by
  unfold createMultiMeta createMultiMetaNtx at h ⊢
  split_ifs at h ⊢ <;> simp_all

/-- The keys that had no metadata and are reported as failed can be created again, exactly if the request had nothing
to take back or has taken it back. In a request for many keys no key may be reported that had no metadata, apart from
the empty one. -/
theorem failed_creates_leave_nothing_iff (m : OCMetadataManager) (r : CreateRequest) :
    (∀ key, ¬ m.Known key → r.ReportsFailed m key → (r.result m).Free key) ↔ r.TakesBack m := by
  cases r with
  | single request a =>
    constructor
    · intro hfree
      by_cases hknown : m.Known request.objectKey
      · exact .inl hknown
      · cases hok : (m.createMetaRequest request a).1.isOk
        · have hunknown := (hfree request.objectKey hknown ⟨rfl,hok⟩).unknown
          exact .inr (.inr ((not_known_createMetaRequest hknown a).mp hunknown))
        · exact .inr (.inl hok)
    · rintro htakes key hunknown ⟨rfl,hfails⟩
      rcases htakes with hknown | hok | hleaves
      · exact absurd hknown hunknown
      · rw [hfails] at hok
        cases hok
      · exact free_of_not_known ((not_known_createMetaRequest hunknown a).mpr hleaves)
  | multi req a =>
    constructor
    · intro hfree key hfailed hne
      by_contra hunknown
      exact (hfree key hunknown (.inr hfailed)).unknown ((known_createMultiMeta hunknown hfailed).mpr hne)
    · intro htakes key hunknown hreports
      apply free_of_not_known
      rcases hreports with ⟨hfails,-⟩ | hfailed
      · rw [CreateRequest.result,createMultiMeta_of_error hfails]
        exact hunknown
      · intro hknown
        have hne := (known_createMultiMeta hunknown hfailed).mp hknown
        exact hunknown (htakes key hfailed hne)

namespace FailedCreate

def objectKey : Bytes := [107]

def worker : Bytes := [49]

/-- The object is to be written through to the second level cache. -/
def request : CreateMultiMetaReqPb :=
  { metas := [{ objectKey := objectKey, dataSize := 3 }], address := worker, config := { writeMode := .writeThroughL2Cache } }

def diskFull : Status := ⟨.ioError,"No space left on device"⟩

/-- RocksDB refuses the entry of the key. -/
def answer : MultiAnswer := { timestamp := ⟨7,by decide⟩, key := fun _ => { put := { rocks := { status := diskFull } } } }

/-- The same object is created again if it does not exist. -/
def again : CreateMetaReqPb :=
  ⟨objectKey,{ dataSize := 3, lifeState := .objectPublished, config := request.config, existence := .nx },worker,[]⟩

end FailedCreate

open FailedCreate in
/-- The key is reported as failed, but an empty entry is left in memory, which a query finds. The object cannot be
created, as its configuration is not that of the empty entry. -/
theorem failed_create_leaves_empty_entry : ¬ ({} : OCMetadataManager).Known objectKey ∧
      (createMultiMeta {} request answer).2.1.failedObjectKeys = [objectKey] ∧
      (createMultiMeta {} request answer).2.2.Known objectKey ∧
      (createMultiMeta {} request answer).2.2.queryMeta objectKey [50] id = some ({}, []) ∧
      ((createMultiMeta {} request answer).2.2.createMetaRequest again {}).1 =
        inconsistentParams := by
  refine ⟨?_,rfl,.inl ?_,rfl,rfl⟩
  · rintro (h | h | h) <;> exact notMem_empty h
  · decide

end Datasystem.Master
