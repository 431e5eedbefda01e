import Datasystem.Master.PrimaryCopy

/-!
# The primary address is a location

After any sequence of requests the primary address of an object should be one of its locations, if it has any,
and no request should drop the last acknowledged copy on a worker that stays and report success.
-/

namespace Datasystem.Master

open List Option AList

/-! ## Steps -/

/-- What happens to an object. The workers that are leaving are given where the request does not ask for them. -/
inductive PrimaryStep where
  | giveUp (address : Bytes) (topologyOperation : Bool) (a : GiveUpAnswer)
  | invalidateBuffer (address : Bytes) (primaryHealthy : Bool) (removeLocation : WriteAnswer) (leaving : Bytes → Bool)
  | removeWorker (workerAddr : Bytes) (a : OCMetadataManager.RemoveWorkerAnswer) (leaving : Bytes → Bool)
  /-- In the background a worker has confirmed that it is primary. -/
  | confirmed (workerId : Bytes) (primaryHealthy : Bool) (write : WriteEntryAnswer) (op : PersistOpAnswer)

namespace PrimaryStep

variable (objectKey : Bytes)

def next (m : OCMetadataManager) : PrimaryStep → OCMetadataManager
  | giveUp address topologyOperation a => (m.giveUpPrimaryLocation objectKey address topologyOperation a).2.2
  | invalidateBuffer address primaryHealthy removeLocation _ =>
    (m.removeMetaForInvalidateBuffer objectKey address primaryHealthy removeLocation).2
  | removeWorker workerAddr a _ => (m.removeMetaByWorkerForKey objectKey workerAddr a).2
  | confirmed workerId primaryHealthy write op => m.modifyPrimaryCopy objectKey workerId primaryHealthy write op

def reportsSuccess (m : OCMetadataManager) : PrimaryStep → Bool
  | giveUp address topologyOperation a =>
    (m.giveUpPrimaryLocation objectKey address topologyOperation a).2.1.successIds
  | invalidateBuffer address primaryHealthy removeLocation _ =>
    (m.removeMetaForInvalidateBuffer objectKey address primaryHealthy removeLocation).1.successIds
  | removeWorker workerAddr a _ => (m.removeMetaByWorkerForKey objectKey workerAddr a).1.isOk
  | confirmed _ _ _ _ => false

def leaving : PrimaryStep → Bytes → Bool
  | giveUp _ _ a, address => match a.preLeaving address with
    | .ok isPreLeaving => isPreLeaving
    | .error _ => false
  | invalidateBuffer _ _ _ leaving, address => leaving address
  | removeWorker _ _ leaving, address => leaving address
  | confirmed _ _ _ _, _ => false

end PrimaryStep

namespace OCMetadataManager

variable (objectKey : Bytes)

def PrimaryLocated (m : OCMetadataManager) : Prop :=
  ∀ entry, m.metaTable.lookup objectKey = some entry → entry.locations.keys ≠ [] →
    entry.objectMeta.primaryAddress ∈ entry.locations

/-- The empty address is no worker. -/
def LocationsNamed (m : OCMetadataManager) : Prop :=
  ∀ entry, m.metaTable.lookup objectKey = some entry → [] ∉ entry.locations

/-- A worker that stays has an acknowledged copy. -/
def HasCopy (leaving : Bytes → Bool) (m : OCMetadataManager) : Prop :=
  ∃ entry address, m.metaTable.lookup objectKey = some entry ∧ entry.locations.lookup address = some .ack ∧
    leaving address = false

end OCMetadataManager

open OCMetadataManager

namespace PrimaryStep

variable (objectKey : Bytes)

/-- The last copy on a worker that stays is not dropped with success. -/
def KeepsLastCopy (m : OCMetadataManager) (s : PrimaryStep) : Prop :=
  s.reportsSuccess objectKey m = true → m.HasCopy objectKey s.leaving → (s.next objectKey m).HasCopy objectKey s.leaving

def retryPrimary (topologyOperation : Bool) (a : GiveUpAnswer) (worker : Bytes) (locations : List Bytes) : Option Bytes :=
  if !a.earlierRetry.isOk then none
  else
    match selectAgreeing a.preLeavingAtRetry a.agreesAtRetry worker locations with
    | .ok (some addr) => if a.exitingAtRetry && !topologyOperation then none else some addr
    | _ => none

/-- The worker that becomes primary after one has been chosen and the location has been dropped. -/
def newPrimary (topologyOperation : Bool) (a : GiveUpAnswer) (worker : Bytes) (locations : List Bytes) : Option Bytes :=
  if !a.later.isOk then none
  else if a.agrees worker then if a.exitingAtChange && !topologyOperation then none else some worker
  else retryPrimary topologyOperation a worker locations

/-- Another worker that stays has an acknowledged copy. -/
def OtherCopy (leaving : Bytes → Bool) (entry : ObjectMeta) (address : Bytes) : Prop :=
  ∃ other, other ≠ address ∧ entry.locations.lookup other = some .ack ∧ leaving other = false

def chosen (m : OCMetadataManager) (address : Bytes) (topologyOperation : Bool) (a : GiveUpAnswer) : Option Bytes :=
  if a.earlier.isOk then (m.processGiveUpPrimaryObject objectKey address topologyOperation a).2.2.1 else none

/-- When a step keeps the primary address among the locations, and the last copy. -/
def Safe (m : OCMetadataManager) (entry : ObjectMeta) : PrimaryStep → Prop
  | giveUp address topologyOperation a => ∀ worker, chosen objectKey m address topologyOperation a = some worker →
    entry.objectMeta.primaryAddress = address →
      (newPrimary topologyOperation a worker (entry.eraseLocation address).locations.keys).isSome
  | invalidateBuffer address primaryHealthy removeLocation leaving =>
    1 < entry.locations.keys.length → entry.objectMeta.primaryAddress = address →
      (m.objectStore.removeObjectLocation objectKey address removeLocation).1.isOk = true ∧ primaryHealthy = false ∧
        (m.HasCopy objectKey leaving → OtherCopy leaving entry address)
  | removeWorker workerAddr a leaving =>
    (entry.objectMeta.primaryAddress = workerAddr → (entry.eraseLocation workerAddr).locations.keys ≠ [] →
      a.primaryHealthy = false) ∧
      ((m.removeMetaByWorkerForKey objectKey workerAddr a).1.isOk = true → m.HasCopy objectKey leaving →
        OtherCopy leaving entry workerAddr)
  | confirmed workerId primaryHealthy _ _ =>
    primaryHealthy = false → entry.locations.keys ≠ [] → workerId ∈ entry.locations

end PrimaryStep

/-! ## Selection of a location -/

section Selection

variable {preLeaving : Bytes → LeavingAnswer} {address : Bytes}

theorem exists_of_allCopyIsExitingNode {locs : List (Sigma fun _ : Bytes => AckState)}
    (h : allCopyIsExitingNode preLeaving address locs = .ok false) :
    ∃ loc ∈ locs, loc.1 ≠ address ∧ loc.2 = .ack ∧ preLeaving loc.1 = .ok false := by
  induction locs with
  | nil => simp [allCopyIsExitingNode] at h
  | cons loc locs ih =>
    rw [allCopyIsExitingNode] at h
    split_ifs at h with hskip
    · obtain ⟨loc',hmem,hrest⟩ := ih h
      exact ⟨loc',mem_cons_of_mem _ hmem,hrest⟩
    · rw [not_or,not_not] at hskip
      cases hleaving : preLeaving loc.1 with
      | error e => simp [hleaving] at h
      | ok isPreLeaving =>
        cases isPreLeaving with
        | false => exact ⟨loc,mem_cons_self,hskip.1,hskip.2,hleaving⟩
        | true =>
          rw [hleaving] at h
          obtain ⟨loc',hmem,hrest⟩ := ih h
          exact ⟨loc',mem_cons_of_mem _ hmem,hrest⟩

variable {locations : List Bytes}

theorem mem_of_selectOther {location : Bytes}
    (h : selectOther preLeaving address locations = .ok (some location)) : location ∈ locations ∧ location ≠ address := by
  induction locations with
  | nil => simp [selectOther] at h
  | cons first locations ih =>
    rw [selectOther] at h
    split_ifs at h with hskip
    · exact ⟨mem_cons_of_mem _ (ih h).1,(ih h).2⟩
    · cases hleaving : preLeaving first with
      | error e => simp [hleaving] at h
      | ok isPreLeaving =>
        rw [hleaving] at h
        cases isPreLeaving with
        | false =>
          simp only [Except.ok.injEq,some.injEq] at h
          exact h ▸ ⟨mem_cons_self,hskip⟩
        | true => exact ⟨mem_cons_of_mem _ (ih h).1,(ih h).2⟩

theorem mem_of_selectAgreeing {agrees : Bytes → Bool} {location : Bytes}
    (h : selectAgreeing preLeaving agrees address locations = .ok (some location)) : location ∈ locations := by
  induction locations with
  | nil => simp [selectAgreeing] at h
  | cons first locations ih =>
    rw [selectAgreeing] at h
    by_cases hskip : first = address
    · rw [if_pos hskip] at h
      exact mem_cons_of_mem _ (ih h)
    · rw [if_neg hskip] at h
      cases hleaving : preLeaving first with
      | error e => simp [hleaving] at h
      | ok isPreLeaving =>
        rw [hleaving] at h
        cases isPreLeaving with
        | false =>
          dsimp only at h
          split_ifs at h
          · simp only [Except.ok.injEq,some.injEq] at h
            exact h ▸ mem_cons_self
          · exact mem_cons_of_mem _ (ih h)
        | true => exact mem_cons_of_mem _ (ih h)

end Selection

/-! ## Giving up a location -/

namespace PrimaryStep

variable {objectKey : Bytes} {m : OCMetadataManager} {entry : ObjectMeta}

section GiveUp

variable {address : Bytes} {topologyOperation : Bool} {a : GiveUpAnswer} {worker : Bytes}

@[simp] theorem lookup_changePrimaryCopy (hentry : m.metaTable.lookup objectKey = some entry) (primaryAddr : Bytes)
    (exiting : Bool) (w : WriteEntryAnswer) :
    (m.changePrimaryCopy primaryAddr objectKey topologyOperation exiting w).2.metaTable.lookup objectKey =
      some (if exiting && !topologyOperation then entry else entry.setPrimaryAddress primaryAddr) := by
  rw [changePrimaryCopy,hentry]
  split_ifs
  · exact hentry
  · simp [writeEntry,setMeta]

@[simp] theorem isOk_changePrimaryCopy (primaryAddr : Bytes) (exiting : Bool) (w : WriteEntryAnswer) :
    (m.changePrimaryCopy primaryAddr objectKey topologyOperation exiting w).1.isOk = !(exiting && !topologyOperation) := by
  unfold changePrimaryCopy
  split_ifs with h
  · rw [h]
    rfl
  · rw [Bool.not_eq_true] at h
    rw [h]
    split <;> rfl

/-- What has been found out when a worker is chosen. -/
structure Chosen (entry : ObjectMeta) (address : Bytes) (topologyOperation : Bool) (a : GiveUpAnswer) (worker : Bytes) :
    Prop where
  stays : (a.exiting && !topologyOperation) = false
  copies : isPrimaryCopyWithCopy a.preLeaving entry address = .ok false
  noL2Cache : ¬ (entry.objectMeta.primaryAddress = address ∧ entry.hasL2Cache = true)
  select : selectOther a.preLeaving address entry.locations.keys = .ok (some worker)

theorem processGiveUp_of_none (h : (m.processGiveUpPrimaryObject objectKey address topologyOperation a).2.2.1 = none) :
    (m.processGiveUpPrimaryObject objectKey address topologyOperation a).2.2.2 = m := by
  unfold processGiveUpPrimaryObject at h ⊢
  split_ifs at h ⊢
  · rfl
  · split at h
    · rfl
    · split at h
      · rfl
      · split_ifs at h ⊢
        · rfl
        · rfl
        · split at h
          · rfl
          · rfl
          · simp at h

variable (hentry : m.metaTable.lookup objectKey = some entry)

include hentry

theorem chosen_of_processGiveUp
    (h : (m.processGiveUpPrimaryObject objectKey address topologyOperation a).2.2.1 = some worker) :
    Chosen entry address topologyOperation a worker := by
  unfold processGiveUpPrimaryObject at h
  rw [hentry] at h
  split_ifs at h with hexiting
  dsimp only at h
  cases hcopies : isPrimaryCopyWithCopy a.preLeaving entry address with
  | error e => simp [hcopies] at h
  | ok isPrimaryWithoutCopy =>
    rw [hcopies] at h
    dsimp only at h
    split_ifs at h with hl2 hwithout
    cases hselect : selectOther a.preLeaving address entry.locations.keys with
    | error e => simp [hselect] at h
    | ok location =>
      cases location with
      | none => simp [hselect] at h
      | some location =>
        simp only [hselect,some.injEq] at h
        subst h
        rw [Bool.not_eq_true] at hexiting hwithout
        subst hwithout
        exact ⟨hexiting,hcopies,hl2,hselect⟩

theorem processGiveUp_of_chosen (h : Chosen entry address topologyOperation a worker) :
    ∃ store, m.processGiveUpPrimaryObject objectKey address topologyOperation a =
      (.success, {}, some worker, { m.setMeta objectKey (entry.eraseLocation address) with objectStore := store }) := by
  refine ⟨(m.objectStore.removeObjectLocation objectKey address a.removeLocation).2,?_⟩
  simp [processGiveUpPrimaryObject,hentry,h.stays,h.copies,h.noL2Cache,h.select,setMeta]

theorem retryForFailedIds_spec :
    (m.retryForFailedIds objectKey worker topologyOperation a).2.2.metaTable.lookup objectKey =
        some ((retryPrimary topologyOperation a worker entry.locations.keys).elim entry entry.setPrimaryAddress) ∧
      (m.retryForFailedIds objectKey worker topologyOperation a).2.1.successIds =
        (retryPrimary topologyOperation a worker entry.locations.keys).isSome := by
  rw [retryForFailedIds,retryPrimary,hentry]
  cases hearlier : a.earlierRetry.isOk
  · simp [hentry]
  · dsimp only
    cases hselect : selectAgreeing a.preLeavingAtRetry a.agreesAtRetry worker entry.locations.keys with
    | error e => simp [hentry]
    | ok location =>
      cases location with
      | none => simp [hentry]
      | some addr => cases hexit : (a.exitingAtRetry && !topologyOperation) <;> simp [hentry,hexit]

omit hentry

theorem giveUp_of_chosen_none (h : chosen objectKey m address topologyOperation a = none) :
    (giveUp address topologyOperation a).next objectKey m = m := by
  unfold chosen at h
  change (m.giveUpPrimaryLocation objectKey address topologyOperation a).2.2 = m
  unfold giveUpPrimaryLocation
  split_ifs at h with hearlier
  · have hsame := processGiveUp_of_none h
    rw [hearlier]
    generalize m.processGiveUpPrimaryObject objectKey address topologyOperation a = r at h hsame
    obtain ⟨rc,rsp,worker,m'⟩ := r
    simp only at h hsame ⊢
    subst h hsame
    split_ifs <;> rfl
  · simp [hearlier]

/-- What becomes of the object and what is reported when a worker has been chosen. -/
theorem giveUp_of_chosen (hentry : m.metaTable.lookup objectKey = some entry)
    (h : chosen objectKey m address topologyOperation a = some worker) :
    ((giveUp address topologyOperation a).next objectKey m).metaTable.lookup objectKey =
        some ((newPrimary topologyOperation a worker (entry.eraseLocation address).locations.keys).elim
          (entry.eraseLocation address) (entry.eraseLocation address).setPrimaryAddress) ∧
      (giveUp address topologyOperation a).reportsSuccess objectKey m =
        (newPrimary topologyOperation a worker (entry.eraseLocation address).locations.keys).isSome := by
  unfold chosen at h
  split_ifs at h with hearlier
  have hchosen := chosen_of_processGiveUp hentry h
  obtain ⟨store,hprocess⟩ := processGiveUp_of_chosen hentry hchosen
  have hlookup : ({ m.setMeta objectKey (entry.eraseLocation address) with objectStore := store } :
      OCMetadataManager).metaTable.lookup objectKey = some (entry.eraseLocation address) := by
    simp [setMeta]
  change (m.giveUpPrimaryLocation objectKey address topologyOperation a).2.2.metaTable.lookup objectKey = _ ∧
    (m.giveUpPrimaryLocation objectKey address topologyOperation a).2.1.successIds = _
  rw [giveUpPrimaryLocation,newPrimary,hearlier,hprocess]
  generalize ({ m.setMeta objectKey (entry.eraseLocation address) with objectStore := store } :
    OCMetadataManager) = m₁ at hlookup
  cases hlater : a.later.isOk
  · simp [hlookup]
  · cases hagrees : a.agrees worker
    · simpa [hagrees] using retryForFailedIds_spec hlookup
    · cases hexit : (a.exitingAtChange && !topologyOperation)
      · simp [hagrees,hlookup,hexit]
      · simp [hagrees,hlookup,hexit]

end GiveUp

/-! ## Entries after a step -/

section Entries

variable {m' : OCMetadataManager} {entry' : ObjectMeta}

theorem primaryLocated_iff (h : m'.metaTable.lookup objectKey = some entry') :
    m'.PrimaryLocated objectKey ↔ (entry'.locations.keys ≠ [] → entry'.objectMeta.primaryAddress ∈ entry'.locations) := by
  constructor
  · exact fun hlocated => hlocated entry' h
  · intro hlocated e he
    rw [h,some.injEq] at he
    exact he ▸ hlocated

theorem hasCopy_iff (h : m'.metaTable.lookup objectKey = some entry') (leaving : Bytes → Bool) :
    m'.HasCopy objectKey leaving ↔ ∃ address, entry'.locations.lookup address = some .ack ∧ leaving address = false := by
  constructor
  · rintro ⟨e,address,he,hcopy⟩
    rw [h,some.injEq] at he
    exact ⟨address,he ▸ hcopy⟩
  · rintro ⟨address,hcopy⟩
    exact ⟨entry',address,h,hcopy⟩

theorem primaryLocated_of_none (h : m'.metaTable.lookup objectKey = none) : m'.PrimaryLocated objectKey := by
  intro e he
  rw [h] at he
  cases he

theorem not_hasCopy_of_none (h : m'.metaTable.lookup objectKey = none) (leaving : Bytes → Bool) :
    ¬ m'.HasCopy objectKey leaving := by
  rintro ⟨e,address,he,-⟩
  rw [h] at he
  cases he

theorem copy_erase_iff (entry : ObjectMeta) (address : Bytes) (leaving : Bytes → Bool) :
    (∃ other, (entry.eraseLocation address).locations.lookup other = some .ack ∧ leaving other = false) ↔
      OtherCopy leaving entry address := by
  unfold OtherCopy ObjectMeta.eraseLocation
  refine exists_congr fun other => ?_
  by_cases hother : other = address
  · subst hother
    simp
  · simp [hother,lookup_erase_ne hother]

theorem mem_eraseLocation {address other : Bytes} :
    other ∈ (entry.eraseLocation address).locations ↔ other ≠ address ∧ other ∈ entry.locations := by
  simp [ObjectMeta.eraseLocation]

variable {address : Bytes}

theorem keys_ne_nil_of_mem (h : address ∈ entry.locations) : entry.locations.keys ≠ [] := ne_nil_of_mem h

end Entries

/-! ## What a step keeps -/

/-- The primary address is a location after the step, and the last copy is not dropped with success. -/
def Keeps (objectKey : Bytes) (m : OCMetadataManager) (s : PrimaryStep) : Prop :=
  (s.next objectKey m).PrimaryLocated objectKey ∧ s.KeepsLastCopy objectKey m

theorem keeps_of_next_eq {s : PrimaryStep} (hlocated : m.PrimaryLocated objectKey) (h : s.next objectKey m = m) :
    s.Keeps objectKey m :=
  ⟨h.symm ▸ hlocated,fun _ hcopy => h.symm ▸ hcopy⟩

section GiveUp

variable {address : Bytes} {topologyOperation : Bool} {a : GiveUpAnswer} {worker : Bytes}

theorem Chosen.mem (h : Chosen entry address topologyOperation a worker) :
    worker ∈ (entry.eraseLocation address).locations := by
  obtain ⟨hmem,hne⟩ := mem_of_selectOther h.select
  exact mem_eraseLocation.mpr ⟨hne,hmem⟩

theorem Chosen.otherCopy (h : Chosen entry address topologyOperation a worker) :
    OtherCopy (giveUp address topologyOperation a).leaving entry address := by
  have hcopies := h.copies
  unfold isPrimaryCopyWithCopy at hcopies
  split_ifs at hcopies
  · cases hcopies
  · obtain ⟨loc,hmem,hne,hack,hleaving⟩ := exists_of_allCopyIsExitingNode hcopies
    refine ⟨loc.1,hne,?_,by simp [leaving,hleaving]⟩
    rw [← hack,← mem_def,mem_lookup_iff]
    exact hmem

theorem retryPrimary_mem {p : Bytes}
    (h : retryPrimary topologyOperation a worker locations = some p) : p ∈ locations := by
  unfold retryPrimary at h
  cases hselect : selectAgreeing a.preLeavingAtRetry a.agreesAtRetry worker locations with
  | error e => simp [hselect] at h
  | ok location =>
    cases location with
    | none => simp [hselect] at h
    | some addr =>
      rw [hselect] at h
      dsimp only at h
      split_ifs at h
      exact some.inj h ▸ mem_of_selectAgreeing hselect

theorem newPrimary_mem {p : Bytes}
    (h : newPrimary topologyOperation a worker locations = some p) (hworker : worker ∈ locations) : p ∈ locations := by
  unfold newPrimary at h
  split_ifs at h
  · exact some.inj h ▸ hworker
  · exact retryPrimary_mem h

theorem keeps_giveUp_iff (hlocated : m.PrimaryLocated objectKey) (hentry : m.metaTable.lookup objectKey = some entry) :
    (giveUp address topologyOperation a).Keeps objectKey m ↔
      (giveUp address topologyOperation a).Safe objectKey m entry := by
  cases hchosen : chosen objectKey m address topologyOperation a with
  | none =>
    refine iff_of_true (keeps_of_next_eq hlocated (giveUp_of_chosen_none hchosen)) fun worker h => ?_
    rw [hchosen] at h
    cases h
  | some worker =>
    obtain ⟨hlookup,hsuccess⟩ := giveUp_of_chosen hentry hchosen
    have hfacts : Chosen entry address topologyOperation a worker := by
      unfold chosen at hchosen
      split_ifs at hchosen
      exact chosen_of_processGiveUp hentry hchosen
    have hsafe : (giveUp address topologyOperation a).Safe objectKey m entry ↔ (entry.objectMeta.primaryAddress = address →
        (newPrimary topologyOperation a worker (entry.eraseLocation address).locations.keys).isSome) := by
      simp [Safe,hchosen]
    rw [hsafe,Keeps,primaryLocated_iff hlookup,KeepsLastCopy,hasCopy_iff hlookup]
    cases hnew : newPrimary topologyOperation a worker (entry.eraseLocation address).locations.keys with
    | none =>
      rw [hnew] at hsuccess
      simp only [hsuccess,elim_none,isSome_none,Bool.false_eq_true,IsEmpty.forall_iff,and_true,imp_false]
      constructor
      · intro hprimary hsame
        have hmem := hprimary (keys_ne_nil_of_mem hfacts.mem)
        exact (mem_eraseLocation.mp hmem).1 hsame
      · intro hne _
        have hmem := hlocated entry hentry (keys_ne_nil_of_mem (mem_eraseLocation.mp hfacts.mem).2)
        exact mem_eraseLocation.mpr ⟨hne,hmem⟩
    | some p =>
      simp only [elim_some,isSome_some,implies_true,iff_true]
      refine ⟨fun _ => newPrimary_mem hnew hfacts.mem,fun _ _ => ?_⟩
      exact (copy_erase_iff entry address _).mpr hfacts.otherCopy

end GiveUp

section Reselect

theorem reselectPrimaryCopy_healthy (entry : ObjectMeta) (excludedAddr : List Bytes) :
    reselectPrimaryCopy entry excludedAddr true = .error ⟨.invalid,"The primary copy is normal. objectKey:%s"⟩ :=
  rfl

theorem exists_reselectPrimaryCopy (hprimary : entry.objectMeta.primaryAddress = address)
    (hkeys : (entry.eraseLocation address).locations.keys ≠ []) :
    ∃ p ∈ (entry.eraseLocation address).locations, reselectPrimaryCopy (entry.eraseLocation address) [] false = .ok p := by
  obtain ⟨p,hp⟩ := exists_mem_of_ne_nil _ hkeys
  have hfind : ((entry.eraseLocation address).locations.keys.find? fun addr =>
      addr ≠ (entry.eraseLocation address).objectMeta.primaryAddress ∧ addr ∉ ([] : List Bytes)).isSome := by
    rw [find?_isSome]
    refine ⟨p,hp,?_⟩
    have hne := (mem_eraseLocation.mp (mem_keys.mpr hp)).1
    simpa [ObjectMeta.eraseLocation,hprimary] using hne
  obtain ⟨q,hq⟩ := isSome_iff_exists.mp hfind
  refine ⟨q,mem_of_find?_eq_some hq,?_⟩
  rw [reselectPrimaryCopy,hq]
  rfl

theorem keys_erase_ne_nil {α : Type} {β : α → Type} [DecidableEq α] (l : AList β) (a : α) (h : 1 < l.keys.length) :
    (l.erase a).keys ≠ [] := by
  rw [keys_erase,← length_pos_iff,length_erase]
  split_ifs <;> omega

theorem nil_notMem_eraseLocation (address : Bytes) (hnamed : [] ∉ entry.locations) :
    [] ∉ (entry.eraseLocation address).locations :=
  fun h => hnamed (mem_eraseLocation.mp h).2

end Reselect

section InvalidateBuffer

variable {address : Bytes} {primaryHealthy : Bool} {removeLocation : WriteAnswer} {leaving : Bytes → Bool}

/-- The object stays as it is, or loses the location and may get another primary. -/
theorem lookup_invalidateBuffer (hentry : m.metaTable.lookup objectKey = some entry) (address : Bytes)
    (primaryHealthy : Bool) (removeLocation : WriteAnswer) (leaving : Bytes → Bool) :
    (invalidateBuffer address primaryHealthy removeLocation leaving).next objectKey m = m ∨
      ∃ p, ((invalidateBuffer address primaryHealthy removeLocation leaving).next objectKey m).metaTable.lookup objectKey =
        some ((entry.eraseLocation address).setPrimaryAddress p) := by
  change (m.removeMetaForInvalidateBuffer objectKey address primaryHealthy removeLocation).2 = m ∨
    ∃ p, (m.removeMetaForInvalidateBuffer objectKey address primaryHealthy removeLocation).2.metaTable.lookup objectKey = _
  rw [removeMetaForInvalidateBuffer,hentry]
  dsimp only
  split_ifs
  · exact .inl rfl
  · exact .inr ⟨entry.objectMeta.primaryAddress,Finmap.lookup_insert _⟩
  · right
    cases reselectPrimaryCopy (entry.eraseLocation address) [] primaryHealthy with
    | ok newPrimaryCopy => exact ⟨newPrimaryCopy,Finmap.lookup_insert _⟩
    | error rc =>
      dsimp only
      split_ifs
      · exact ⟨entry.objectMeta.primaryAddress,Finmap.lookup_insert _⟩
      · exact ⟨[],Finmap.lookup_insert _⟩

theorem keeps_invalidateBuffer_iff (hlocated : m.PrimaryLocated objectKey) (hnamed : m.LocationsNamed objectKey)
    (hentry : m.metaTable.lookup objectKey = some entry) :
    (invalidateBuffer address primaryHealthy removeLocation leaving).Keeps objectKey m ↔
      (invalidateBuffer address primaryHealthy removeLocation leaving).Safe objectKey m entry := by
  by_cases hskip : entry.locations.keys.length ≤ 1 ∨ entry.objectMeta.primaryAddress ≠ address
  · refine iff_of_true (keeps_of_next_eq hlocated ?_) fun hlength hprimary => ?_
    · simp [next,removeMetaForInvalidateBuffer,hentry,hskip]
    · rcases hskip with h | h
      · omega
      · exact absurd hprimary h
  · rw [not_or,not_le,not_not] at hskip
    obtain ⟨hlength,hprimary⟩ := hskip
    have hkeys := keys_erase_ne_nil entry.locations address hlength
    have hlength' : ¬ entry.locations.keys.length ≤ 1 := not_le.mpr hlength
    have hempty := nil_notMem_eraseLocation address (hnamed entry hentry)
    have hsafe : (invalidateBuffer address primaryHealthy removeLocation leaving).Safe objectKey m entry ↔
        (m.objectStore.removeObjectLocation objectKey address removeLocation).1.isOk = true ∧ primaryHealthy = false ∧
          (m.HasCopy objectKey leaving → OtherCopy leaving entry address) := by
      simp [Safe,hlength,hprimary]
    rw [hsafe]
    cases hremoved : (m.objectStore.removeObjectLocation objectKey address removeLocation).1.isOk
    · have hlookup : ((invalidateBuffer address primaryHealthy removeLocation leaving).next objectKey m).metaTable.lookup
          objectKey = some (entry.eraseLocation address) := by
        simp [next,removeMetaForInvalidateBuffer,hentry,hlength',hprimary,setMeta,hremoved]
      refine iff_of_false (fun hkeeps => ?_) (by simp)
      have hmem := (primaryLocated_iff hlookup).mp hkeeps.1 hkeys
      exact (mem_eraseLocation.mp hmem).1 hprimary
    · cases primaryHealthy
      · obtain ⟨p,hp,hreselect⟩ := exists_reselectPrimaryCopy hprimary hkeys
        have hlookup : ((invalidateBuffer address false removeLocation leaving).next objectKey m).metaTable.lookup
            objectKey = some ((entry.eraseLocation address).setPrimaryAddress p) := by
          simp [next,removeMetaForInvalidateBuffer,hentry,hlength',hprimary,setMeta,hremoved,hreselect]
        have hsuccess : (invalidateBuffer address false removeLocation leaving).reportsSuccess objectKey m = true := by
          simp [reportsSuccess,removeMetaForInvalidateBuffer,hentry,hlength',hprimary,setMeta,hremoved,hreselect]
        rw [Keeps,primaryLocated_iff hlookup,KeepsLastCopy,hasCopy_iff hlookup,hsuccess]
        constructor
        · intro hkeeps
          exact ⟨rfl,rfl,fun hcopy => (copy_erase_iff entry address leaving).mp (hkeeps.2 rfl hcopy)⟩
        · intro hcopies
          exact ⟨fun _ => hp,fun _ hcopy => (copy_erase_iff entry address leaving).mpr (hcopies.2.2 hcopy)⟩
      · have hlookup : ((invalidateBuffer address true removeLocation leaving).next objectKey m).metaTable.lookup
            objectKey = some ((entry.eraseLocation address).setPrimaryAddress []) := by
          simp [next,removeMetaForInvalidateBuffer,hentry,hlength',hprimary,setMeta,hremoved,
            reselectPrimaryCopy_healthy]
        refine iff_of_false (fun hkeeps => ?_) (by simp)
        exact hempty ((primaryLocated_iff hlookup).mp hkeeps.1 hkeys)

end InvalidateBuffer

section RemoveWorker

variable {workerAddr : Bytes} {a : RemoveWorkerAnswer} {leaving : Bytes → Bool}

/-- The object is forgotten with its last copy. -/
def forgets (entry : ObjectMeta) (workerAddr : Bytes) : Prop :=
  (entry.eraseLocation workerAddr).locations.keys = [] ∧ (entry.eraseLocation workerAddr).isNoneL2CacheEvict = true

/-- What becomes of the object: it is forgotten, loses the location, or gets another primary as well. -/
theorem lookup_removeWorker (workerAddr : Bytes) (a : RemoveWorkerAnswer) (leaving : Bytes → Bool)
    (hentry : m.metaTable.lookup objectKey = some entry) :
    (forgets entry workerAddr →
      ((removeWorker workerAddr a leaving).next objectKey m).metaTable.lookup objectKey = none) ∧
    (¬ forgets entry workerAddr → entry.objectMeta.primaryAddress ≠ workerAddr →
      ((removeWorker workerAddr a leaving).next objectKey m).metaTable.lookup objectKey =
        some (entry.eraseLocation workerAddr)) ∧
    (¬ forgets entry workerAddr → entry.objectMeta.primaryAddress = workerAddr →
      ((removeWorker workerAddr a leaving).next objectKey m).metaTable.lookup objectKey =
        some ((entry.eraseLocation workerAddr).setPrimaryAddress
          (match reselectPrimaryCopy (entry.eraseLocation workerAddr) [] a.primaryHealthy with
            | .ok newPrimaryCopy => newPrimaryCopy
            | .error _ => []))) := by
  have hprimary : (entry.eraseLocation workerAddr).objectMeta.primaryAddress = entry.objectMeta.primaryAddress := rfl
  rw [next,removeMetaByWorkerForKey,forgets,hentry]
  dsimp only
  refine ⟨fun hforgets => ?_,fun hforgets hother => ?_,fun hforgets hsame => ?_⟩
  · rw [if_pos hforgets]
    exact Finmap.lookup_erase _ _
  · rw [if_neg hforgets,hprimary,if_neg (Ne.symm hother)]
    exact Finmap.lookup_insert _
  · rw [if_neg hforgets,hprimary,if_pos hsame.symm]
    split_ifs <;> exact Finmap.lookup_insert _

theorem keepsLastCopy_removeWorker_iff {entry' : ObjectMeta}
    (hlookup : ((removeWorker workerAddr a leaving).next objectKey m).metaTable.lookup objectKey = some entry')
    (hlocations : entry'.locations = (entry.eraseLocation workerAddr).locations) :
    (removeWorker workerAddr a leaving).KeepsLastCopy objectKey m ↔
      ((m.removeMetaByWorkerForKey objectKey workerAddr a).1.isOk = true → m.HasCopy objectKey leaving →
        OtherCopy leaving entry workerAddr) := by
  rw [KeepsLastCopy,hasCopy_iff hlookup,hlocations,copy_erase_iff]
  rfl

theorem keeps_removeWorker_iff (hlocated : m.PrimaryLocated objectKey) (hnamed : m.LocationsNamed objectKey)
    (hentry : m.metaTable.lookup objectKey = some entry) :
    (removeWorker workerAddr a leaving).Keeps objectKey m ↔
      (removeWorker workerAddr a leaving).Safe objectKey m entry := by
  have hempty := nil_notMem_eraseLocation workerAddr (hnamed entry hentry)
  obtain ⟨hnone,hkept,hreplaced⟩ := lookup_removeWorker workerAddr a leaving hentry
  by_cases hforgets : forgets entry workerAddr
  · have hlookup := hnone hforgets
    have hother : ¬ OtherCopy leaving entry workerAddr := by
      rw [← copy_erase_iff]
      rintro ⟨other,hcopy,-⟩
      have hmem : other ∈ (entry.eraseLocation workerAddr).locations := lookup_isSome.mp (by rw [hcopy]; rfl)
      exact keys_ne_nil_of_mem hmem hforgets.1
    constructor
    · intro hkeeps
      refine ⟨fun _ hkeys => absurd hforgets.1 hkeys,fun hok hcopy => ?_⟩
      exact absurd (hkeeps.2 hok hcopy) (not_hasCopy_of_none hlookup leaving)
    · intro hsafe
      exact ⟨primaryLocated_of_none hlookup,fun hok hcopy => absurd (hsafe.2 hok hcopy) hother⟩
  · by_cases hprimary : entry.objectMeta.primaryAddress = workerAddr
    · have hlookup := hreplaced hforgets hprimary
      rw [Keeps,keepsLastCopy_removeWorker_iff hlookup rfl,primaryLocated_iff hlookup]
      refine and_congr_left fun _ => ?_
      cases hhealthy : a.primaryHealthy
      · refine iff_of_true (fun hkeys => ?_) fun _ _ => rfl
        obtain ⟨p,hp,hreselect⟩ := exists_reselectPrimaryCopy hprimary hkeys
        rw [hreselect]
        exact hp
      · rw [reselectPrimaryCopy_healthy]
        constructor
        · intro hmem _ hkeys
          exact absurd (hmem hkeys) hempty
        · intro hsafe hkeys
          exact absurd (hsafe hprimary hkeys) (by simp)
    · have hlookup := hkept hforgets hprimary
      rw [Keeps,keepsLastCopy_removeWorker_iff hlookup rfl,primaryLocated_iff hlookup]
      refine and_congr_left fun _ => iff_of_true (fun hkeys => ?_) fun h => absurd h hprimary
      obtain ⟨other,hother⟩ := exists_mem_of_ne_nil _ hkeys
      have hmem := (mem_eraseLocation.mp (mem_keys.mpr hother)).2
      exact mem_eraseLocation.mpr ⟨hprimary,hlocated entry hentry (keys_ne_nil_of_mem hmem)⟩

end RemoveWorker

section Confirmed

variable {workerId : Bytes} {primaryHealthy : Bool} {write : WriteEntryAnswer} {op : PersistOpAnswer}

theorem lookup_confirmed (hentry : m.metaTable.lookup objectKey = some entry) :
    ((confirmed workerId primaryHealthy write op).next objectKey m).metaTable.lookup objectKey =
      some (if primaryHealthy then entry else entry.setPrimaryAddress workerId) := by
  cases primaryHealthy <;> simp [next,modifyPrimaryCopy,hentry,writeEntry,setMeta]

theorem keeps_confirmed_iff (hlocated : m.PrimaryLocated objectKey) (hentry : m.metaTable.lookup objectKey = some entry) :
    (confirmed workerId primaryHealthy write op).Keeps objectKey m ↔
      (confirmed workerId primaryHealthy write op).Safe objectKey m entry := by
  cases primaryHealthy
  · rw [Keeps,primaryLocated_iff (lookup_confirmed hentry)]
    simp [KeepsLastCopy,reportsSuccess,Safe,ObjectMeta.setPrimaryAddress]
  · refine iff_of_true (keeps_of_next_eq hlocated ?_) (by simp [Safe])
    simp [next,modifyPrimaryCopy,hentry]

end Confirmed

/-! ## Runs -/

/-- The condition of a step in a state. -/
def SafeIn (objectKey : Bytes) (m : OCMetadataManager) (s : PrimaryStep) : Prop :=
  ∀ entry, m.metaTable.lookup objectKey = some entry → s.Safe objectKey m entry

theorem next_of_none (hnone : m.metaTable.lookup objectKey = none) (s : PrimaryStep) : s.next objectKey m = m := by
  cases s with
  | giveUp address topologyOperation a =>
    apply giveUp_of_chosen_none
    simp [chosen,processGiveUpPrimaryObject,hnone]
    split_ifs <;> simp
  | invalidateBuffer => simp [next,removeMetaForInvalidateBuffer,hnone]
  | removeWorker => simp [next,removeMetaByWorkerForKey,hnone]
  | confirmed => simp [next,modifyPrimaryCopy,hnone]

/-- One step keeps both properties exactly if it meets its condition. -/
theorem keeps_iff (hlocated : m.PrimaryLocated objectKey) (hnamed : m.LocationsNamed objectKey) (s : PrimaryStep) :
    s.Keeps objectKey m ↔ s.SafeIn objectKey m := by
  cases hentry : m.metaTable.lookup objectKey with
  | none =>
    refine iff_of_true (keeps_of_next_eq hlocated (next_of_none hentry s)) fun entry h => ?_
    rw [hentry] at h
    cases h
  | some entry =>
    have hsafe : s.SafeIn objectKey m ↔ s.Safe objectKey m entry := by
      simp [SafeIn,hentry]
    rw [hsafe]
    cases s with
    | giveUp => exact keeps_giveUp_iff hlocated hentry
    | invalidateBuffer => exact keeps_invalidateBuffer_iff hlocated hnamed hentry
    | removeWorker => exact keeps_removeWorker_iff hlocated hnamed hentry
    | confirmed => exact keeps_confirmed_iff hlocated hentry

theorem locations_next (hentry : m.metaTable.lookup objectKey = some entry) (s : PrimaryStep) {entry' : ObjectMeta}
    (h : (s.next objectKey m).metaTable.lookup objectKey = some entry')
    (hmem : address ∈ entry'.locations) : address ∈ entry.locations := by
  cases s with
  | giveUp location topologyOperation a =>
    cases hchosen : chosen objectKey m location topologyOperation a with
    | none =>
      rw [giveUp_of_chosen_none hchosen,hentry,some.injEq] at h
      exact h ▸ hmem
    | some worker =>
      rw [(giveUp_of_chosen hentry hchosen).1,some.injEq] at h
      subst h
      cases hnew : newPrimary topologyOperation a worker (entry.eraseLocation location).locations.keys <;>
        rw [hnew] at hmem <;> exact (mem_eraseLocation.mp hmem).2
  | invalidateBuffer location primaryHealthy removeLocation leaving =>
    rcases lookup_invalidateBuffer hentry location primaryHealthy removeLocation leaving with hnext | ⟨p,hp⟩
    · rw [hnext,hentry,some.injEq] at h
      exact h ▸ hmem
    · rw [hp,some.injEq] at h
      subst h
      exact (mem_eraseLocation.mp hmem).2
  | removeWorker workerAddr a leaving =>
    obtain ⟨hnone,hkept,hreplaced⟩ := lookup_removeWorker workerAddr a leaving hentry
    by_cases hforgets : forgets entry workerAddr
    · cases (hnone hforgets).symm.trans h
    · by_cases hprimary : entry.objectMeta.primaryAddress = workerAddr
      · rw [hreplaced hforgets hprimary,some.injEq] at h
        exact (mem_eraseLocation.mp (h ▸ hmem)).2
      · rw [hkept hforgets hprimary,some.injEq] at h
        exact (mem_eraseLocation.mp (h ▸ hmem)).2
  | confirmed workerId primaryHealthy write op =>
    rw [lookup_confirmed hentry,some.injEq] at h
    subst h
    split_ifs at hmem <;> exact hmem

theorem locationsNamed_next (hnamed : m.LocationsNamed objectKey) (s : PrimaryStep) :
    (s.next objectKey m).LocationsNamed objectKey := by
  intro entry' h hmem
  cases hentry : m.metaTable.lookup objectKey with
  | none =>
    rw [next_of_none hentry s,hentry] at h
    cases h
  | some entry => exact hnamed entry hentry (locations_next hentry s h hmem)

/-- In every state of a run the primary address is a location, and no step drops the last copy with success. -/
def HoldsAlong (objectKey : Bytes) : OCMetadataManager → List PrimaryStep → Prop
  | m, [] => m.PrimaryLocated objectKey
  | m, s :: steps =>
    m.PrimaryLocated objectKey ∧ s.KeepsLastCopy objectKey m ∧ HoldsAlong objectKey (s.next objectKey m) steps

/-- Every step of a run meets its condition in the state in which it is made. -/
def SafeAlong (objectKey : Bytes) : OCMetadataManager → List PrimaryStep → Prop
  | _, [] => True
  | m, s :: steps => s.SafeIn objectKey m ∧ SafeAlong objectKey (s.next objectKey m) steps

theorem HoldsAlong.primaryLocated {steps : List PrimaryStep} (h : HoldsAlong objectKey m steps) :
    m.PrimaryLocated objectKey := by
  cases steps with
  | nil => exact h
  | cons s steps => exact h.1

end PrimaryStep

/-! ## Main result -/

/-- After any sequence of requests the primary address is a location, if there is any, and no request has dropped the
last copy on a worker that stays with success, exactly if every step has met its condition. -/
theorem primary_located_along_iff (objectKey : Bytes) (m : OCMetadataManager) (steps : List PrimaryStep)
    (hlocated : m.PrimaryLocated objectKey) (hnamed : m.LocationsNamed objectKey) :
    PrimaryStep.HoldsAlong objectKey m steps ↔ PrimaryStep.SafeAlong objectKey m steps := by
  induction steps generalizing m with
  | nil => exact iff_of_true hlocated trivial
  | cons s steps ih =>
    have hkeeps := PrimaryStep.keeps_iff hlocated hnamed s
    have hnamed' := PrimaryStep.locationsNamed_next hnamed s
    constructor
    · rintro ⟨-,hcopy,hrest⟩
      have hlocated' := hrest.primaryLocated
      exact ⟨hkeeps.mp ⟨hlocated',hcopy⟩,(ih _ hlocated' hnamed').mp hrest⟩
    · rintro ⟨hsafe,hrest⟩
      obtain ⟨hlocated',hcopy⟩ := hkeeps.mpr hsafe
      exact ⟨hlocated,hcopy,(ih _ hlocated' hnamed').mpr hrest⟩

namespace LostPrimary

def objectKey : Bytes := [107]

def leavingWorker : Bytes := [49]

def otherWorker : Bytes := [50]

variable (other : AckState)

/-- An object with two copies, of which one is the primary copy; the other one may still be on its way. -/
def entry : ObjectMeta :=
  { objectMeta := { primaryAddress := leavingWorker }
    locations := insert leavingWorker .ack (insert otherWorker other ∅) }

def manager : OCMetadataManager := { metaTable := Finmap.insert objectKey (entry other) ∅ }

/-- The primary is given up, and the other worker confirms nothing. -/
def unconfirmed : PrimaryStep := .giveUp leavingWorker false { agrees := fun _ => false, agreesAtRetry := fun _ => false }

/-- The copy of the primary, which is healthy, is invalid. -/
def invalid : PrimaryStep := .invalidateBuffer leavingWorker true {} fun _ => false

/-- The primary is given up and its worker removed. -/
def confirmedSteps : List PrimaryStep := [.giveUp leavingWorker false {},.removeWorker leavingWorker {} fun _ => false]

theorem safeAlong_confirmedSteps : PrimaryStep.SafeAlong objectKey (manager .ack) confirmedSteps := by
  refine ⟨fun e _ worker _ _ => ?_,fun e he => ?_,trivial⟩
  · simp [PrimaryStep.newPrimary]
  · have hnext : ((PrimaryStep.giveUp leavingWorker false {}).next objectKey (manager .ack)).metaTable.lookup objectKey =
        some (((entry .ack).eraseLocation leavingWorker).setPrimaryAddress otherWorker) :=
      rfl
    rw [hnext,some.injEq] at he
    subst he
    exact ⟨fun _ _ => rfl,fun _ _ => ⟨otherWorker,by decide,rfl,rfl⟩⟩

theorem primaryLocated_manager : (manager other).PrimaryLocated objectKey := by
  intro e he _
  have hsame : e = entry other := by simpa [manager,eq_comm] using he
  subst hsame
  exact AList.mem_keys.mpr (by cases other <;> decide)

theorem locationsNamed_manager : (manager other).LocationsNamed objectKey := by
  intro e he hmem
  have hsame : e = entry other := by simpa [manager,eq_comm] using he
  subst hsame
  exact absurd (AList.mem_keys.mp hmem) (by cases other <;> decide)

end LostPrimary

open LostPrimary in
/-- A primary that has been given up in vain is no location any more. One whose copy is invalid is replaced by the empty
address, and success is reported although no acknowledged copy is left. -/
theorem primary_not_located :
    (∃ entry', (unconfirmed.next objectKey (manager .ack)).metaTable.lookup objectKey = some entry' ∧
        entry'.locations.keys = [otherWorker] ∧ entry'.objectMeta.primaryAddress = leavingWorker) ∧
      (∃ entry', (invalid.next objectKey (manager .unack)).metaTable.lookup objectKey = some entry' ∧
        entry'.locations.entries = [⟨otherWorker,.unack⟩] ∧ entry'.objectMeta.primaryAddress = []) ∧
      invalid.reportsSuccess objectKey (manager .unack) = true ∧
      (manager .unack).HasCopy objectKey invalid.leaving :=
  ⟨⟨_,rfl,rfl,rfl⟩,⟨_,rfl,rfl,rfl⟩,rfl,_,leavingWorker,rfl,rfl,rfl⟩

open LostPrimary in
/-- If the other worker confirms, and the primary then is removed as unhealthy, its address is always a location. -/
theorem primary_located_along_confirmed :
    (manager .ack).PrimaryLocated objectKey ∧ (manager .ack).LocationsNamed objectKey ∧
      PrimaryStep.HoldsAlong objectKey (manager .ack) confirmedSteps :=
  ⟨primaryLocated_manager .ack,locationsNamed_manager .ack,
    (primary_located_along_iff objectKey (manager .ack) confirmedSteps (primaryLocated_manager .ack)
      (locationsNamed_manager .ack)).mpr safeAlong_confirmedSteps⟩

end Datasystem.Master
