import Datasystem.Lib.Machine
import Datasystem.Coordinator.StoreLog

/-!
# Callback compare-and-swap on the coordinator store

`RunCas` reads a key, lets a callback compute the next value and writes it back guarded by the
version it read. The read and the write are separate sections of the store lock, so other store
operations run in between.
-/

namespace Datasystem.Coordinator

open Keyed MemoryKvStore MemoryKvStore KeyValueEntry

def maxCasAttempts : Nat := 16

/-- What the callback leaves behind: its status, the value to write (absent for the null
pointer) and whether an error may be retried. -/
structure ProcessResult where
  status : Status
  next : Option Bytes
  retry : Bool := true
deriving DecidableEq, Repr

structure CasCall where
  physicalKey : Bytes
  process : Bytes → ProcessResult
  expectedRevision : Int := coordinatorNoGlobalRevisionCheck

/-- A call between its read and its write. `read` is the entry found, `readRevision` the store
revision of the read. -/
structure CasWrite where
  attempt : Nat
  read : Option KeyValueEntry
  readRevision : Int
  next : Bytes
deriving DecidableEq, Repr

inductive CasPhase where
  | reading (attempt : Nat) (lastError : Status)
  | writing (w : CasWrite)
  | done (status : Status) (result : Option KeyValueEntry)
deriving DecidableEq, Repr

structure CasState where
  store : MemoryKvStore
  phase : CasPhase

def isRetryableCasConflict (status : Status) : Bool :=
  status.code == .invalid || status.code == .tryAgain || status.code == .notFound

variable (call : CasCall)

/-- The local `current`: the entry read, or the initial value when the key was not found. -/
def casCurrent (read : Option KeyValueEntry) : KeyValueEntry :=
  read.getD ⟨call.physicalKey,[],coordinatorKeyNotExistsVersion,0⟩

variable (s : MemoryKvStore)

def readExact (physicalKey : Bytes) : Except Status KeyValueEntry :=
  match (s.range physicalKey []).1 with
  | [] => .error ⟨.notFound,"Coordinator key does not exist"⟩
  | [entry] => .ok entry
  | _ => .error ⟨.kvstoreError,"Coordinator exact key is not unique"⟩

/-- The part of an attempt up to its write: read the key and run the callback. -/
def casRead (attempt : Nat) (lastError : Status) : CasPhase :=
  if attempt < maxCasAttempts then
    match readExact s call.physicalKey with
    | .error status =>
      if status.code ≠ .notFound then .done status none else run none
    | .ok entry => run (some entry)
  else .done lastError none
where
  run (read : Option KeyValueEntry) : CasPhase :=
    let current := casCurrent call read
    let processed := call.process current.value
    if ¬ processed.status.isOk then
      if ¬ processed.retry then .done processed.status none
      else .reading (attempt + 1) processed.status
    else
      match processed.next with
      | none => .done .success (some current)
      | some next => .writing ⟨attempt,read,s.revision,next⟩

def casPutRequest (w : CasWrite) : PutRequest where
  key := call.physicalKey
  value := w.next
  ttlMs := 0
  expectedVersion := (casCurrent call w.read).version
  expectedModRevision := coordinatorNoModRevisionCheck
  expectedGlobalRevision := call.expectedRevision

/-- Return or go on to the next attempt according to the outcome of the put. -/
def casAfterPut (w : CasWrite) (o : Outcome PutOutput) : CasPhase :=
  if o.status.isOk then
    .done .success (o.output.map fun out =>
      ⟨call.physicalKey,w.next,out.version,out.revision⟩)
  else if call.expectedRevision ≠ coordinatorNoGlobalRevisionCheck ∧
      o.status.code = .tryAgain then
    .done o.status none
  else if ¬ isRetryableCasConflict o.status then .done o.status none
  else .reading (w.attempt + 1) o.status

inductive CasAction where
  | store (op : StoreOp)
  | runCas
deriving DecidableEq, Repr

def casStep (st : CasState) : CasAction → Option CasState
  | .store op => some { st with store := (op.apply st.store).store }
  | .runCas =>
    match st.phase with
    | .reading attempt lastError =>
      some { st with phase := casRead call st.store attempt lastError }
    | .writing w =>
      let o := st.store.put (casPutRequest call w)
      some ⟨o.store,casAfterPut call w o⟩
    | .done _ _ => none

/-- One `RunCas` call among arbitrary other operations on the same store. -/
def casMachine : Machine CasState CasAction where
  init := ⟨.empty,.reading 0 ⟨.tryAgain,"Coordinator CAS exceeded retry limit"⟩⟩
  step := casStep call

/-- Whenever the pending write would commit, the key still holds the value that was read, or is
absent when absence was read. -/
def CommitsOnRead (st : CasState) : Prop :=
  ∀ w, st.phase = .writing w → (st.store.put (casPutRequest call w)).status.isOk →
    (st.store.find call.physicalKey).map ValueEntry.value = w.read.map value

/-- Whenever the pending write would commit on an incarnation of the key that was created after
the read, this incarnation happens to hold the value that was read. -/
def RecreatedAsRead (st : CasState) : Prop :=
  ∀ w, st.phase = .writing w → (st.store.put (casPutRequest call w)).status.isOk →
    ∀ entry, st.store.find call.physicalKey = some entry → w.readRevision < entry.createRevision →
      w.read.map value = some entry.value

/-- Stored entries count versions from one and were created at an issued revision. -/
def EntriesSane : Prop := ∀ k entry, s.find k = some entry → 1 ≤ entry.version ∧ entry.createRevision ≤ s.revision

/-- How an operation may leave an entry: in the same incarnation with the same visible contents or
a higher version, or newly created. -/
def EntryStep (s s' : MemoryKvStore) : Prop :=
  ∀ k entry', s'.find k = some entry' →
    (s.revision < entry'.createRevision ∧ entry'.createRevision ≤ s'.revision ∧
      1 ≤ entry'.version) ∨
    ∃ entry, s.find k = some entry ∧ entry'.createRevision = entry.createRevision ∧
      (entry.version < entry'.version ∨ entry'.toKeyValue k = entry.toKeyValue k)

theorem EntryStep.refl : EntryStep s s := fun _ entry h => Or.inr ⟨entry,h,rfl,Or.inr rfl⟩

theorem eraseAll_entryStep (keys : List Bytes) (revision : Int) : EntryStep s (s.eraseAll keys revision) := by
  intro k entry h
  rw [find_eraseAll] at h
  split_ifs at h
  exact Or.inr ⟨entry,h,rfl,Or.inr rfl⟩

theorem put_entryStep (req : PutRequest) : EntryStep s (s.put req).store := by
  unfold put
  dsimp only
  split
  · intro k entry h
    rw [find_store] at h
    by_cases hk : k = req.key
    · rw [if_pos hk,Option.some.injEq] at h
      subst h hk
      cases hfind : s.find req.key with
      | none =>
        refine Or.inl ⟨?_,Int.le_refl _,Int.le_refl _⟩
        exact Int.lt_succ s.revision
      | some entry => exact Or.inr ⟨entry,rfl,rfl,Or.inl (Int.lt_succ entry.version)⟩
    · rw [if_neg hk] at h
      exact Or.inr ⟨entry,h,rfl,Or.inr rfl⟩
  · exact EntryStep.refl s

theorem apply_entryStep (op : StoreOp) (s : MemoryKvStore) : EntryStep s (op.apply s).store := by
  cases op with
  | put req => exact put_entryStep s req
  | delete req =>
    simp only [StoreOp.apply,Outcome.discardOutput,delete]
    split
    · exact EntryStep.refl s
    · split
      · exact EntryStep.refl s
      · split
        · exact EntryStep.refl s
        · exact eraseAll_entryStep s _ _
  | deleteIfTtlExpired key revision gen =>
    simp only [StoreOp.apply,Outcome.discardOutput,deleteIfTtlExpired]
    split
    · exact EntryStep.refl s
    · split
      · exact EntryStep.refl s
      · split
        · exact EntryStep.refl s
        · exact eraseAll_entryStep s _ _
  | keepAlive key expectedModRevision =>
    simp only [StoreOp.apply,Outcome.discardOutput,keepAlive]
    split
    · exact EntryStep.refl s
    · rename_i entry hfind
      split
      · exact EntryStep.refl s
      · split
        · exact EntryStep.refl s
        · intro k entry' h
          rw [find_store] at h
          by_cases hk : k = key
          · rw [if_pos hk,Option.some.injEq] at h
            subst h hk
            exact Or.inr ⟨entry,hfind,rfl,Or.inr rfl⟩
          · rw [if_neg hk] at h
            exact EntryStep.refl s k entry' h

theorem EntriesSane.step {s s' : MemoryKvStore} (h : EntriesSane s) (hstep : EntryStep s s')
    (hrev : s.revision ≤ s'.revision) : EntriesSane s' := by
  intro k entry' hfind
  rcases hstep k entry' hfind with ⟨_,hle,hv⟩ | ⟨entry,hold,hcreate,hcontents⟩
  · exact ⟨hv,hle⟩
  · obtain ⟨hv,hle⟩ := h k entry hold
    refine ⟨?_,by omega⟩
    rcases hcontents with hlt | heq
    · omega
    · have : entry'.version = entry.version := congrArg version heq
      omega

/-- A pending write that saw an entry: as long as that incarnation lives, it shows the entry read
or has moved to a higher version. -/
def ReadTracked (w : CasWrite) : Prop :=
  w.readRevision ≤ s.revision ∧
  (call.process (casCurrent call w.read).value).next = some w.next ∧
  ∀ kv, w.read = some kv → 1 ≤ kv.version ∧
    ∀ entry, s.find call.physicalKey = some entry → entry.createRevision ≤ w.readRevision →
      kv.version < entry.version ∨ entry.toKeyValue call.physicalKey = kv

structure CasInv (call : CasCall) (st : CasState) : Prop where
  sane : EntriesSane st.store
  tracked : ∀ w, st.phase = .writing w → ReadTracked call st.store w

variable {call}

theorem ReadTracked.step {s s' : MemoryKvStore} {w : CasWrite} (h : ReadTracked call s w) (hstep : EntryStep s s')
    (hrev : s.revision ≤ s'.revision) : ReadTracked call s' w := by
  obtain ⟨hread,hnext,htrack⟩ := h
  refine ⟨Int.le_trans hread hrev,hnext,?_⟩
  intro kv hkv
  obtain ⟨hv,hentry⟩ := htrack kv hkv
  refine ⟨hv,?_⟩
  intro entry' hfind hold
  rcases hstep call.physicalKey entry' hfind with ⟨hnew,_,_⟩ | ⟨entry,hf,hcreate,hcontents⟩
  · -- an incarnation created by this step is younger than the read
    omega
  · rcases hentry entry hf (by omega) with hlt | heq
    · rcases hcontents with hlt' | heq'
      · exact Or.inl (by omega)
      · have : entry'.version = entry.version := congrArg version heq'
        exact Or.inl (by omega)
    · rcases hcontents with hlt' | heq'
      · have : kv.version = entry.version := congrArg version heq.symm
        exact Or.inl (by omega)
      · exact Or.inr (heq'.trans heq)

theorem readExact_eq (s : MemoryKvStore) (key : Bytes) : readExact s key =
      match s.find key with
      | none => .error ⟨.notFound,"Coordinator key does not exist"⟩
      | some entry => .ok (entry.toKeyValue key) := by
  simp only [readExact,range,scan,find,List.isEmpty_nil,if_true]
  cases hl : lookup Prod.fst key s.data with
  | none => rfl
  | some e =>
    have hkey := lookup_key Prod.fst hl
    simp [hkey]

variable {s}

/-- The write section keeps what was read and the callback's answer to it. -/
theorem casRead_run_writing {attempt : Nat} {read : Option KeyValueEntry} {w : CasWrite}
    (h : casRead.run call s attempt read = .writing w) :
    w.read = read ∧ w.readRevision = s.revision ∧ (call.process (casCurrent call read).value).next = some w.next := by
  unfold casRead.run at h
  dsimp only at h
  split at h
  · split at h <;> cases h
  · split at h
    · cases h
    · rename_i next hnext
      cases h
      exact ⟨rfl,rfl,hnext⟩

/-- Entering the write section establishes the tracking of the read. -/
theorem casRead_tracked (hsane : EntriesSane s) {attempt : Nat} {lastError : Status} {w : CasWrite}
    (h : casRead call s attempt lastError = .writing w) : ReadTracked call s w := by
  unfold casRead at h
  split_ifs at h
  rw [readExact_eq] at h
  cases hfind : s.find call.physicalKey with
  | none =>
    simp only [hfind] at h
    rw [if_neg (by simp)] at h
    obtain ⟨hread,hrev,hnext⟩ := casRead_run_writing h
    refine ⟨hrev.le,by rw [hread]; exact hnext,?_⟩
    intro kv hkv
    rw [hread] at hkv
    cases hkv
  | some entry =>
    simp only [hfind] at h
    obtain ⟨hread,hrev,hnext⟩ := casRead_run_writing h
    refine ⟨hrev.le,by rw [hread]; exact hnext,?_⟩
    intro kv hkv
    rw [hread,Option.some.injEq] at hkv
    subst hkv
    refine ⟨(hsane _ _ hfind).1,?_⟩
    intro entry' hfind' _
    rw [hfind,Option.some.injEq] at hfind'
    exact Or.inr (by rw [hfind'])

theorem casStep_inv {st st' : CasState} {a : CasAction} (hinv : CasInv call st) (h : casStep call st a = some st') :
    CasInv call st' := by
  cases a with
  | store op =>
    cases h
    have hrev := (apply_spec op st.store).revision_le
    have hentry := apply_entryStep op st.store
    exact ⟨hinv.sane.step hentry hrev,fun w hw => (hinv.tracked w hw).step hentry hrev⟩
  | runCas =>
    unfold casStep at h
    dsimp only at h
    split at h
    · cases h
      exact ⟨hinv.sane,fun w hw => casRead_tracked hinv.sane hw⟩
    · rename_i w _
      cases h
      have hrev := (put_spec st.store (casPutRequest call w)).revision_le
      refine ⟨hinv.sane.step (put_entryStep _ _) hrev,?_⟩
      -- the put never leads back into a write section
      intro w' hw'
      dsimp only [casAfterPut] at hw'
      split_ifs at hw'
    · cases h

theorem reachable_casInv {st : CasState} (h : (casMachine call).Reachable st) : CasInv call st := by
  refine h.invariant ⟨?_,?_⟩ fun s a s' hinv hstep => casStep_inv hinv hstep
  · intro k entry hfind
    cases hfind
  · intro w hw
    cases hw

/-- A guarded put succeeds on an absent key only when absence was expected, and on an entry only
at the expected version. -/
theorem put_isOk_version {req : PutRequest} (hcheck : req.expectedVersion ≠ coordinatorNoVersionCheck)
    (hok : (s.put req).status.isOk) :
    match s.find req.key with
    | none => req.expectedVersion = coordinatorKeyNotExistsVersion
    | some entry => req.expectedVersion = entry.version ∧
        req.expectedVersion ≠ coordinatorKeyNotExistsVersion := by
  have hc : (s.checkPut req).isOk := by
    unfold put at hok
    dsimp only at hok
    split at hok
    · assumption
    · exact hok
  unfold checkPut at hc
  dsimp only at hc
  split at hc
  · simp [Status.isOk] at hc
  · split at hc
    · simp [Status.isOk] at hc
    · split at hc
      · rename_i hver
        cases hfind : s.find req.key with
        | none => exact hver
        | some entry => simp [hfind,Status.isOk] at hc
      · rename_i hver
        cases hfind : s.find req.key with
        | none => simp [hfind,Status.isOk] at hc
        | some entry =>
          simp only [hfind] at hc
          split at hc
          · simp [Status.isOk] at hc
          · rename_i hentry
            exact ⟨(not_not.mp hentry).symm,hver⟩

theorem put_rejected {req : PutRequest} (h : ¬ (s.put req).status.isOk) : (s.put req).store = s := by
  unfold put at h ⊢
  dsimp only at h ⊢
  split at h
  · exact absurd ‹_› h
  · rename_i hcheck
    rw [if_neg hcheck]

theorem find_put {req : PutRequest} (h : (s.put req).status.isOk) :
    (s.put req).store.find req.key = some (putEntry (s.find req.key) req (s.revision + 1)) := by
  unfold put at h ⊢
  dsimp only at h ⊢
  split at h
  · rename_i hcheck
    rw [if_pos hcheck,find_store,if_pos rfl]
  · exact absurd h ‹_›

/-- A call that appends one byte to the value of a key. -/
def casAppend : CasCall where
  physicalKey := [107]
  process v := ⟨.success,some (v ++ [33]),true⟩

/-- The key holds `a` when the call reads it; before the write it is deleted and created again
with `b`, which restarts its version. -/
def casRecreation : List CasAction :=
  [.store (.put ⟨[107],[97],0,-1,0,0⟩),.runCas,
    .store (.delete ⟨[107],[],0⟩),.store (.put ⟨[107],[98],0,-1,0,0⟩)]

def casRecreated : CasState where
  store := ⟨[([107], ⟨[98],1,4,4,0,1⟩)],4,List.pairwise_singleton _ _⟩
  phase := .writing ⟨0,some ⟨[107],[97],1,2⟩,2,[97,33]⟩

theorem run_casRecreation :
    (casMachine casAppend).run (casMachine casAppend).init casRecreation = some casRecreated := rfl

end Datasystem.Coordinator
