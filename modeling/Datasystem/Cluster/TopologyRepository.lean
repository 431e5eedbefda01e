import Datasystem.Cluster.TopologyController
import Datasystem.Cluster.TopologyRepositoryCodec
import Datasystem.Coordinator.StoreBackend

/-!
# Compare-and-swap on the stored topology

A call runs the callback compare-and-swap of the backend and, unless that reports a plain success, reads the
key back to find out what happened. Every call to the store may fail, and a failed put may have been applied.
-/

namespace Datasystem.Cluster

open Coordinator MemoryKvStore List Option

/-- The library round-trips, and an empty string parses to the message without any field. -/
structure Protobuf.Lawful (pb : Protobuf) : Prop where
  roundTrips : pb.RoundTrips
  parse_nil : pb.parseFromString [] = some {}

theorem protobufWire_lawful : protobufWire.Lawful := ⟨protobufWire_roundTrips,rfl⟩

inductive TopologyCasOutcome where
  | committed
  | conflict
  | unknown
deriving DecidableEq, Repr

structure TopologyCasResult where
  outcome : TopologyCasOutcome := .unknown
  observed : Option TopologyState := none
deriving DecidableEq, Repr

inductive TopologyCasPhase where
  | cas (phase : CasPhase)
  | readBack (rc : Status)
  | returned (status : Status) (result : TopologyCasResult)
deriving DecidableEq, Repr

structure TopologyCas where
  expectedVersion : Nat
  desired : TopologyState
  expectedAuthorityRevision : Int
  desiredBytes : Bytes
  conflict : Bool
  phase : TopologyCasPhase
deriving DecidableEq, Repr

/-- How a call to the store fails: without effect, or after it was applied. -/
inductive StoreFault where
  | lost (status : Status)
  | applied (status : Status)
deriving DecidableEq, Repr

def StoreFault.status : StoreFault → Status
  | .lost status => status
  | .applied status => status

section Call

variable (pb : Protobuf) (key : Bytes)

/-- The callback. It leaves no value exactly when it finds a conflict. -/
def topologyCasProcess (expectedVersion : Nat) (desiredBytes current : Bytes) : ProcessResult :=
  if current.isEmpty ∧ expectedVersion = 0 then ⟨.success,some desiredBytes,false⟩
  else
    match decodeTopology pb current with
    | .error _ => ⟨.success,none,false⟩
    | .ok observed =>
      if observed.version ≠ expectedVersion then ⟨.success,none,false⟩
      else ⟨.success,some desiredBytes,false⟩

/-- `CASAtRevision` for a positive revision and `CAS` otherwise. -/
def TopologyCas.call (c : TopologyCas) : CasCall where
  physicalKey := key
  process := topologyCasProcess pb c.expectedVersion c.desiredBytes
  expectedRevision :=
    if 0 < c.expectedAuthorityRevision then c.expectedAuthorityRevision
    else coordinatorNoGlobalRevisionCheck

/-- The call up to its first access to the store. -/
def TopologyRepository.compareAndSwapTopology (expectedVersion : Nat) (desired : TopologyState)
    (expectedAuthorityRevision : Int) : TopologyCas :=
  let start := TopologyCas.mk expectedVersion desired expectedAuthorityRevision
  if desired.version ≠ expectedVersion + 1 then
    start [] false (.returned ⟨.invalid,"topology CAS version must advance"⟩ {})
  else
    match encodeTopology pb desired with
    | .error status => start [] false (.returned status {})
    | .ok desiredBytes =>
      start desiredBytes false
        (.cas (.reading 0 ⟨.tryAgain,"Coordinator CAS exceeded retry limit"⟩))

/-- The read and callback of an attempt, where the read may fail. -/
def casAttempt (call : CasCall) (s : MemoryKvStore) (attempt : Nat) (lastError : Status)
    (fault : Option StoreFault) : CasPhase :=
  match fault with
  | none => casRead call s attempt lastError
  | some fault =>
    if attempt < maxCasAttempts then
      if fault.status.code ≠ .notFound then .done fault.status none
      else casRead.run call s attempt none
    else .done lastError none

/-- Whether an attempt ended with the callback leaving no value. -/
def leftUnchanged : CasPhase → Bool
  | .done _ (some _) => true
  | _ => false

/-- Go on after a section of the backend's compare-and-swap. -/
def afterCas (conflict : Bool) : CasPhase → TopologyCasPhase
  | .done rc _ => if rc.isOk && !conflict then .returned .success ⟨.committed,none⟩ else .readBack rc
  | phase => .cas phase

variable (c : TopologyCas)

def resolveReadBack (rc : Status) (read : Except Status KeyValueEntry) : TopologyCasPhase :=
  match read with
  | .error readRc => .returned (if rc.isOk then readRc else rc) ⟨.unknown,none⟩
  | .ok entry =>
    match decodeTopology pb entry.value with
    | .error status => .returned status {}
    | .ok observed =>
      if entry.value = c.desiredBytes then .returned .success ⟨.committed,some observed⟩
      else if observed.version ≠ c.desired.version then
        .returned .success ⟨.conflict,some observed⟩
      else
        .returned ⟨.invalid,"same topology version has different canonical bytes"⟩
          ⟨.conflict,some observed⟩

/-- What one section of a call leaves behind: the store, the call, and the value it stored. -/
structure CallStep where
  store : MemoryKvStore
  call : TopologyCas
  stored : Option Bytes

def TopologyCas.read (s : MemoryKvStore) (attempt : Nat) (lastError : Status) (fault : Option StoreFault) : CallStep :=
  let phase := casAttempt (c.call pb key) s attempt lastError fault
  let conflict := c.conflict || leftUnchanged phase
  ⟨s,{ c with conflict := conflict, phase := afterCas conflict phase },none⟩

def TopologyCas.write (s : MemoryKvStore) (w : CasWrite) (fault : Option StoreFault) : CallStep :=
  let call := c.call pb key
  let o := s.put (casPutRequest call w)
  let next (o : Outcome PutOutput) := { c with phase := afterCas c.conflict (casAfterPut call w o) }
  let stored := if o.status.isOk then some w.next else none
  match fault with
  | none => ⟨o.store,next o,stored⟩
  | some (.lost status) => ⟨s,next ⟨status,s,[],none⟩,none⟩
  | some (.applied status) => ⟨o.store,next ⟨status,o.store,[],none⟩,stored⟩

def TopologyCas.advance (s : MemoryKvStore) (fault : Option StoreFault) : Option CallStep :=
  match c.phase with
  | .cas (.reading attempt lastError) => some (c.read pb key s attempt lastError fault)
  | .cas (.writing w) => some (c.write pb key s w fault)
  | .cas (.done _ _) => none
  | .readBack rc =>
    let read :=
      match fault with
      | none => readExact s key
      | some fault => .error fault.status
    some ⟨s,{ c with phase := resolveReadBack pb c rc read },none⟩
  | .returned _ _ => none

end Call

/-! ## The system of calls -/

/-- The store, the calls made so far, and the values stored under the topology key so far with the
oldest first. -/
structure RepositoryState where
  store : MemoryKvStore
  calls : List TopologyCas
  log : List Bytes

inductive RepositoryAction where
  | invoke (expectedVersion : Nat) (desired : TopologyState) (expectedAuthorityRevision : Int)
  | advance (i : Nat) (fault : Option StoreFault)
  | store (op : StoreOp)

/-- Calls of the controllers interleaved with operations on other keys. Only failures with an error
status count as faults. -/
def repositoryStep (pb : Protobuf) (key : Bytes) (st : RepositoryState) : RepositoryAction → Option RepositoryState
  | .invoke expectedVersion desired revision =>
    let call := TopologyRepository.compareAndSwapTopology pb expectedVersion desired revision
    some { st with calls := st.calls ++ [call] }
  | .advance i fault =>
    if fault.any fun fault => fault.status.isOk then none
    else
      st.calls[i]?.bind fun c =>
        (c.advance pb key st.store fault).map fun r =>
          ⟨r.store,st.calls.set i r.call,st.log ++ r.stored.toList⟩
  | .store op =>
    let o := op.apply st.store
    if o.events.all fun e => e.entry.key ≠ key then some { st with store := o.store } else none

def repositoryMachine (pb : Protobuf) (key : Bytes) : Machine RepositoryState RepositoryAction where
  init := ⟨.empty,[],[]⟩
  step := repositoryStep pb key

/-! ## Versions of stored values -/

def storedVersion (pb : Protobuf) (value : Bytes) : Nat :=
  ((pb.parseFromString value).map fun message => message.version.toNat).getD 0

def topologyVersion (pb : Protobuf) (key : Bytes) (s : MemoryKvStore) : Nat :=
  ((s.visible key).map fun entry => storedVersion pb entry.value).getD 0

variable {pb : Protobuf}

theorem storedVersion_of_decode {value : Bytes} {s : TopologyState} (h : decodeTopology pb value = .ok s) :
    storedVersion pb value = s.version := by
  simp only [decodeTopology,Except.bind_eq_ok] at h
  obtain ⟨_,_,h⟩ := h
  split at h
  · cases h
  · rename_i message hparse
    simp only [decodeMessage,Except.bind_eq_ok] at h
    obtain ⟨_,_,_,_,_,_,members,_,batch,_,hvalid⟩ := h
    rw [(validateAndCanonicalizeTopologyState_eq_ok.mp hvalid).1]
    simp [storedVersion,hparse]

theorem storedVersion_of_encode (hpb : pb.Lawful) {value : Bytes} {s : TopologyState}
    (h : encodeTopology pb s = .ok value) : storedVersion pb value = s.version := by
  obtain ⟨c,hc,hvalue,_⟩ := encodeTopology_eq_ok.mp h
  obtain ⟨rfl,hvalid⟩ := validateAndCanonicalizeTopologyState_eq_ok.mp hc
  rw [storedVersion,hpb.roundTrips _ _ hvalue,map_some,getD_some,toPb_version]
  rw [UInt64.toNat_ofNat']
  exact Nat.mod_eq_of_lt hvalid.version_lt

/-- The callback asks for a write only on the expected version; absence counts as version zero. -/
theorem topologyCasProcess_next (hpb : pb.Lawful) {expectedVersion : Nat} {desiredBytes current next : Bytes}
    (h : (topologyCasProcess pb expectedVersion desiredBytes current).next = some next) :
    next = desiredBytes ∧ storedVersion pb current = expectedVersion := by
  unfold topologyCasProcess at h
  split at h
  · rename_i hempty
    obtain rfl := List.isEmpty_iff.mp hempty.1
    refine ⟨(some.inj h).symm,?_⟩
    rw [storedVersion,hpb.parse_nil,hempty.2]
    rfl
  · split at h
    · cases h
    · rename_i observed hdecode
      split_ifs at h with hversion
      exact ⟨(some.inj h).symm,(storedVersion_of_decode hdecode).trans (not_not.mp hversion)⟩

/-! ## The invariant of the system -/

/-- The stored value is the last one of the log, its key version counts the values of the log, and
the topology versions of the log count up from one. -/
structure LogInv (pb : Protobuf) (key : Bytes) (s : MemoryKvStore) (log : List Bytes) : Prop where
  current : (s.visible key).map (fun e => (e.value, e.version)) =
    log.getLast?.map fun v => (v, (log.length : Int))
  versions : ∀ i v, log[i]? = some v → storedVersion pb v = i + 1

/-- The desired bytes of a call are the entry of the log that follows its expected version. -/
def TopologyCas.InLog (c : TopologyCas) (log : List Bytes) : Prop := log[c.expectedVersion]? = some c.desiredBytes

structure CallInv (pb : Protobuf) (key : Bytes) (log : List Bytes) (c : TopologyCas) : Prop where
  encoded : (∀ status result, c.phase ≠ .returned status result) →
    encodeTopology pb c.desired = .ok c.desiredBytes ∧ c.desired.version = c.expectedVersion + 1
  reading : ∀ attempt lastError, c.phase = .cas (.reading attempt lastError) → ¬ lastError.isOk
  writing : ∀ w, c.phase = .cas (.writing w) → w.next = c.desiredBytes ∧
    (casCurrent (c.call pb key) w.read).version = c.expectedVersion
  committed : ∀ status result, c.phase = .returned status result → result.outcome = .committed →
    encodeTopology pb c.desired = .ok c.desiredBytes ∧ c.InLog log

structure RepositoryInv (pb : Protobuf) (key : Bytes) (st : RepositoryState) : Prop where
  log : LogInv pb key st.store st.log
  calls : ∀ c ∈ st.calls, CallInv pb key st.log c

section Invariant

variable {pb : Protobuf} {key : Bytes} {s : MemoryKvStore} {log : List Bytes} {c : TopologyCas}

theorem CallInv.append (h : CallInv pb key log c) (stored : List Bytes) : CallInv pb key (log ++ stored) c where
  encoded := h.encoded
  reading := h.reading
  writing := h.writing
  committed status result hphase houtcome := by
    obtain ⟨hencode,hlog⟩ := h.committed status result hphase houtcome
    obtain ⟨hlt,_⟩ := List.getElem?_eq_some_iff.mp hlog
    exact ⟨hencode,(getElem?_append_left hlt).trans hlog⟩

/-- The value read under the topology key is an entry of the log, at the place given by its key
version. -/
theorem LogInv.read (h : LogInv pb key s log) {entry : KeyValueEntry} (hread : readExact s key = .ok entry) :
    entry.version = log.length ∧ log.getLast? = some entry.value ∧ storedVersion pb entry.value = log.length := by
  rw [readExact_eq] at hread
  cases hfind : s.find key with
  | none => simp [hfind] at hread
  | some found =>
    simp only [hfind,Except.ok.injEq] at hread
    have hvisible : s.visible key = some entry := by
      rw [visible,hfind,map_some,hread]
    have hcurrent := h.current
    rw [hvisible,map_some] at hcurrent
    cases hlast : log.getLast? with
    | none => simp [hlast] at hcurrent
    | some v =>
      rw [hlast,map_some,some.injEq,Prod.mk.injEq] at hcurrent
      obtain ⟨rfl,hversion⟩ := hcurrent
      refine ⟨hversion,rfl,?_⟩
      rw [getLast?_eq_getElem?] at hlast
      have hpos : log.length ≠ 0 := by
        intro hzero
        rw [length_eq_zero_iff.mp hzero] at hlast
        cases hlast
      rw [h.versions _ _ hlast]
      omega

variable {fault : Option StoreFault} {call : CasCall} {lastError : Status} {attempt : Nat} {w : CasWrite}

/-- An attempt is over, its read has failed, or it goes on with what has been read. -/
theorem casAttempt_cases (call : CasCall) (s : MemoryKvStore) (attempt : Nat) (lastError : Status)
    (fault : Option StoreFault) : casAttempt call s attempt lastError fault = .done lastError none ∨
      (∃ f, fault = some f ∧ casAttempt call s attempt lastError fault = .done f.status none) ∨
      ∃ read, (∀ entry, read = some entry → readExact s call.physicalKey = .ok entry) ∧
        casAttempt call s attempt lastError fault = casRead.run call s attempt read := by
  cases fault with
  | none =>
    simp only [casAttempt,casRead]
    split_ifs
    · cases hread : readExact s call.physicalKey with
      | error status =>
        -- the read of an exact key fails with nothing but absence
        have hcode : status.code = .notFound := by
          rw [readExact_eq] at hread
          split at hread
          · exact Except.error.inj hread ▸ rfl
          · cases hread
        exact .inr (.inr ⟨none,by simp,by simp [hcode]⟩)
      | ok entry => exact .inr (.inr ⟨some entry,fun _ h => some.inj h ▸ rfl,rfl⟩)
    · exact .inl rfl
  | some f =>
    simp only [casAttempt]
    split_ifs
    · exact .inr (.inl ⟨f,rfl,rfl⟩)
    · exact .inr (.inr ⟨none,by simp,rfl⟩)
    · exact .inl rfl

theorem casAttempt_writing (h : casAttempt call s attempt lastError fault = .writing w) :
    (call.process (casCurrent call w.read).value).next = some w.next ∧
      ∀ entry, w.read = some entry → readExact s call.physicalKey = .ok entry := by
  rcases casAttempt_cases call s attempt lastError fault with heq | ⟨f,-,heq⟩ | ⟨read,hread,heq⟩ <;> rw [heq] at h
  · cases h
  · cases h
  · obtain ⟨rfl,_,hnext⟩ := casRead_run_writing h
    exact ⟨hnext,hread⟩

theorem casRead_run_done {read : Option KeyValueEntry} {rc : Status} {out : Option KeyValueEntry}
    (h : casRead.run call s attempt read = .done rc out) (hrc : rc.isOk) : out.isSome := by
  unfold casRead.run at h
  dsimp only at h
  split at h
  · rename_i hstatus
    split_ifs at h
    cases h
    exact absurd hrc hstatus
  · split at h
    · cases h
      rfl
    · cases h

theorem casAttempt_done {rc : Status} {out : Option KeyValueEntry} (hlast : ¬ lastError.isOk)
    (hfault : ∀ f, fault = some f → ¬ f.status.isOk) (h : casAttempt call s attempt lastError fault = .done rc out)
    (hrc : rc.isOk) : out.isSome := by
  rcases casAttempt_cases call s attempt lastError fault with heq | ⟨f,hf,heq⟩ | ⟨read,-,heq⟩ <;> rw [heq] at h
  · cases h
    exact absurd hrc hlast
  · cases h
    exact absurd hrc (hfault f hf)
  · exact casRead_run_done h hrc

theorem casRead_run_reading {attempt n : Nat} {read : Option KeyValueEntry}
    (h : casRead.run call s attempt read = .reading n lastError) : ¬ lastError.isOk := by
  unfold casRead.run at h
  dsimp only at h
  split at h
  · rename_i hstatus
    split_ifs at h
    cases h
    exact hstatus
  · split at h <;> cases h

theorem casAttempt_reading {attempt n : Nat} {lastError lastError' : Status}
    (h : casAttempt call s attempt lastError fault = .reading n lastError') : ¬ lastError'.isOk := by
  rcases casAttempt_cases call s attempt lastError fault with heq | ⟨f,-,heq⟩ | ⟨read,-,heq⟩ <;> rw [heq] at h
  · cases h
  · cases h
  · exact casRead_run_reading h

theorem CallInv.read_step (hpb : pb.Lawful) (hlog : LogInv pb key s log) (h : CallInv pb key log c)
    (hfault : ∀ f, fault = some f → ¬ f.status.isOk) (hphase : c.phase = .cas (.reading attempt lastError)) :
    CallInv pb key log (c.read pb key s attempt lastError fault).call := by
  have hencoded := h.encoded (by simp [hphase])
  have hlast := h.reading _ _ hphase
  simp only [TopologyCas.read]
  cases hattempt : casAttempt (c.call pb key) s attempt lastError fault with
  | reading n lastError' =>
    refine ⟨fun _ => hencoded,?_,by simp [afterCas],by simp [afterCas]⟩
    intro n' e heq
    cases heq
    exact casAttempt_reading hattempt
  | writing w =>
    obtain ⟨hnext,hread⟩ := casAttempt_writing hattempt
    obtain ⟨hbytes,hversion⟩ := topologyCasProcess_next hpb hnext
    refine ⟨fun _ => hencoded,by simp [afterCas],?_,by simp [afterCas]⟩
    intro w' heq
    cases heq
    refine ⟨hbytes,?_⟩
    change (casCurrent (c.call pb key) w.read).version = _
    cases hw : w.read with
    | none =>
      rw [hw] at hversion
      have hzero : storedVersion pb [] = c.expectedVersion := hversion
      rw [storedVersion,hpb.parse_nil] at hzero
      have : c.expectedVersion = 0 := hzero.symm
      rw [this]
      rfl
    | some entry =>
      obtain ⟨hkey,_,hstored⟩ := hlog.read (hread entry hw)
      rw [hw] at hversion
      change entry.version = (c.expectedVersion : Int)
      have : storedVersion pb entry.value = c.expectedVersion := hversion
      omega
  | done rc out =>
    simp only [afterCas]
    split
    · rename_i hok
      simp only [Bool.and_eq_true,Bool.not_eq_true',Bool.or_eq_false_iff] at hok
      have hsome := casAttempt_done hlast hfault hattempt hok.1
      obtain ⟨current,rfl⟩ := isSome_iff_exists.mp hsome
      exact absurd hok.2.2 (by simp [leftUnchanged])
    · exact ⟨fun _ => hencoded,by simp,by simp,by simp⟩

theorem LogInv.put (hpb : pb.Lawful) (hlog : LogInv pb key s log) (h : CallInv pb key log c)
    (hphase : c.phase = .cas (.writing w)) (hok : (s.put (casPutRequest (c.call pb key) w)).status.isOk) :
    LogInv pb key (s.put (casPutRequest (c.call pb key) w)).store (log ++ [w.next]) ∧
      c.expectedVersion = log.length := by
  obtain ⟨hencode,hdesired⟩ := h.encoded (by simp [hphase])
  obtain ⟨hbytes,hversion⟩ := h.writing w hphase
  have hexpected : (casPutRequest (c.call pb key) w).expectedVersion = c.expectedVersion := hversion
  have hcheck : (casPutRequest (c.call pb key) w).expectedVersion ≠ coordinatorNoVersionCheck := by
    rw [hexpected]
    unfold coordinatorNoVersionCheck
    omega
  have hput := put_isOk_version hcheck hok
  have hfind := find_put hok
  change (s.put _).store.find key = some (putEntry (s.find key) _ _) at hfind
  have hcurrent := hlog.current
  -- the key version found by the put is the length of the log
  have hlength : c.expectedVersion = log.length ∧
      (putEntry (s.find key) (casPutRequest (c.call pb key) w) (s.revision + 1)).version = log.length + 1 := by
    have hreq : (casPutRequest (c.call pb key) w).key = key := rfl
    rw [hreq] at hput
    cases hkey : s.find key with
    | none =>
      simp only [hkey,hexpected,coordinatorKeyNotExistsVersion] at hput
      have hnil : log = [] := by simpa [visible,hkey,eq_comm] using hcurrent
      rw [hnil]
      exact ⟨by simpa using hput,rfl⟩
    | some entry =>
      simp only [hkey,hexpected] at hput
      rw [visible,hkey] at hcurrent
      cases hlast : log.getLast? with
      | none => simp [hlast] at hcurrent
      | some v =>
        simp only [hlast,map_some,some.injEq,Prod.mk.injEq,ValueEntry.toKeyValue] at hcurrent
        refine ⟨by omega,?_⟩
        change entry.version + 1 = _
        omega
  refine ⟨⟨?_,?_⟩,hlength.1⟩
  · have hvalue : (putEntry (s.find key) (casPutRequest (c.call pb key) w) (s.revision + 1)).value = w.next := by
      unfold putEntry
      split <;> rfl
    simp only [visible,hfind,map_some,ValueEntry.toKeyValue,hvalue,hlength.2]
    simp
  · intro i v hv
    by_cases hi : i < log.length
    · rw [getElem?_append_left hi] at hv
      exact hlog.versions i v hv
    · rw [getElem?_append_right (by omega)] at hv
      have hzero : i - log.length = 0 := by
        by_contra hne
        rw [getElem?_eq_none (by simp; omega)] at hv
        cases hv
      rw [hzero] at hv
      obtain rfl : w.next = v := by simpa using hv
      rw [hbytes,storedVersion_of_encode hpb hencode]
      omega

/-- The section after a put: the call returns on success and goes on otherwise. -/
theorem afterCas_casAfterPut (h : CallInv pb key log c) {o : Outcome PutOutput} {log' : List Bytes}
    (hphase : c.phase = .cas (.writing w)) (hcommit : o.status.isOk → c.InLog log') :
    CallInv pb key log' { c with phase := afterCas c.conflict (casAfterPut (c.call pb key) w o) } := by
  have hencoded := h.encoded (by simp [hphase])
  unfold casAfterPut
  split
  · rename_i hok
    simp only [afterCas]
    split
    · refine ⟨by simp,by simp,by simp,?_⟩
      intro _ _ _ _
      exact ⟨hencoded.1,hcommit hok⟩
    · exact ⟨fun _ => hencoded,by simp,by simp,by simp⟩
  · rename_i hok
    have hdone : CallInv pb key log' { c with phase := afterCas c.conflict (.done o.status none) } := by
      simp only [afterCas,hok,Bool.false_and,Bool.false_eq_true,if_false]
      exact ⟨fun _ => hencoded,by simp,by simp,by simp⟩
    split
    · exact hdone
    · split
      · exact hdone
      · refine ⟨fun _ => hencoded,?_,by simp [afterCas],by simp [afterCas]⟩
        intro n e heq
        cases heq
        exact hok

variable (hpb : pb.Lawful) (hlog : LogInv pb key s log) (h : CallInv pb key log c)

include hpb hlog h

theorem write_step (hfault : ∀ f, fault = some f → ¬ f.status.isOk) (hphase : c.phase = .cas (.writing w)) :
    LogInv pb key (c.write pb key s w fault).store (log ++ (c.write pb key s w fault).stored.toList) ∧
      CallInv pb key (log ++ (c.write pb key s w fault).stored.toList) (c.write pb key s w fault).call := by
  -- what the put leaves, whether or not its success is reported
  have hput : LogInv pb key (s.put (casPutRequest (c.call pb key) w)).store
      (log ++ (if (s.put (casPutRequest (c.call pb key) w)).status.isOk then some w.next
        else none).toList) := by
    split_ifs with hok
    · exact (hlog.put hpb h hphase hok).1
    · rw [put_rejected hok]
      simpa using hlog
  cases fault with
  | none =>
    refine ⟨hput,afterCas_casAfterPut h hphase ?_⟩
    intro hok
    have hlength := (hlog.put hpb h hphase hok).2
    have hstored : (c.write pb key s w none).stored = some c.desiredBytes := by
      rw [← (h.writing w hphase).1]
      exact if_pos hok
    rw [TopologyCas.InLog,hstored,hlength]
    simp
  | some f =>
    cases f with
    | lost status =>
      refine ⟨by simpa [TopologyCas.write] using hlog,afterCas_casAfterPut h hphase ?_⟩
      intro hok
      exact absurd hok (hfault _ rfl)
    | applied status =>
      refine ⟨hput,afterCas_casAfterPut h hphase ?_⟩
      intro hok
      exact absurd hok (hfault _ rfl)

theorem CallInv.readBack_step {rc : Status} {read : Except Status KeyValueEntry} (hphase : c.phase = .readBack rc)
    (hread : ∀ entry, read = .ok entry → readExact s key = .ok entry) :
    CallInv pb key log { c with phase := resolveReadBack pb c rc read } := by
  obtain ⟨hencode,hdesired⟩ := h.encoded (by simp [hphase])
  have hreturned : ∀ status result, (result : TopologyCasResult).outcome ≠ .committed →
      CallInv pb key log { c with phase := .returned status result } := by
    intro status result hne
    refine ⟨by simp,by simp,by simp,?_⟩
    intro status' result' heq houtcome
    cases heq
    exact absurd houtcome hne
  unfold resolveReadBack
  split
  · exact hreturned _ _ (by simp)
  · rename_i entry
    split
    · exact hreturned _ _ (by simp)
    · split
      · rename_i hbytes
        obtain ⟨_,hlast,hversion⟩ := hlog.read (hread entry rfl)
        rw [hbytes,storedVersion_of_encode hpb hencode] at hversion
        refine ⟨by simp,by simp,by simp,?_⟩
        intro _ _ _ _
        refine ⟨hencode,?_⟩
        rw [getLast?_eq_getElem?,hbytes] at hlast
        rw [TopologyCas.InLog,← hlast]
        congr 1
        change c.expectedVersion = _
        omega
      · split
        · exact hreturned _ _ (by simp)
        · exact hreturned _ _ (by simp)

/-- Only the write section stores a value: the desired bytes, directly after the expected version. -/
theorem stored_of_advance {r : CallStep}
    {v : Bytes} (hstep : c.advance pb key s fault = some r) (hstored : r.stored = some v) :
    v = c.desiredBytes ∧ c.expectedVersion = log.length ∧
      encodeTopology pb c.desired = .ok c.desiredBytes ∧ c.desired.version = c.expectedVersion + 1 := by
  unfold TopologyCas.advance at hstep
  split at hstep
  · cases hstep
    cases hstored
  · rename_i w hphase
    cases hstep
    have hput : (s.put (casPutRequest (c.call pb key) w)).status.isOk ∧ v = w.next := by
      have hif : (if (s.put (casPutRequest (c.call pb key) w)).status.isOk then some w.next
          else none) = some v := by
        cases fault with
        | none => exact hstored
        | some f =>
          cases f with
          | lost status => cases hstored
          | applied status => exact hstored
      split_ifs at hif with hok
      exact ⟨hok,(some.inj hif).symm⟩
    refine ⟨hput.2.trans (h.writing w hphase).1,(hlog.put hpb h hphase hput.1).2,?_⟩
    exact h.encoded (by simp [hphase])
  · cases hstep
  · cases hstep
    cases hstored
  · cases hstep

theorem advance_step (hfault : ∀ f, fault = some f → ¬ f.status.isOk) {r : CallStep} (hstep : c.advance pb key s fault = some r) :
    LogInv pb key r.store (log ++ r.stored.toList) ∧ CallInv pb key (log ++ r.stored.toList) r.call := by
  unfold TopologyCas.advance at hstep
  split at hstep
  · rename_i attempt lastError hphase
    cases hstep
    have hcall := h.read_step hpb hlog hfault hphase
    simpa [TopologyCas.read] using ⟨hlog,hcall⟩
  · rename_i w hphase
    cases hstep
    exact write_step hpb hlog h hfault hphase
  · cases hstep
  · rename_i rc hphase
    cases hstep
    refine ⟨by simpa using hlog,?_⟩
    rw [toList_none,append_nil]
    apply h.readBack_step hpb hlog hphase
    intro entry hentry
    cases fault with
    | none => exact hentry
    | some f => cases hentry
  · cases hstep

omit hpb hlog h

theorem compareAndSwapTopology_inv (expectedVersion : Nat) (desired : TopologyState) (revision : Int) :
    CallInv pb key log (TopologyRepository.compareAndSwapTopology pb expectedVersion desired revision) := by
  have hreturned : ∀ status, CallInv pb key log ⟨expectedVersion,desired,revision,[],false,.returned status {}⟩ := by
    intro status
    refine ⟨by simp,by simp,by simp,?_⟩
    intro _ result heq houtcome
    cases heq
    cases houtcome
  unfold TopologyRepository.compareAndSwapTopology
  dsimp only
  split
  · exact hreturned _
  · rename_i hversion
    split
    · exact hreturned _
    · rename_i bytes hencode
      refine ⟨fun _ => ⟨hencode,not_not.mp hversion⟩,?_,by simp,by simp⟩
      intro n e heq
      cases heq
      simp [Status.isOk]

/-- Operations that publish nothing for the topology key leave it alone. -/
theorem visible_of_events {op : StoreOp} (h : (op.apply s).events.all (fun e => e.entry.key ≠ key) = true) :
    (op.apply s).store.visible key = s.visible key := by
  by_contra hne
  obtain ⟨e,he,hkey,_⟩ := (apply_spec op s).changed_key hne
  have := all_eq_true.mp h e he
  simp [hkey] at this

theorem repositoryStep_inv (hpb : pb.Lawful) {st st' : RepositoryState} {a : RepositoryAction}
    (hinv : RepositoryInv pb key st) (hstep : repositoryStep pb key st a = some st') :
    RepositoryInv pb key st' := by
  cases a with
  | invoke expectedVersion desired revision =>
    cases hstep
    refine ⟨hinv.log,?_⟩
    intro c hc
    rcases mem_append.mp hc with hc | hc
    · exact hinv.calls c hc
    · rw [mem_singleton.mp hc]
      exact compareAndSwapTopology_inv _ _ _
  | advance i fault =>
    simp only [repositoryStep] at hstep
    split_ifs at hstep with hfault
    obtain ⟨c,hc,hadvance⟩ := bind_eq_some_iff.mp hstep
    obtain ⟨r,hr,rfl⟩ := map_eq_some_iff.mp hadvance
    have hfault : ∀ f, fault = some f → ¬ f.status.isOk := by
      rintro f rfl
      simpa using hfault
    obtain ⟨hlog,hcall⟩ := advance_step hpb hinv.log (hinv.calls c (mem_of_getElem? hc)) hfault hr
    refine ⟨hlog,?_⟩
    intro x hx
    rcases mem_or_eq_of_mem_set hx with hx | rfl
    · exact (hinv.calls x hx).append _
    · exact hcall
  | store op =>
    simp only [repositoryStep] at hstep
    split_ifs at hstep with hevents
    cases hstep
    refine ⟨⟨?_,hinv.log.versions⟩,hinv.calls⟩
    rw [visible_of_events hevents]
    exact hinv.log.current

theorem reachable_repositoryInv (hpb : pb.Lawful) {st : RepositoryState}
    (h : (repositoryMachine pb key).Reachable st) : RepositoryInv pb key st := by
  refine h.invariant ⟨⟨rfl,by simp [repositoryMachine]⟩,by simp [repositoryMachine]⟩ ?_
  intro s a s' hinv hstep
  exact repositoryStep_inv hpb hinv hstep

theorem LogInv.topologyVersion_eq (h : LogInv pb key s log) : topologyVersion pb key s = log.length := by
  cases hlast : log.getLast? with
  | none =>
    have hnil := getLast?_eq_none_iff.mp hlast
    have hcurrent := h.current
    rw [hlast] at hcurrent
    simp only [map_none,map_eq_none_iff] at hcurrent
    rw [topologyVersion,hcurrent,hnil]
    rfl
  | some v =>
    have hcurrent := h.current
    rw [hlast] at hcurrent
    obtain ⟨entry,hentry,heq⟩ := map_eq_some_iff.mp hcurrent
    have hread : readExact s key = .ok entry := by
      rw [readExact_eq]
      unfold visible at hentry
      obtain ⟨found,hfound,rfl⟩ := map_eq_some_iff.mp hentry
      rw [hfound]
    rw [topologyVersion,hentry,map_some,getD_some]
    exact (h.read hread).2.2

theorem repositoryStep_log {st st' : RepositoryState} {a : RepositoryAction}
    (hstep : repositoryStep pb key st a = some st') :
    st'.log = st.log ∨ ∃ v, st'.log = st.log ++ [v] := by
  cases a with
  | invoke expectedVersion desired revision =>
    cases hstep
    exact Or.inl rfl
  | advance i fault =>
    simp only [repositoryStep] at hstep
    split_ifs at hstep
    obtain ⟨c,hc,hadvance⟩ := bind_eq_some_iff.mp hstep
    obtain ⟨r,hr,rfl⟩ := map_eq_some_iff.mp hadvance
    cases hstored : r.stored with
    | none => exact Or.inl (by simp)
    | some v => exact Or.inr ⟨v,by simp⟩
  | store op =>
    simp only [repositoryStep] at hstep
    split_ifs at hstep
    cases hstep
    exact Or.inl rfl

end Invariant

/-- In every interleaving of calls with failing store accesses the values stored as topology carry
the versions one, two, three and so on; a step leaves the stored topology as it is or replaces it by
one whose version is the next; and a call that reports a commit has its desired bytes stored directly
after its expected version. -/
theorem topology_cas_linear (pb : Protobuf) (hpb : pb.Lawful) (key : Bytes) (st : RepositoryState)
    (hreach : (repositoryMachine pb key).Reachable st) :
    (∀ i v, st.log[i]? = some v → storedVersion pb v = i + 1) ∧
    (∀ a st', repositoryStep pb key st a = some st' → (st'.log = st.log ∧
        (st'.store.visible key).map (fun e => (e.value, e.version)) =
          (st.store.visible key).map fun e => (e.value, e.version)) ∨
      ∃ v, st'.log = st.log ++ [v] ∧ (st'.store.visible key).map KeyValueEntry.value = some v ∧
        topologyVersion pb key st'.store = topologyVersion pb key st.store + 1) ∧
    (∀ c ∈ st.calls, ∀ status result, c.phase = .returned status result → result.outcome = .committed →
        encodeTopology pb c.desired = .ok c.desiredBytes ∧ st.log[c.expectedVersion]? = some c.desiredBytes) := by
  have hinv := reachable_repositoryInv hpb hreach
  refine ⟨hinv.log.versions,?_,?_⟩
  · intro a st' hstep
    have hinv' := repositoryStep_inv hpb hinv hstep
    rcases repositoryStep_log hstep with hlog | ⟨v,hlog⟩
    · refine Or.inl ⟨hlog,?_⟩
      rw [hinv'.log.current,hinv.log.current,hlog]
    · refine Or.inr ⟨v,hlog,?_,?_⟩
      · have hcurrent := congrArg (Option.map Prod.fst) hinv'.log.current
        rw [hlog] at hcurrent
        simpa [Function.comp_def] using hcurrent
      · rw [hinv'.log.topologyVersion_eq,hinv.log.topologyVersion_eq,hlog]
        simp
  · intro c hc status result hphase houtcome
    exact (hinv.calls c hc).committed status result hphase houtcome

/-- Two controllers start from the empty store. The put of the first is applied but reported failed,
and its read-back finds the bytes; the second finds a conflict. -/
def ambiguousCommit : List RepositoryAction :=
  [.invoke 0 ⟨false,1,[],none⟩ 0,.invoke 0 ⟨true,1,[],none⟩ 0,.advance 0 none,.advance 1 none,
    .advance 0 (some (.applied ⟨.kvstoreError,"connection lost"⟩)),.advance 1 none,.advance 1 none,
    .advance 0 none,.advance 1 none]

theorem topology_cas_linear_ambiguous : ∃ st, (repositoryMachine protobufWire [116]).Reachable st ∧ ∃ c ∈ st.calls,
      c.phase = .returned .success ⟨.committed,some ⟨false,1,[],none⟩⟩ ∧
        st.log[c.expectedVersion]? = some c.desiredBytes := by
  have hrun : ((repositoryMachine protobufWire [116]).run (repositoryMachine protobufWire [116]).init
      ambiguousCommit).map (fun st => st.calls.map fun c => c.phase) =
      some [.returned .success ⟨.committed,some ⟨false,1,[],none⟩⟩,
        .returned ⟨.invalid,"same topology version has different canonical bytes"⟩
          ⟨.conflict,some ⟨false,1,[],none⟩⟩] := by
    decide +kernel
  obtain ⟨st,hst,hphases⟩ := map_eq_some_iff.mp hrun
  have hreach := Machine.Reachable.run .init hst
  obtain ⟨c,hc,hphase⟩ := mem_map.mp (hphases ▸ mem_cons_self)
  exact ⟨st,hreach,c,hc,hphase,
    ((topology_cas_linear protobufWire protobufWire_lawful [116] st hreach).2.2 c hc _ _ hphase rfl).2⟩

/-! ## Refinement of the versioned history -/

/-- The histories that compare-and-swap on a versioned history builds. -/
inductive CasHistory : TopologyHistory → Prop
  | nil : CasHistory []
  | swap {history history' : TopologyHistory} {expectedVersion : Nat} {desired : TopologyState}
      (h : CasHistory history)
      (hswap : compareAndSwapTopology history expectedVersion desired = some history') :
      CasHistory history'

/-- The stored values are the serialized topologies of a history, which has its newest topology
first. -/
def Serialized (pb : Protobuf) (history : TopologyHistory) (log : List Bytes) : Prop :=
  List.Forall₂ (fun snapshot v => pb.serializeToString snapshot.state.toPb = some v)
    history log.reverse

theorem Serialized.currentVersion_eq (hpb : pb.Lawful) {key : Bytes} {s : MemoryKvStore} {history : TopologyHistory}
    {log : List Bytes} (h : Serialized pb history log) (hlog : LogInv pb key s log) :
    currentVersion history = log.length := by
  cases history with
  | nil =>
    have : log = [] := by simpa [Serialized] using h
    rw [this]
    rfl
  | cons latest history =>
    obtain ⟨last,before,hlast,_,hreverse⟩ := forall₂_cons_left_iff.mp h
    obtain rfl : log = before.reverse ++ [last] := by
      rw [← reverse_reverse log,hreverse,reverse_cons]
    have hversion := hlog.versions before.reverse.length last (by simp)
    rw [storedVersion,hpb.roundTrips _ _ hlast,map_some,getD_some,toPb_version,
      UInt64.toNat_ofNat',Nat.mod_eq_of_lt latest.valid.version_lt] at hversion
    simpa [currentVersion] using hversion

/-- The stored topologies of every interleaving form a history of successful swaps. -/
theorem repository_refines_history (hpb : pb.Lawful) {key : Bytes} {st : RepositoryState}
    (hreach : (repositoryMachine pb key).Reachable st) :
    ∃ history, CasHistory history ∧ Serialized pb history st.log := by
  have hboth := hreach.invariant (P := fun st => RepositoryInv pb key st ∧
    ∃ history, CasHistory history ∧ Serialized pb history st.log)
  refine (hboth ⟨reachable_repositoryInv hpb .init,[],.nil,.nil⟩ ?_).2
  rintro s a s' ⟨hinv,history,hhistory,hserialized⟩ hstep
  refine ⟨repositoryStep_inv hpb hinv hstep,?_⟩
  cases a with
  | invoke expectedVersion desired revision =>
    cases hstep
    exact ⟨history,hhistory,hserialized⟩
  | advance i fault =>
    simp only [repositoryMachine,repositoryStep] at hstep
    split_ifs at hstep
    obtain ⟨c,hc,hadvance⟩ := bind_eq_some_iff.mp hstep
    obtain ⟨r,hr,rfl⟩ := map_eq_some_iff.mp hadvance
    cases hstored : r.stored with
    | none => exact ⟨history,hhistory,by simpa using hserialized⟩
    | some v =>
      obtain ⟨rfl,hversion,hencode,hdesired⟩ := stored_of_advance hpb hinv.log
        (hinv.calls c (mem_of_getElem? hc)) hr hstored
      obtain ⟨canonical,hcanonical,hbytes,_⟩ := encodeTopology_eq_ok.mp hencode
      have hvalid := (validateAndCanonicalizeTopologyState_eq_ok.mp hcanonical).2
      have hcreate : TopologySnapshot.create c.desired = .ok ⟨canonical,hvalid⟩ :=
        TopologySnapshot.create_eq_ok.mpr hcanonical
      have hswap : compareAndSwapTopology history c.expectedVersion c.desired =
          some (⟨canonical,hvalid⟩ :: history) := by
        simp [compareAndSwapTopology,hdesired,hserialized.currentVersion_eq hpb hinv.log,hversion,hcreate]
      refine ⟨_,.swap hhistory hswap,?_⟩
      simpa [Serialized] using ⟨hbytes,hserialized⟩
  | store op =>
    simp only [repositoryMachine,repositoryStep] at hstep
    split_ifs at hstep
    cases hstep
    exact ⟨history,hhistory,hserialized⟩

theorem repository_refines_history_ambiguous : ∃ st history,
    (repositoryMachine protobufWire [116]).Reachable st ∧ st.log.length = 1 ∧ CasHistory history ∧
      Serialized protobufWire history st.log := by
  have hrun : ((repositoryMachine protobufWire [116]).run (repositoryMachine protobufWire [116]).init
      ambiguousCommit).map (fun st => st.log.length) = some 1 := by
    decide +kernel
  obtain ⟨st,hst,hlength⟩ := map_eq_some_iff.mp hrun
  have hreach := Machine.Reachable.run .init hst
  obtain ⟨history,hhistory,hserialized⟩ := repository_refines_history protobufWire_lawful hreach
  exact ⟨st,history,hreach,hlength,hhistory,hserialized⟩

end Datasystem.Cluster
