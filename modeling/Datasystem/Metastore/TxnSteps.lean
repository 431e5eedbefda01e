import Datasystem.Metastore.MetastoreCalls

/-!
# Transactions, one operation after another

What a transaction is for: its compares choose a list of operations, and these are applied one after another,
all writes at one new revision, with the leases and the watchers brought up to date at each operation.
-/

namespace Datasystem.Metastore

open Bytes MetaStore Act List LeaseManager MetaStore

/-- The operand for the number that a compare names. -/
def Compare.operand (cmp : Compare) : Int :=
  match cmp.target, cmp.targetUnion with
  | .version, some (.version v) => v
  | .create, some (.createRevision r) => r
  | .mod, some (.modRevision r) => r
  | .lease, some (.lease l) => l
  | _, _ => 0

/-- A compare of the field that it names with the operand for this field. -/
def Compare.holds (cmp : Compare) (info : Option KeyInfo) : Bool :=
  match cmp.target with
  | .value => compareStringValue (info.elim [] fun i => i.kv.value) cmp.value cmp.result
  | target => compareIntValue (info.elim 0 (getTargetValue target)) cmp.operand cmp.result

/-- The watchers of the key of an event find it in their queues. -/
def WatchManager.notify (revision : Int) (m : WatchManager) (event : WatchEvent) : WatchManager :=
  (m.collectWatchers event.key).foldl (fun m w =>
    m.sendWatchResponse ⟨w.watchId,revision,false,
      some { event with prevKv := if w.prevKv then event.prevKv else none }⟩) m

namespace LeaseManager

/-- A key leaves a lease, where zero stands for none. -/
def release (m : LeaseManager) (lease : Int) (key : Bytes) : LeaseManager :=
  if lease = 0 then m else m.detachKey lease key

/-- A put moves a key from its old lease to the new one. -/
def rebind (m : LeaseManager) (change : Bytes × Int × Int) : LeaseManager :=
  if change.2.2 = 0 then m.release change.2.1 change.1
  else ((m.release change.2.1 change.1).attachKey change.2.2 change.1).2

/-- The puts of a list of operations name only leases that exist. -/
def checkLeases (m : LeaseManager) : List RequestOp → Except Status Unit
  | [] => .ok ()
  | .put req :: ops =>
    if req.lease = 0 ∨ m.leaseExists req.lease = true then checkLeases m ops
    else .error (leaseNotFound req.lease)
  | _ :: ops => checkLeases m ops

end LeaseManager

def RequestOp.isWrite : RequestOp → Bool
  | .put _ => true
  | .deleteRange _ => true
  | .range _ => false

namespace MetaStore

variable (revision : Int)

def applyPut (s : MetaStore) (req : PutRequest) : ResponseOp × MetaStore :=
  let prevKv := (s.kv.find req.key).map KeyInfo.kv
  let info := txnPutInfo s.kv req revision
  (.put (if req.prevKv then some (prevKv.getD {}) else none),
    { kv := s.kv.storePut req.key info revision
      leases := s.leases.rebind (req.key, prevKv.elim 0 KeyValue.lease, req.lease)
      watch := s.watch.notify revision ⟨.put,req.key,info.kv,prevKv⟩
      log := ⟨revision,.put,req.key,req.value,req.lease⟩ :: s.log })

def applyErase (s : MetaStore) (e : Bytes × KeyInfo) : MetaStore :=
  { kv := s.kv.eraseRecorded revision e
    leases := s.leases.release e.2.kv.lease e.1
    watch := s.watch.notify revision ⟨.delete,e.1,{ e.2.kv with modRevision := revision },none⟩
    log := ⟨revision,.delete,e.1,e.2.kv.value,e.2.kv.lease⟩ :: s.log }

def applyDeleteRange (s : MetaStore) (req : DeleteRangeRequest) : ResponseOp × MetaStore :=
  let deleted := s.kv.inRange req.key req.rangeEnd
  (.deleteRange deleted.length (if req.prevKv then deleted.map fun e => e.2.kv else []),
    deleted.foldl (applyErase revision) s)

def applyRange (s : MetaStore) (req : RangeRequest) : ResponseOp :=
  let kvs := (s.kv.range req.key req.rangeEnd req.limit req.countOnly req.keysOnly).getD []
  .range kvs kvs.length

def applyOp (s : MetaStore) : RequestOp → ResponseOp × MetaStore
  | .put req => s.applyPut revision req
  | .deleteRange req => s.applyDeleteRange revision req
  | .range req => (s.applyRange req, s)

def applyOps (revision : Int) : MetaStore → List RequestOp → List ResponseOp × MetaStore
  | s, [] => ([], s)
  | s, op :: ops =>
    let rest := applyOps revision (s.applyOp revision op).2 ops
    ((s.applyOp revision op).1 :: rest.1, rest.2)

def chosen (s : MetaStore) (req : TxnRequest) : List RequestOp :=
  req.ops (req.compares.all fun cmp => cmp.holds (s.kv.find cmp.key))

def beginTxn (s : MetaStore) (ops : List RequestOp) : MetaStore :=
  if ops.any RequestOp.isWrite then { s with kv := { s.kv with revision := s.kv.revision + 1 } } else s

/-- The meaning of a transaction. A lease that a chosen put names and that does not exist fails it. -/
def applyTxn (s : MetaStore) (req : TxnRequest) : Except Status TxnResponse × MetaStore :=
  let ops := s.chosen req
  match s.leases.checkLeases ops with
  | .error e => (.error e, s)
  | .ok () =>
    let begun := s.beginTxn ops
    let applied := applyOps begun.kv.revision begun ops
    (.ok ⟨req.compares.all fun cmp => cmp.holds (s.kv.find cmp.key),applied.1,begun.kv.revision⟩, applied.2)

end MetaStore

/-- The changes of the leases as `Txn` makes them: all puts, and then all deletes. -/
def LeaseManager.processTxnLeaseChanges (m : LeaseManager) (outcome : TxnOutcome) : LeaseManager :=
  outcome.deletedLeases.foldl (fun m change => m.detachKey change.2 change.1)
    (outcome.putLeases.foldl rebind m)

def MetaStore.finishTxn (s : MetaStore) (outcome : TxnOutcome) (kv : KvManager) : MetaStore where
  kv := { kv with locked := false }
  leases := s.leases.processTxnLeaseChanges outcome
  watch := outcome.watchEvents.foldl (WatchManager.notify kv.revision) s.watch
  log := outcome.writes.reverse ++ s.log

section Perform

variable (s : MetaStore)

theorem perform_checkLease (lease : Int) : perform exec (checkLease lease) s =
      some (if lease = 0 ∨ s.leases.leaseExists lease = true then .ok () else .error (leaseNotFound lease), s) := by
  unfold checkLease
  by_cases hlease : lease = 0
  · simp [hlease]
  · have hask : perform exec (leaseExists lease) s = some (.ok (s.leases.leaseExists lease), s) := rfl
    rw [if_neg hlease,perform_bind_ok _ hask]
    cases s.leases.leaseExists lease <;> simp [hlease]

theorem perform_validateTxnLeases (ops : List RequestOp) :
    perform exec (validateTxnLeases ops) s = some (s.leases.checkLeases ops, s) := by
  induction ops with
  | nil => rfl
  | cons op ops ih =>
    unfold validateTxnLeases at ih ⊢
    rw [forEach,perform_bind]
    cases op with
    | put req =>
      simp only [perform_checkLease,Option.bind_some,checkLeases]
      by_cases hok : req.lease = 0 ∨ s.leases.leaseExists req.lease = true
      · simp [hok,ih]
      · simp [hok]
    | deleteRange req => simpa [checkLeases] using ih
    | range req => simpa [checkLeases] using ih

theorem perform_notify (event : WatchEvent) : perform exec (notify event) s =
      some (.ok (), { s with watch := s.watch.notify s.kv.revision event }) := by
  have hrevision : perform exec currentRevision s = some (.ok s.kv.revision, s) := rfl
  have hwatchers : perform exec (collectWatchers event.key) s = some (.ok (s.watch.collectWatchers event.key), s) := rfl
  rw [notify,perform_bind_ok _ hrevision,perform_bind_ok _ hwatchers]
  exact perform_forEach exec (fun watch => { s with watch := watch }) (fun w watch => rfl) _ s.watch

theorem perform_changePutLease (change : Bytes × Int × Int) : perform exec (changePutLease change) s =
      some (.ok (), { s with leases := s.leases.rebind change }) := by
  have hdetach : perform exec (detachIfSet change.2.1 change.1) s =
      some (.ok (), { s with leases := s.leases.release change.2.1 change.1 }) := by
    unfold detachIfSet release
    by_cases hold : change.2.1 = 0
    · simp [hold]
    · simp only [hold,if_false]
      rfl
  rw [changePutLease,rebind,perform_bind_ok _ hdetach]
  by_cases hnew : change.2.2 = 0
  · simp [hnew]
  · simp only [hnew,if_false]
    rfl

theorem perform_processTxnLeaseChanges (outcome : TxnOutcome) : perform exec (processTxnLeaseChanges outcome) s =
      some (.ok (), { s with leases := s.leases.processTxnLeaseChanges outcome }) := by
  have hputs := perform_forEach exec (fun leases => { s with leases := leases })
    (fun change _ => perform_changePutLease _ change) outcome.putLeases s.leases
  rw [processTxnLeaseChanges,perform_bind_ok _ hputs]
  exact perform_forEach exec (fun leases => { s with leases := leases }) (fun change _ => rfl) _ _

theorem perform_notifyAll (events : List WatchEvent) : perform exec (forEach notify events) s =
      some (.ok (), { s with watch := events.foldl (WatchManager.notify s.kv.revision) s.watch }) := by
  exact perform_forEach exec (fun watch => { s with watch := watch })
    (fun event _ => perform_notify _ event) events s.watch

theorem checkLeases_append (m : LeaseManager) (ops ops' : List RequestOp) :
    m.checkLeases (ops ++ ops') = (m.checkLeases ops).bind fun _ => m.checkLeases ops' := by
  induction ops with
  | nil => rfl
  | cons op ops ih =>
    cases op with
    | put req =>
      simp only [cons_append,checkLeases,ih]
      split <;> rfl
    | deleteRange req => exact ih
    | range req => exact ih

/-- `Txn` checks the leases of both lists, executes the operations of one and brings leases and watchers
up to date. -/
theorem perform_txn (req : TxnRequest) : perform exec (txn req) s =
      match s.leases.checkLeases (req.success ++ req.failure) with
      | .error e => some (.error e, s)
      | .ok () => (s.kv.txnData req).map fun r => (.ok r.1.response, s.finishTxn r.1 r.2) := by
  rw [txn,checkLeases_append,perform_bind,perform_validateTxnLeases]
  cases s.leases.checkLeases req.success with
  | error e => rfl
  | ok _ =>
    simp only [Option.bind_some,Except.bind]
    rw [perform_bind,perform_validateTxnLeases]
    cases s.leases.checkLeases req.failure with
    | error e => rfl
    | ok _ =>
      simp only [Option.bind_some]
      have hask : perform exec (txnData req) s =
          (s.kv.txnData req).map fun r => (.ok r.1, ({ s with kv := r.2 }).logWrites r.1.writes) := by
        refine (perform_ask exec (MetaOp.txnData req) s).trans ?_
        simp only [exec,Option.map_map]
        rfl
      cases hdata : s.kv.txnData req with
      | none =>
        rw [hdata] at hask
        rw [perform_bind,hask]
        rfl
      | some r =>
        rw [hdata] at hask
        rw [perform_bind_ok _ hask,perform_bind_ok _ (perform_processTxnLeaseChanges _ _),
          perform_bind_ok _ (perform_notifyAll _ _)]
        rfl

end Perform

variable {ops : List RequestOp}

@[simp] theorem TxnState.locked_beginWrite (t : TxnState) : t.beginWrite.kv.locked = t.kv.locked := by
  unfold beginWrite
  split <;> rfl

/-- A range operation waits for the mutex that its own transaction holds. -/
theorem executeOps_range {t : TxnState} (hlocked : t.kv.locked = true)
    (hrange : ∃ op ∈ ops, op.isWrite = false) : executeOps t ops = none := by
  induction ops generalizing t with
  | nil => simp at hrange
  | cons op ops ih =>
    cases op with
    | put req =>
      apply ih
      · simpa [executePutOp] using hlocked
      · simpa [RequestOp.isWrite] using hrange
    | deleteRange req =>
      apply ih
      · simpa [executeDeleteRangeOp] using hlocked
      · simpa [RequestOp.isWrite] using hrange
    | range req => simp [executeOps,executeOp,executeRangeOp,KvManager.range,hlocked]

/-- Where one key after another has been deleted, the parts of the store have changed each on its own. -/
theorem foldl_applyErase (revision : Int) (l : List (Bytes × KeyInfo)) (s : MetaStore) :
    l.foldl (applyErase revision) s =
      { kv := l.foldl (KvManager.eraseRecorded revision) s.kv
        leases := l.foldl (fun m e => m.release e.2.kv.lease e.1) s.leases
        watch := (l.map fun e : Bytes × KeyInfo =>
          (⟨.delete,e.1,{ e.2.kv with modRevision := revision },none⟩ : WatchEvent)).foldl
            (WatchManager.notify revision) s.watch
        log := (l.map fun e : Bytes × KeyInfo =>
          (⟨revision,.delete,e.1,e.2.kv.value,e.2.kv.lease⟩ : Write)).reverse ++ s.log } := by
  induction l generalizing s with
  | nil => rfl
  | cons e l ih =>
    rw [foldl_cons,ih]
    simp [applyErase]

/-- A transaction that has begun to write at a revision, and the store in which its operations were applied
one after another. -/
structure TxnSim (s₀ : MetaStore) (revision : Int) (t : TxnState) (s : MetaStore) : Prop where
  begun : t.hasWriteOp = true
  newRevision : t.newRevision = revision
  kv : t.kv = { s.kv with locked := true }
  unlocked : s.kv.locked = false
  kvRevision : s.kv.revision = revision
  watch : s.watch = t.watchEvents.foldl (WatchManager.notify revision) s₀.watch
  log : s.log = t.writes.reverse ++ s₀.log

namespace TxnSim

variable {s₀ s : MetaStore} {revision : Int} {t : TxnState}

theorem beginWrite_eq (h : t.hasWriteOp = true) : t.beginWrite = t := by
  simp [TxnState.beginWrite,h]

theorem put (h : TxnSim s₀ revision t s) (req : PutRequest) :
    TxnSim s₀ revision (executePutOp t req) (s.applyPut revision req).2 ∧
      (executePutOp t req).responses = t.responses ++ [(s.applyPut revision req).1] := by
  have hfind : t.kv.find req.key = s.kv.find req.key := by
    rw [h.kv]
    rfl
  have hinfo : txnPutInfo t.kv req t.newRevision = txnPutInfo s.kv req revision := by
    rw [txnPutInfo,hfind,h.newRevision]
    rfl
  constructor
  · constructor
    · exact h.begun
    · exact h.newRevision
    · have hkv := KvManager.storePut_setLocked s.kv true req.key (txnPutInfo s.kv req revision) revision
      rw [← h.kv] at hkv
      rw [executePutOp,hinfo,h.newRevision]
      exact hkv
    · simp [applyPut,h.unlocked]
    · simp [applyPut,h.kvRevision]
    · simp [applyPut,executePutOp,hfind,hinfo,h.watch]
    · simp [applyPut,executePutOp,TxnState.writes,h.newRevision,h.log,txnPutInfo]
  · simp [applyPut,executePutOp,hfind]

theorem deleteRange (h : TxnSim s₀ revision t s) (req : DeleteRangeRequest) :
    TxnSim s₀ revision (executeDeleteRangeOp t req) (s.applyDeleteRange revision req).2 ∧
      (executeDeleteRangeOp t req).responses = t.responses ++ [(s.applyDeleteRange revision req).1] := by
  have hrange : t.kv.inRange req.key req.rangeEnd = s.kv.inRange req.key req.rangeEnd := by
    rw [h.kv]
    rfl
  constructor
  · constructor
    · exact h.begun
    · exact h.newRevision
    · simp only [executeDeleteRangeOp,applyDeleteRange,foldl_applyErase,hrange,h.newRevision]
      rw [h.kv,KvManager.eraseAll_setLocked]
    · simp [applyDeleteRange,foldl_applyErase,h.unlocked]
    · simp [applyDeleteRange,foldl_applyErase,h.kvRevision]
    · simp [applyDeleteRange,foldl_applyErase,executeDeleteRangeOp,hrange,h.newRevision,h.watch]
    · simp [applyDeleteRange,foldl_applyErase,executeDeleteRangeOp,TxnState.writes,hrange,
        h.newRevision,h.log,Function.comp_def]
  · simp [applyDeleteRange,executeDeleteRangeOp,hrange]

theorem executeOps (h : TxnSim s₀ revision t s) (hops : ∀ op ∈ ops, op.isWrite = true) :
    ∃ t', executeOps t ops = some t' ∧ TxnSim s₀ revision t' (s.applyOps revision ops).2 ∧
      t'.responses = t.responses ++ (s.applyOps revision ops).1 := by
  induction ops generalizing t s with
  | nil => exact ⟨t,rfl,h,by simp [applyOps]⟩
  | cons op ops ih =>
    have hrest : ∀ op ∈ ops, op.isWrite = true := fun op' hmem => hops op' (mem_cons_of_mem _ hmem)
    have hstep : ∃ t₁, executeOp t op = some t₁ ∧ TxnSim s₀ revision t₁ (s.applyOp revision op).2 ∧
        t₁.responses = t.responses ++ [(s.applyOp revision op).1] := by
      cases op with
      | put req => exact ⟨_,by rw [executeOp,beginWrite_eq h.begun],h.put req⟩
      | deleteRange req => exact ⟨_,by rw [executeOp,beginWrite_eq h.begun],h.deleteRange req⟩
      | range req => exact absurd (hops _ mem_cons_self) (by simp [RequestOp.isWrite])
    obtain ⟨t₁,hop,hsim,hresponses⟩ := hstep
    obtain ⟨t',hexec,hsim',hresponses'⟩ := ih hsim hrest
    refine ⟨t',?_,hsim',?_⟩
    · simp [Metastore.executeOps,hop,hexec]
    · rw [hresponses',hresponses,append_assoc]
      rfl

end TxnSim

/-- A transaction of writes only ends, with the response and the state it means, apart from the leases. -/
theorem txnData_of_writes {s : MetaStore} {req : TxnRequest} (hs : s.kv.locked = false)
    (hops : req.ops (evaluateCompares s.kv req.compares) = ops) (hwrites : ∀ op ∈ ops, op.isWrite = true) :
    ∃ outcome kv, s.kv.txnData req = some (outcome, kv) ∧ outcome.response = ⟨evaluateCompares s.kv req.compares,
        ((s.beginTxn ops).applyOps (s.beginTxn ops).kv.revision ops).1,(s.beginTxn ops).kv.revision⟩ ∧
      s.finishTxn outcome kv = { ((s.beginTxn ops).applyOps (s.beginTxn ops).kv.revision ops).2 with
          leases := s.leases.processTxnLeaseChanges outcome } := by
  simp only [KvManager.txnData,hs,hops,Bool.false_eq_true,if_false]
  cases ops with
  | nil =>
    refine ⟨_,_,rfl,rfl,?_⟩
    simp [finishTxn,beginTxn,applyOps,TxnOutcome.writes,KvManager.setLocked_self hs]
  | cons op ops =>
    have hbegin : s.beginTxn (op :: ops) = { s with kv := { s.kv with revision := s.kv.revision + 1 } } := by
      simp [beginTxn,hwrites op mem_cons_self]
    have hsim : TxnSim s (s.kv.revision + 1)
        (TxnState.beginWrite ⟨{ s.kv with locked := true },s.kv.revision,false,[],[],[],[]⟩)
        (s.beginTxn (op :: ops)) := by
      rw [hbegin]
      exact ⟨rfl,rfl,rfl,hs,rfl,rfl,rfl⟩
    obtain ⟨t',hexec,hend,hresponses⟩ := hsim.executeOps hwrites
    have hfirst : executeOps ⟨{ s.kv with locked := true },s.kv.revision,false,[],[],[],[]⟩ (op :: ops) = some t' := by
      rw [← hexec]
      cases op with
      | put req => rfl
      | deleteRange req => rfl
      | range req => exact absurd (hwrites _ mem_cons_self) (by simp [RequestOp.isWrite])
    rw [hfirst]
    have hrevision : (s.beginTxn (op :: ops)).kv.revision = s.kv.revision + 1 := by rw [hbegin]
    rw [hrevision]
    refine ⟨_,_,rfl,?_,?_⟩
    · rw [hresponses,hend.newRevision]
      rfl
    · have hkv : { t'.kv with locked := false } =
          ((s.beginTxn (op :: ops)).applyOps (s.kv.revision + 1) (op :: ops)).2.kv := by
        rw [hend.kv]
        exact KvManager.setLocked_self hend.unlocked
      have hrev : t'.kv.revision = s.kv.revision + 1 := by
        rw [hend.kv]
        exact hend.kvRevision
      have hwrites' : TxnOutcome.writes ⟨⟨evaluateCompares s.kv req.compares,t'.responses,t'.newRevision⟩,
          t'.putLeases,t'.deletedLeases,t'.watchEvents⟩ = t'.writes := rfl
      rw [finishTxn,hkv,hrev,← hend.watch,hwrites',← hend.log]

def Compare.field (cmp : Compare) (info : Option KeyInfo) : Int := info.elim 0 (getTargetValue cmp.target)

theorem evaluateCompare_eq_holds_iff (cmp : Compare) (info : Option KeyInfo) :
    evaluateCompare cmp info = cmp.holds info ↔ (cmp.target ≠ .value →
        compareIntValue (cmp.field info) cmp.version cmp.result =
          compareIntValue (cmp.field info) cmp.operand cmp.result) := by
  unfold evaluateCompare Compare.holds Compare.field
  cases cmp.target <;> simp

/-- When `Txn` does what the transaction means.

The operand of a compare is read as a version; it has to compare with the field like the operand for the
field. The list that is not chosen names no lease that does not exist. The operations are writes. The
changes of the leases can be made for all puts first and for all deletes last. -/
structure TxnAgrees (s : MetaStore) (req : TxnRequest) : Prop where
  operands : ∀ cmp ∈ req.compares, cmp.target ≠ .value →
    compareIntValue (cmp.field (s.kv.find cmp.key)) cmp.version cmp.result =
      compareIntValue (cmp.field (s.kv.find cmp.key)) cmp.operand cmp.result
  leases : s.leases.checkLeases (req.success ++ req.failure) = s.leases.checkLeases (s.chosen req)
  writes : s.leases.checkLeases (s.chosen req) = .ok () → ∀ op ∈ s.chosen req, op.isWrite = true
  order : s.leases.checkLeases (s.chosen req) = .ok () → ∀ outcome kv, s.kv.txnData req = some (outcome, kv) →
    s.leases.processTxnLeaseChanges outcome = (s.applyTxn req).2.leases

theorem txnData_of_range {s : MetaStore} {req : TxnRequest}
    (hrange : ∃ op ∈ req.ops (evaluateCompares s.kv req.compares), op.isWrite = false) :
    s.kv.txnData req = none := by
  unfold KvManager.txnData
  split
  · rfl
  · exact congrArg (Option.map _)
      (executeOps_range (t := ⟨{ s.kv with locked := true },s.kv.revision,false,[],[],[],[]⟩) rfl hrange)

/-- A key is put with a lease if it does not exist, and deleted otherwise. -/
def putIfAbsent : TxnRequest where
  compares := [⟨ascii "k",.version,.equal,some (.version 0)⟩]
  success := [.put { key := ascii "k", value := ascii "v", lease := 7 }]
  failure := [.deleteRange { key := ascii "k" }]

end Datasystem.Metastore
