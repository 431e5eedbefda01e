import Datasystem.Metastore.MetastoreCalls

/-!
# The metadata that clients see

Whatever calls run in parallel, a client that reads a key, a range, the history or a field in a compare must
see the metadata that the writes so far amount to.
-/

namespace Datasystem.Metastore

open KvManager MetaStore Option

def KeyValue.target (kv : KeyValue) : CompareTarget → Int
  | .version => kv.version
  | .create => kv.createRevision
  | .mod => kv.modRevision
  | .lease => kv.lease
  | .value => 0

/-- All reads see what the log says. -/
structure MetaStore.Reports (s : MetaStore) : Prop where
  get : ∀ key kv, s.kv.get key = .ok kv ↔ current s.log key = some kv
  range : ∀ start rangeEnd kvs, s.kv.range start rangeEnd 0 false false = some kvs → ∀ kv,
    kv ∈ kvs ↔ keyInRange kv.key start rangeEnd = true ∧ current s.log kv.key = some kv
  compares : ∀ key target, (s.kv.find key).elim 0 (getTargetValue target) =
    (current s.log key).elim 0 fun kv => kv.target target
  history : ∀ key startRevision endRevision, s.kv.getHistory key startRevision endRevision =
    ((entries s.log key).reverse.rtake maxHistoryEntries).filter fun entry =>
      startRevision ≤ entry.revision && endRevision.all fun e => entry.revision < e

theorem MetaStore.reports_of_consistent {s : MetaStore} (h : Consistent s.kv s.log) : s.Reports := by
  constructor
  · intro key kv
    rw [← h.kv key,KvManager.get]
    cases s.kv.find key with
    | none => simp
    | some info => simp
  · intro start rangeEnd kvs hrange kv
    unfold range at hrange
    split at hrange
    · cases hrange
    · have hkvs : kvs = (s.kv.inRange start rangeEnd).map fun e => e.2.kv := by
        simpa using hrange.symm
      rw [hkvs,List.mem_map]
      constructor
      · rintro ⟨e,he,rfl⟩
        obtain ⟨hfind,hin⟩ := mem_inRange.mp he
        rw [h.kv_key hfind]
        refine ⟨hin,?_⟩
        rw [← h.kv,hfind]
        rfl
      · rintro ⟨hin,hcurrent⟩
        rw [← h.kv,map_eq_some_iff] at hcurrent
        obtain ⟨info,hfind,hkv⟩ := hcurrent
        exact ⟨(kv.key, info),mem_inRange.mpr ⟨hfind,hin⟩,hkv⟩
  · intro key target
    rw [← h.kv key]
    cases hfind : s.kv.find key with
    | none => rfl
    | some info =>
      have hnumbers := h.numbers key info hfind
      cases target <;> simp [getTargetValue,KeyValue.target,hnumbers,KeyValue.numbers]
  · intro key startRevision endRevision
    rw [← h.history key,getHistory,historyOf]
    cases s.kv.find key with
    | some info => rfl
    | none =>
      cases s.kv.findDeleted key with
      | some history => rfl
      | none => rfl

/-- The data section of a stand-alone put. -/
def MetaOp.IsPutUpdate : MetaOp → Prop
  | .updatePutData _ _ _ _ => True
  | _ => False

/-- The section that takes a put back. -/
def MetaOp.IsRestore : MetaOp → Prop
  | .restore _ _ => True
  | _ => False

variable {s s' : MetaStore}

theorem MetaStore.consistent_exec {o : MetaOp} {r : o.Res}
    (h : Consistent s.kv s.log) (hput : ¬ o.IsPutUpdate) (hrestore : ¬ o.IsRestore)
    (hexec : exec o s = some (r, s')) : Consistent s'.kv s'.log := by
  cases o with
  | updatePutData key value lease uninitialized => exact absurd trivial hput
  | restore key prevKv => exact absurd trivial hrestore
  | deleteData key rangeEnd =>
    obtain ⟨-,-,rfl⟩ := eq_of_unlocked hexec
    exact h.deleteData key rangeEnd
  | txnData req =>
    obtain ⟨⟨outcome,kv⟩,htxn,heq⟩ := map_eq_some_iff.mp hexec
    cases heq
    obtain ⟨t,succeeded,ht,rfl,rfl⟩ := txnData_invariant (P := fun t => TxnConsistent t s.log)
      (fun _ _ _ ht hop => ht.executeOp hop) ⟨h.setLocked true,fun _ => rfl⟩ htxn
    exact ht.consistent
  | unlock =>
    cases hexec
    exact h.setLocked false
  | rangeHistory start rangeEnd startRevision =>
    obtain ⟨events,-,heq⟩ := map_eq_some_iff.mp hexec
    cases heq
    exact h
  | _ =>
    cases hexec
    exact h

/-- The revision of a transaction that started at a revision. -/
structure TxnRevision (r : Int) (t : TxnState) : Prop where
  before : t.hasWriteOp = false → t.kv.revision = r ∧ t.newRevision = r ∧ t.watchEvents = []
  after : t.hasWriteOp = true → t.kv.revision = r + 1 ∧ t.newRevision = r + 1

namespace TxnRevision

variable {r : Int} {t t' : TxnState}

theorem beginWrite (h : TxnRevision r t) : TxnRevision r t.beginWrite := by
  unfold TxnState.beginWrite
  split
  · exact h
  · rename_i hbegun
    have hr := h.before (by simpa using hbegun)
    exact ⟨by simp,by simp [hr.1]⟩

theorem executeOp (h : TxnRevision r t) {op : RequestOp} (hop : executeOp t op = some t') : TxnRevision r t' := by
  have hbegun := TxnConsistent.hasWriteOp_beginWrite t
  cases op with
  | put req =>
    cases hop
    have hr := h.beginWrite.after hbegun
    exact ⟨by simp [executePutOp,hbegun],by simp [executePutOp,hr]⟩
  | deleteRange req =>
    cases hop
    have hr := h.beginWrite.after hbegun
    exact ⟨by simp [executeDeleteRangeOp,hbegun],by simp [executeDeleteRangeOp,hr]⟩
  | range req =>
    obtain ⟨kvs,-,rfl⟩ := map_eq_some_iff.mp hop
    exact ⟨h.before,h.after⟩

end TxnRevision

theorem MetaStore.exec_revision {o : MetaOp} {r : o.Res} (hexec : exec o s = some (r, s')) :
    s'.log = s.log ∧ s.kv.revision ≤ s'.kv.revision ∨ s.kv.revision < s'.kv.revision := by
  cases o with
  | updatePutData key value lease uninitialized =>
    obtain ⟨-,-,rfl⟩ := eq_of_unlocked hexec
    simp [logWrites,KvManager.updatePutData]
  | restore key prevKv =>
    obtain ⟨-,-,rfl⟩ := eq_of_unlocked hexec
    cases prevKv <;> simp [KvManager.restore,KvManager.setInfo,KvManager.eraseInfo]
  | deleteData key rangeEnd =>
    obtain ⟨-,-,rfl⟩ := eq_of_unlocked hexec
    simp [logWrites,KvManager.deleteData]
  | txnData req =>
    obtain ⟨⟨outcome,kv⟩,htxn,heq⟩ := map_eq_some_iff.mp hexec
    cases heq
    obtain ⟨t,succeeded,hrevision,rfl,rfl⟩ := txnData_invariant (P := TxnRevision s.kv.revision)
      (fun _ _ _ ht hop => ht.executeOp hop) ⟨by simp,by simp⟩ htxn
    cases hbegun : t.hasWriteOp with
    | false =>
      obtain ⟨hr,-,hevents⟩ := hrevision.before hbegun
      simp [logWrites,TxnOutcome.writes,hevents,hr]
    | true => simp [logWrites,hrevision.after hbegun]
  | rangeHistory start rangeEnd startRevision =>
    obtain ⟨events,-,heq⟩ := map_eq_some_iff.mp hexec
    cases heq
    simp
  | _ =>
    cases hexec
    simp

theorem MetaStore.not_reports_updatePutData {key value : Bytes} {lease : Int}
    {uninitialized : Numbers} {u : PutUpdate} (hrevision : 0 < s.kv.revision)
    (hexec : exec (.updatePutData key value lease uninitialized) s = some (u, s')) : ¬ s'.Reports := by
  intro hreports
  obtain ⟨-,-,rfl⟩ := eq_of_unlocked hexec
  have hcurrent := current_cons_put s.log (s.kv.revision + 1) key value lease key
  rw [if_pos rfl] at hcurrent
  have hget := (hreports.get key _).mpr hcurrent
  have hmod : ∀ kv, (s.kv.updatePutData key value lease uninitialized).2.get key = .ok kv → kv.modRevision = 0 := by
    intro kv hkv
    simp only [KvManager.get,KvManager.updatePutData,KvManager.find_storePut,if_true,
      recordPutHistory,kv_inheritKeyHistory] at hkv
    rw [← Except.ok.inj hkv]
    split <;> rfl
  have hzero := hmod _ hget
  simp only [putKv] at hzero
  omega

def metaConcurrency : Concurrency MetaOp MetaOp.Res MetaStore Unit := ⟨exec,(),fun _ _ _ => ()⟩

def metaMachine : Machine (MetaThreads Unit) (ThreadEvent MetaCall) :=
  Threads.machine metaConcurrency MetaCall.prog {}

/-- A step is the data section of a stand-alone put. -/
def StepsPutUpdate (t : MetaThreads Unit) (e : ThreadEvent MetaCall) : Prop :=
  ∃ i p o k, e = .work i ∧ t.threads[i]? = some p ∧ p.prog = .op o k ∧ o.IsPutUpdate

/-- No data section of a put is executed, and the store stays consistent. -/
def noPutProtocol : Protocol metaConcurrency where
  guard o _ _ _ := ¬ o.IsPutUpdate
  inv s _ := Consistent s.kv s.log
  inv_perm _ h := h
  rely _ _ _ := True
  rely_refl _ _ := trivial
  rely_trans _ _ := trivial

section Safe

abbrev KeepsConsistent {α : Type} (m : MetaAct α) : Prop :=
  m.Maintains noPutProtocol.contract fun v _ => Consistent v.1.kv v.1.log

theorem keepsConsistent_ask {o : MetaOp} (hrestore : ¬ o.IsRestore) : KeepsConsistent (Act.ask o) := by
  rintro _ ⟨s,n,others⟩ _ _
  rw [Act.wp_ask]
  rintro ⟨s₁,n₁,others₁⟩ _ ⟨-,-,hinv⟩
  refine ⟨trivial,?_⟩
  rintro r ⟨s₂,n₂,others₂⟩ ⟨-,-,hput,hexec⟩
  have hconsistent := consistent_exec hinv hput hrestore hexec
  exact ⟨(),⟨hconsistent,fun _ _ => trivial⟩,hconsistent⟩

theorem keepsConsistent_leaseExists (leaseId : Int) : KeepsConsistent (leaseExists leaseId) :=
  keepsConsistent_ask (o := .leaseExists leaseId) id

theorem keepsConsistent_attachKey (leaseId : Int) (key : Bytes) : KeepsConsistent (attachKey leaseId key) :=
  keepsConsistent_ask (o := .attachKey leaseId key) id

theorem keepsConsistent_detachKey (leaseId : Int) (key : Bytes) : KeepsConsistent (detachKey leaseId key) :=
  keepsConsistent_ask (o := .detachKey leaseId key) id

theorem keepsConsistent_checkLease (lease : Int) : KeepsConsistent (checkLease lease) :=
  .ite (.ret _) ((keepsConsistent_leaseExists lease).bind fun _ => .ite (.ret _) (.fail _))

theorem keepsConsistent_notify (event : WatchEvent) : KeepsConsistent (notify event) := by
  refine (keepsConsistent_ask (o := .currentRevision) id).bind fun revision => ?_
  refine (keepsConsistent_ask (o := .collectWatchers event.key) id).bind fun watchers => ?_
  exact .forEach (fun _ => keepsConsistent_ask (o := .sendWatchResponse _) id) watchers

theorem keepsConsistent_detachIfSet (lease : Int) (key : Bytes) : KeepsConsistent (detachIfSet lease key) :=
  .ite (.ret _) (keepsConsistent_detachKey lease key)

theorem keepsConsistent_put (key value : Bytes) (lease : Int) (uninitialized : Numbers) :
    KeepsConsistent (put key value lease uninitialized) := by
  refine (keepsConsistent_checkLease lease).bind fun _ => ?_
  rintro _ ⟨s,n,others⟩ _ _
  rw [Act.wp_bind']
  refine (Act.wp_ask (o := MetaOp.updatePutData key value lease uninitialized)).mpr ?_
  rintro ⟨s₁,n₁,others₁⟩ _ _
  refine ⟨trivial,?_⟩
  rintro r ⟨s₂,n₂,others₂⟩ ⟨-,-,hput,-⟩
  exact absurd trivial hput

theorem keepsConsistent_delete (key rangeEnd : Bytes) (skipLeaseCleanup : Bool) :
    KeepsConsistent (delete key rangeEnd skipLeaseCleanup) := by
  refine (keepsConsistent_ask (o := .deleteData key rangeEnd) id).bind fun deletedKvs => ?_
  refine (Act.Maintains.forEach (fun kv => ?_) _).bind fun _ => ?_
  · exact .ite (.ret _) ((keepsConsistent_leaseExists kv.lease).bind fun _ =>
      .ite (keepsConsistent_detachKey kv.lease kv.key) (.ret _))
  · exact (Act.Maintains.forEach (fun _ => keepsConsistent_notify _) _).bind fun _ => .ret _

theorem keepsConsistent_validateTxnLeases (ops : List RequestOp) : KeepsConsistent (validateTxnLeases ops) := by
  refine .forEach (fun op => ?_) ops
  cases op with
  | put req => exact keepsConsistent_checkLease req.lease
  | deleteRange req => exact .ret _
  | range req => exact .ret _

theorem keepsConsistent_processTxnLeaseChanges (outcome : TxnOutcome) :
    KeepsConsistent (processTxnLeaseChanges outcome) := by
  refine (Act.Maintains.forEach (fun change => ?_) _).bind fun _ => ?_
  · exact (keepsConsistent_detachIfSet _ _).bind fun _ =>
      .ite (.ret _) ((keepsConsistent_attachKey _ _).bind fun _ => .ret _)
  · exact .forEach (fun _ => keepsConsistent_detachKey _ _) _

theorem keepsConsistent_txn (req : TxnRequest) : KeepsConsistent (txn req) := by
  refine (keepsConsistent_validateTxnLeases _).bind fun _ => ?_
  refine (keepsConsistent_validateTxnLeases _).bind fun _ => ?_
  refine (keepsConsistent_ask (o := .txnData req) id).bind fun outcome => ?_
  refine (keepsConsistent_processTxnLeaseChanges outcome).bind fun _ => ?_
  refine (Act.Maintains.forEach keepsConsistent_notify _).bind fun _ => ?_
  exact (keepsConsistent_ask (o := .unlock) id).bind fun _ => .ret _

theorem keepsConsistent_revoke (leaseId : Int) : KeepsConsistent (revoke leaseId) := by
  refine (keepsConsistent_ask (o := .eraseLease leaseId) id).bind fun (keys : Option (List Bytes)) => ?_
  cases keys with
  | none => exact .fail _
  | some keys => exact .forEach (fun key => (keepsConsistent_delete key [] true).bind fun _ => .ret _) keys

theorem keepsConsistent_registerWatcher (req : WatchCreateRequest) : KeepsConsistent (registerWatcher req) := by
  refine (keepsConsistent_ask (o := .addWatcher req) id).bind fun watchId => ?_
  refine (keepsConsistent_ask (o := .currentRevision) id).bind fun revision => ?_
  refine (keepsConsistent_ask (o := .writeStream watchId _) id).bind fun _ => ?_
  refine Act.Maintains.bind (.ite ?_ (.ret _)) fun _ => ?_
  · exact (keepsConsistent_ask (o := .rangeHistory req.key req.rangeEnd req.startRevision) id).bind fun events =>
      (keepsConsistent_ask (o := .sendHistory watchId events) id).bind fun _ => .ret _
  · exact (keepsConsistent_ask (o := .startWatcher watchId) id).bind fun _ => .ret _

theorem keepsConsistent_act (c : MetaCall) : KeepsConsistent c.act := by
  cases c with
  | grant leaseId ttl => exact (keepsConsistent_ask (o := .grant leaseId ttl) id).bind fun _ => .ret _
  | put key value lease uninitialized => exact (keepsConsistent_put _ _ _ _).bind fun _ => .ret _
  | delete key rangeEnd => exact (keepsConsistent_delete _ _ _).bind fun _ => .ret _
  | txn req => exact (keepsConsistent_txn req).bind fun _ => .ret _
  | revoke leaseId => exact (keepsConsistent_revoke leaseId).bind fun _ => .ret _
  | registerWatcher req => exact (keepsConsistent_registerWatcher req).bind fun _ => .ret _
  | processWatcherQueue watchId =>
    exact (keepsConsistent_ask (o := .processWatcherQueue watchId) id).bind fun _ => .ret _

end Safe

theorem safe_prog (c : MetaCall) {s : MetaStore} (h : Consistent s.kv s.log) (others : List Unit) :
    noPutProtocol.Safe c.prog s () others := by
  refine Prog.wp_mono ?_ (keepsConsistent_act c () (s, (), others) () h)
  rintro ⟨r,_⟩ v _ hv
  cases r with
  | ok a => exact hv
  | error e => exact hv

theorem consistent_of_reachable {t : MetaThreads Unit}
    (h : metaMachine.ReachableBy (fun t e => ¬ StepsPutUpdate t e) t) :
    Consistent t.shared.kv t.shared.log := by
  have hguard : metaMachine.ReachableBy noPutProtocol.Guard t := by
    refine h.mono fun t e he => ?_
    cases e with
    | call c => trivial
    | work i =>
      intro p hp o k hop hput
      exact he ⟨i,p,o,k,rfl,hp,hop,hput⟩
  exact (Protocol.sound_of_reachable Consistent.init (fun _ _ hs => hs) (fun c _ _ hs => safe_prog c hs _) hguard).inv

theorem revision_of_step {t t' : MetaThreads Unit} {e : ThreadEvent MetaCall} (h : metaMachine.step t e = some t') :
    t'.shared.log = t.shared.log ∧ t.shared.kv.revision ≤ t'.shared.kv.revision ∨
      t.shared.kv.revision < t'.shared.kv.revision := by
  cases e with
  | call c =>
    rw [← some.inj h]
    exact Or.inl ⟨rfl,le_rfl⟩
  | work i =>
    obtain ⟨o,k,n,r,-,hexec,-⟩ := Threads.step_work h
    exact exec_revision hexec

theorem revision_pos {t : MetaThreads Unit} (h : metaMachine.Reachable t) : 0 < t.shared.kv.revision := by
  refine h.invariant (P := fun t => 0 < t.shared.kv.revision) (by decide) ?_
  intro t e t' ht hstep
  rcases revision_of_step hstep with ⟨-,hle⟩ | hlt
  · omega
  · omega

/-- In a run of calls in parallel, all reads see the metadata that the writes amount to, and every write
takes a greater revision, just as long as no data section of a stand-alone put is executed. -/
theorem metadata_reported_iff (events : List (ThreadEvent MetaCall)) :
    ((∀ before t, before <+: events → metaMachine.run metaMachine.init before = some t → t.shared.Reports) ∧
      ∀ before e t t', before ++ [e] <+: events → metaMachine.run metaMachine.init before = some t →
        metaMachine.step t e = some t' → t'.shared.log ≠ t.shared.log → t.shared.kv.revision < t'.shared.kv.revision) ↔
    ∀ before e t t', before ++ [e] <+: events → metaMachine.run metaMachine.init before = some t →
      metaMachine.step t e = some t' → ¬ StepsPutUpdate t e := by
  constructor
  · rintro ⟨hreports,-⟩ before e t t' hpre hrun hstep ⟨i,p,o,k,rfl,hp,hop,hput⟩
    have hnext : metaMachine.run metaMachine.init (before ++ [.work i]) = some t' := by
      rw [Machine.run_append,hrun]
      simp [Machine.run,hstep]
    have hrevision := revision_pos (Machine.Reachable.run .init hrun)
    obtain ⟨o',k',n',r,hp',hexec,-⟩ := Threads.step_work hstep
    rw [hp] at hp'
    obtain rfl := some.inj hp'
    obtain ⟨rfl,-⟩ := Prog.op.inj hop
    cases o' with
    | updatePutData key value lease uninitialized =>
      exact not_reports_updatePutData hrevision hexec (hreports _ t' hpre hnext)
    | _ => exact hput
  · intro hno
    refine ⟨?_,?_⟩
    · intro before t hpre hrun
      refine reports_of_consistent (consistent_of_reachable (Machine.reachableBy_of_run hrun ?_))
      intro before' e t₁ t₂ hpre' hrun' hstep
      exact hno before' e t₁ t₂ (hpre'.trans hpre) hrun' hstep
    · intro before e t t' _ _ hstep hlog
      rcases revision_of_step hstep with ⟨hsame,-⟩ | hlt
      · exact absurd hsame hlog
      · exact hlt

/-- One put, and nothing else: the key has the modification revision zero. -/
theorem metadata_not_reported_after_put : ∃ t, metaMachine.run metaMachine.init
        [.call (.put [107] [118] 0 ⟨0,0,0⟩),.work 0,.work 0,.work 0] = some t ∧
      t.Quiescent ∧ ¬ t.shared.Reports := by
  have hrun : metaMachine.run metaMachine.init
      [.call (.put [107] [118] 0 ⟨0,0,0⟩),.work 0,.work 0,.work 0] = some _ := rfl
  refine ⟨_,hrun,?_,?_⟩
  · intro p hp
    obtain rfl := List.mem_singleton.mp hp
    exact ⟨_,rfl⟩
  · intro h
    have hget := (h.get [107] ⟨[107],2,0,1,[118],0⟩).mp rfl
    revert hget
    decide

end Datasystem.Metastore
