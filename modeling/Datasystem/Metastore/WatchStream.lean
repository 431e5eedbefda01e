import Datasystem.Metastore.WatchSections

/-!
# The stream of a watcher

A watcher that asks for the writes from a revision on gets each of them once and in the order of their
revisions, if no call commits before the watchers know the writes of the calls before it, no put is taken
back, and history is only read where it is complete and in order.
-/

namespace Datasystem.Metastore

open List Protocol WatchNote MetaStore MetaOp

def WatchEvent.writeAt (e : WatchEvent) (revision : Int) : Write :=
  ⟨revision,e.type,e.key,e.newKv.value,e.newKv.lease⟩

/-- The watchers know all writes of the call. -/
def Told (_ : MetaStore) (n : WatchNote) : Prop := n = {}

abbrev WatchTriple {α : Type} (A : MetaStore → WatchNote → Prop) (m : MetaAct α)
    (B : α → MetaStore → WatchNote → Prop) : Prop := watchProtocol.Triple Told A m B

/-- The call has committed writes at the revision of the store and has not collected their watchers. -/
structure Committed (writes : List Write) (s : MetaStore) (n : WatchNote) : Prop where
  noted : n = { pending := writes }
  revision : ∀ x ∈ writes, x.revision = s.kv.revision

/-- The call is to send a write to some watchers, and has more writes after it. -/
structure SendingTo (x : Write) (rest : List Write) (watchers : List Watcher) (s : MetaStore) (n : WatchNote) :
    Prop where
  noted : n = { pending := rest, sending := watchers.map fun w => (w.watchId, x) }
  revision : ∀ y ∈ rest, y.revision = s.kv.revision

def Registering (r : Registration) (_ : MetaStore) (n : WatchNote) : Prop := n = { registering := some r }

theorem Told.stable : watchProtocol.Stable Told := fun _ _ _ _ h => h

theorem Registering.stable (r : Registration) : watchProtocol.Stable (Registering r) := fun _ _ _ _ h => h

theorem Committed.stable (writes : List Write) : watchProtocol.Stable (Committed writes) := by
  intro n s s' hrely h
  obtain rfl := h.noted
  refine ⟨rfl,?_⟩
  intro x hx
  have hsame : s'.kv.revision = s.kv.revision := hrely (Or.inl (ne_nil_of_mem hx))
  rw [hsame]
  exact h.revision x hx

theorem SendingTo.stable (x : Write) (rest : List Write) (watchers : List Watcher) :
    watchProtocol.Stable (SendingTo x rest watchers) := by
  intro n s s' hrely h
  obtain rfl := h.noted
  refine ⟨rfl,?_⟩
  intro y hy
  have hsame : s'.kv.revision = s.kv.revision := hrely (Or.inl (ne_nil_of_mem hy))
  rw [hsame]
  exact h.revision y hy

theorem Committed.told {s : MetaStore} {n : WatchNote} (h : Committed [] s n) : Told s n := h.noted

section Sections

variable {A : MetaStore → WatchNote → Prop}

theorem watchTriple_ask {o : MetaOp} {B : o.Res → MetaStore → WatchNote → Prop} (hA : watchProtocol.Stable A)
    (hserves : ∀ s n, A s n → o.Serves n)
    (h : ∀ s n others r s', WatchInv s (n :: others) → A s n → watchGuard o s others →
      exec o s = some (r, s') → B r s' (watchNote o r n)) : WatchTriple A (Act.ask o) B := by
  refine Triple.ask hA ?_
  intro s n others r s' hinv hs hguard hexec
  obtain ⟨hinv',hrely⟩ := hinv.exec hguard (hserves s n hs) hexec
  exact ⟨hinv',hrely,h s n others r s' hinv hs hguard hexec⟩

/-- The sections that are of no concern to the watchers and what is sent to them. -/
def MetaOp.Silent : MetaOp → Prop
  | .leaseExists _ => True
  | .attachKey _ _ => True
  | .detachKey _ _ => True
  | .grant _ _ => True
  | .eraseLease _ => True
  | .unlock => True
  | .currentRevision => True
  | .processWatcherQueue _ => True
  | .writeStream _ responses => ∀ r ∈ responses, r.event = none
  | _ => False

theorem MetaOp.Silent.exec {o : MetaOp} (ho : o.Silent) {s s' : MetaStore} {r : o.Res}
    (h : exec o s = some (r, s')) (n : WatchNote) :
    s'.kv.revision = s.kv.revision ∧ watchNote o r n = n := by
  cases o with
  | updatePutData | restore | deleteData | txnData | collectWatchers | sendWatchResponse | addWatcher
  | rangeHistory | sendHistory | startWatcher => exact ho.elim
  | _ =>
    cases h
    exact ⟨rfl,rfl⟩

theorem MetaOp.Silent.serves {o : MetaOp} (ho : o.Silent) (n : WatchNote) : o.Serves n := by
  cases o with
  | writeStream => exact ho
  | updatePutData | restore | deleteData | txnData | collectWatchers | sendWatchResponse | addWatcher
  | rangeHistory | sendHistory | startWatcher => exact ho.elim
  | _ => trivial

theorem watchTriple_silent {o : MetaOp} (ho : o.Silent) (hA : watchProtocol.Stable A) :
    WatchTriple A (Act.ask o) fun _ => A := by
  refine watchTriple_ask hA (fun _ n _ => ho.serves n) ?_
  intro s n others r s' _ hs _ hexec
  obtain ⟨hrevision,hnote⟩ := ho.exec hexec n
  rw [hnote]
  exact hA n s s' (fun _ => hrevision) hs

theorem watchTriple_checkLease (lease : Int) : WatchTriple Told (checkLease lease) fun _ => Told := by
  refine .ite (fun _ => .ret fun _ _ h => h) fun _ => ?_
  refine (watchTriple_silent (o := .leaseExists lease) trivial Told.stable).bind fun (found : Bool) => ?_
  exact .ite (fun _ => .ret fun _ _ h => h) fun _ => .fail fun _ _ h => h

theorem watchTriple_detachIfSet (lease : Int) (key : Bytes) (hA : watchProtocol.Stable A) :
    WatchTriple A (detachIfSet lease key) fun _ => A :=
  .ite (fun _ => .ret fun _ _ h => h) fun _ => watchTriple_silent (o := .detachKey lease key) trivial hA

end Sections

theorem watchTriple_currentRevision (x : Write) (rest : List Write) :
    WatchTriple (Committed (x :: rest)) currentRevision fun revision s n =>
      Committed (x :: rest) s n ∧ revision = x.revision := by
  refine watchTriple_ask (o := .currentRevision) (Committed.stable _) (fun _ _ _ => trivial) ?_
  intro s n others r s' _ h _ hexec
  cases hexec
  exact ⟨h,(h.revision x mem_cons_self).symm⟩

theorem watchTriple_collectWatchers (x : Write) (rest : List Write) :
    WatchTriple (Committed (x :: rest)) (collectWatchers x.key) fun watchers => SendingTo x rest watchers := by
  refine watchTriple_ask (o := .collectWatchers x.key) (Committed.stable _) ?_ ?_
  · intro s n h
    obtain rfl := h.noted
    exact ⟨x,rest,rfl,rfl,rfl⟩
  · intro s n others r s' _ h _ hexec
    cases hexec
    obtain rfl := h.noted
    exact ⟨rfl,fun y hy => h.revision y (mem_cons_of_mem _ hy)⟩

theorem watchTriple_sendWatchResponse {x : Write} {rest : List Write} {w : Watcher} {watchers : List Watcher}
    {response : WatchResponse} (hid : response.watchId = w.watchId) (hwrite : response.write = some x) :
    WatchTriple (SendingTo x rest (w :: watchers)) (sendWatchResponse response) fun _ => SendingTo x rest watchers := by
  refine watchTriple_ask (o := .sendWatchResponse response) (SendingTo.stable _ _ _) ?_ ?_
  · intro s n h
    obtain rfl := h.noted
    exact ⟨x,watchers.map fun w => (w.watchId, x),by rw [hid]; rfl,hwrite⟩
  · intro s n others r s' _ h _ hexec
    cases hexec
    obtain rfl := h.noted
    exact ⟨rfl,h.revision⟩

theorem watchTriple_notify (event : WatchEvent) (revision : Int) (rest : List Write) :
    WatchTriple (Committed (event.writeAt revision :: rest)) (notify event) fun _ => Committed rest := by
  refine (watchTriple_currentRevision _ rest).bind fun current => ?_
  refine .assume (p := current = revision) (fun _ _ h => h.2) fun hcurrent => ?_
  subst hcurrent
  have hcollect : WatchTriple
      (fun s n => Committed (event.writeAt current :: rest) s n ∧ current = (event.writeAt current).revision)
      (collectWatchers event.key) fun watchers => SendingTo (event.writeAt current) rest watchers :=
    (watchTriple_collectWatchers (event.writeAt current) rest).mono (fun _ _ h => h.1) fun _ _ _ h => h
  refine hcollect.bind fun watchers => ?_
  -- The loop keeps the watchers that are still to be told.
  have hloop := Triple.forEach (P := watchProtocol) (F := Told)
    (f := fun w : Watcher => sendWatchResponse ⟨w.watchId,current,false,
      some { event with prevKv := if w.prevKv then event.prevKv else none }⟩) (l := watchers)
    (fun done s n => ∃ todo, done ++ todo = watchers ∧ SendingTo (event.writeAt current) rest todo s n) ?_
  · refine hloop.mono (fun s n h => ⟨watchers,rfl,h⟩) ?_
    rintro _ s n ⟨todo,htodo,h⟩
    obtain rfl := append_right_eq_self.mp htodo
    exact ⟨h.noted,h.revision⟩
  · intro done w todo hdone
    refine .of_exists fun todo' => ?_
    refine .assume (p := todo' = w :: todo) (fun _ _ h => append_cancel_left (h.1.trans hdone.symm)) fun htodo => ?_
    subst htodo
    refine (watchTriple_sendWatchResponse rfl rfl).mono (fun _ _ h => h.2) fun _ _ _ h => ⟨todo,?_,h⟩
    rw [append_assoc]
    exact hdone

theorem watchTriple_notifyAll {β : Type} (event : β → WatchEvent) (revision : β → Int) (l : List β) :
    WatchTriple (Committed (l.map fun b => (event b).writeAt (revision b)))
      (Act.forEach (fun b => notify (event b)) l) fun _ => Told := by
  refine (Triple.forEach (fun done s n => ∃ todo, done ++ todo = l ∧
    Committed (todo.map fun b => (event b).writeAt (revision b)) s n) ?_).mono (fun s n h => ⟨l,rfl,h⟩) ?_
  · intro done b rest hdone
    refine .of_exists fun todo => ?_
    refine .assume (p := todo = b :: rest) (fun _ _ h => append_cancel_left (h.1.trans hdone.symm)) fun htodo => ?_
    subst htodo
    refine (watchTriple_notify (event b) (revision b) _).mono (fun _ _ h => h.2) fun _ _ _ h => ⟨rest,?_,h⟩
    rw [append_assoc]
    exact hdone
  · rintro _ s n ⟨todo,htodo,h⟩
    obtain rfl := append_right_eq_self.mp htodo
    exact h.told

theorem watchTriple_updatePutData (key value : Bytes) (lease : Int) (uninitialized : Numbers) :
    WatchTriple Told (updatePutData key value lease uninitialized) fun u =>
      Committed [(⟨.put,key,u.newKv,u.prevKv⟩ : WatchEvent).writeAt u.newRevision] := by
  refine watchTriple_ask (o := .updatePutData key value lease uninitialized) Told.stable ?_ ?_
  · intro s n h
    obtain rfl := h
    simp [Serves,Busy]
  · intro s n others r s' _ h _ hexec
    obtain rfl := h
    obtain ⟨-,rfl,rfl⟩ := eq_of_unlocked hexec
    have hkv : (s.kv.updatePutData key value lease uninitialized).1.newKv.value = value ∧
        (s.kv.updatePutData key value lease uninitialized).1.newKv.lease = lease := by
      unfold KvManager.updatePutData PutUpdate.newKv
      cases s.kv.find key <;> exact ⟨rfl,rfl⟩
    constructor
    · simp only [watchNote,WatchEvent.writeAt,hkv,nil_append]
    · intro x hx
      rw [mem_singleton.mp hx]
      simp [WatchEvent.writeAt,logWrites,KvManager.updatePutData]

theorem watchTriple_deleteData (key rangeEnd : Bytes) : WatchTriple Told (deleteData key rangeEnd) fun kvs =>
      Committed (kvs.map fun kv => (⟨.delete,kv.key,kv,none⟩ : WatchEvent).writeAt kv.modRevision) := by
  refine watchTriple_ask (o := .deleteData key rangeEnd) Told.stable ?_ ?_
  · intro s n h
    obtain rfl := h
    simp [Serves,Busy]
  · intro s n others r s' _ h _ hexec
    obtain rfl := h
    obtain ⟨-,rfl,rfl⟩ := eq_of_unlocked hexec
    refine ⟨rfl,?_⟩
    intro x hx
    obtain ⟨kv,hkv,rfl⟩ := mem_map.mp hx
    obtain ⟨e,-,rfl⟩ := mem_map.mp hkv
    simp [WatchEvent.writeAt,logWrites,KvManager.deleteData]

theorem watchTriple_txnData (req : TxnRequest) : WatchTriple Told (txnData req) fun outcome =>
      Committed (outcome.watchEvents.map fun e => e.writeAt outcome.response.revision) := by
  refine watchTriple_ask (o := .txnData req) Told.stable ?_ ?_
  · intro s n h
    obtain rfl := h
    simp [Serves,Busy]
  · intro s n others r s' hinv h _ hexec
    obtain rfl := h
    obtain ⟨⟨outcome,kv⟩,htxn,heq⟩ := Option.map_eq_some_iff.mp hexec
    cases heq
    refine ⟨rfl,?_⟩
    intro x hx
    obtain ⟨e,-,rfl⟩ := mem_map.mp hx
    exact (hinv.tracks.txnData htxn).2

theorem watchTriple_attachNewLeaseWithRollback (key : Bytes) (lease : Int) (u : PutUpdate) (writes : List Write) :
    WatchTriple (Committed writes) (attachNewLeaseWithRollback key lease u) fun _ => Committed writes := by
  refine .ite (fun _ => .ret fun _ _ h => h) fun _ => ?_
  refine (watchTriple_silent (o := .attachKey lease key) trivial (Committed.stable writes)).bind fun (found : Bool) => ?_
  refine .ite (fun _ => .ret fun _ _ h => h) fun _ => ?_
  -- No put is taken back, so whatever is said of the rest is not reached.
  have hrestore : WatchTriple (Committed writes) (restore key u.prevKv) fun _ => Told := by
    refine Triple.ask (o := MetaOp.restore key u.prevKv) (Committed.stable writes) ?_
    intro s n others r s' _ _ hguard
    exact hguard.elim
  refine hrestore.bind fun _ => ?_
  have hreattach : WatchTriple Told (reattach u.oldLease key) fun _ => Told := by
    refine .ite (fun _ => .ret fun _ _ h => h) fun _ => ?_
    refine (watchTriple_silent (o := .leaseExists u.oldLease) trivial Told.stable).bind fun (found : Bool) => ?_
    refine .ite (fun _ => ?_) fun _ => .ret fun _ _ h => h
    exact (watchTriple_silent (o := .attachKey u.oldLease key) trivial Told.stable).bind fun (_ : Bool) =>
      .ret fun _ _ h => h
  refine hreattach.bind fun _ => ?_
  exact (watchTriple_silent (o := .unlock) trivial Told.stable).bind fun (_ : Unit) => .fail fun _ _ h => h

theorem watchTriple_put (key value : Bytes) (lease : Int) (uninitialized : Numbers) :
    WatchTriple Told (put key value lease uninitialized) fun _ => Told := by
  refine (watchTriple_checkLease lease).bind fun _ => ?_
  refine (watchTriple_updatePutData key value lease uninitialized).bind fun u => ?_
  refine (watchTriple_detachIfSet u.oldLease key (Committed.stable _)).bind fun _ => ?_
  refine (watchTriple_attachNewLeaseWithRollback key lease u _).bind fun _ => ?_
  exact (watchTriple_notify _ _ []).bind fun _ => .ret fun _ _ h => h.told

theorem watchTriple_delete (key rangeEnd : Bytes) (skipLeaseCleanup : Bool) :
    WatchTriple Told (delete key rangeEnd skipLeaseCleanup) fun _ => Told := by
  refine (watchTriple_deleteData key rangeEnd).bind fun kvs => ?_
  have hdetach : ∀ kv : KeyValue, WatchTriple
      (Committed (kvs.map fun kv => (⟨.delete,kv.key,kv,none⟩ : WatchEvent).writeAt kv.modRevision))
      (detachDeleted kv) fun _ =>
        Committed (kvs.map fun kv => (⟨.delete,kv.key,kv,none⟩ : WatchEvent).writeAt kv.modRevision) := by
    intro kv
    refine .ite (fun _ => .ret fun _ _ h => h) fun _ => ?_
    refine (watchTriple_silent (o := .leaseExists kv.lease) trivial (Committed.stable _)).bind fun (found : Bool) => ?_
    refine .ite (fun _ => ?_) fun _ => .ret fun _ _ h => h
    exact watchTriple_silent (o := .detachKey kv.lease kv.key) trivial (Committed.stable _)
  refine (Triple.loop hdetach).bind fun _ => ?_
  exact (watchTriple_notifyAll (fun kv : KeyValue => ⟨.delete,kv.key,kv,none⟩) KeyValue.modRevision kvs).bind
    fun _ => .ret fun _ _ h => h

theorem watchTriple_validateTxnLeases (ops : List RequestOp) :
    WatchTriple Told (validateTxnLeases ops) fun _ => Told := by
  refine .loop fun op => ?_
  cases op with
  | put req => exact watchTriple_checkLease req.lease
  | _ => exact .ret fun _ _ h => h

theorem watchTriple_processTxnLeaseChanges (outcome : TxnOutcome) (writes : List Write) :
    WatchTriple (Committed writes) (processTxnLeaseChanges outcome) fun _ => Committed writes := by
  have hput : ∀ change : Bytes × Int × Int,
      WatchTriple (Committed writes) (changePutLease change) fun _ => Committed writes := by
    intro change
    refine (watchTriple_detachIfSet change.2.1 change.1 (Committed.stable writes)).bind fun _ => ?_
    refine .ite (fun _ => .ret fun _ _ h => h) fun _ => ?_
    exact (watchTriple_silent (o := .attachKey change.2.2 change.1) trivial (Committed.stable writes)).bind
      fun (_ : Bool) => .ret fun _ _ h => h
  refine (Triple.loop hput).bind fun _ => ?_
  exact .loop fun change => watchTriple_silent (o := .detachKey change.2 change.1) trivial (Committed.stable writes)

theorem watchTriple_txn (req : TxnRequest) : WatchTriple Told (txn req) fun _ => Told := by
  refine (watchTriple_validateTxnLeases req.success).bind fun _ => ?_
  refine (watchTriple_validateTxnLeases req.failure).bind fun _ => ?_
  refine (watchTriple_txnData req).bind fun outcome => ?_
  refine (watchTriple_processTxnLeaseChanges outcome _).bind fun _ => ?_
  refine (watchTriple_notifyAll (fun e : WatchEvent => e) (fun _ => outcome.response.revision)
    outcome.watchEvents).bind fun _ => ?_
  exact (watchTriple_silent (o := .unlock) trivial Told.stable).bind fun (_ : Unit) => .ret fun _ _ h => h

theorem watchTriple_revoke (leaseId : Int) : WatchTriple Told (revoke leaseId) fun _ => Told := by
  refine (watchTriple_silent (o := .eraseLease leaseId) trivial Told.stable).bind fun (keys : Option (List Bytes)) => ?_
  cases keys with
  | none => exact .fail fun _ _ h => h
  | some keys => exact .loop fun key => (watchTriple_delete key [] true).bind fun _ => .ret fun _ _ h => h

theorem watchTriple_addWatcher (req : WatchCreateRequest) :
    WatchTriple Told (addWatcher req) fun watchId => Registering ⟨watchId,req,.added⟩ := by
  refine watchTriple_ask (o := .addWatcher req) Told.stable (fun s n h => ?_) ?_
  · obtain rfl := h
    rfl
  · intro s n others r s' _ h _ _
    obtain rfl := h
    rfl

theorem watchTriple_sendHistoricalEvents (watchId : Int) (req : WatchCreateRequest) :
    WatchTriple (Registering ⟨watchId,req,.added⟩)
      (Act.bind (rangeHistory req.key req.rangeEnd req.startRevision) fun events =>
        Act.bind (Act.ask (sendHistory watchId events)) fun _ => .ret ()) fun _ =>
      Registering ⟨watchId,req,.sent⟩ := by
  have hread : WatchTriple (Registering ⟨watchId,req,.added⟩) (rangeHistory req.key req.rangeEnd req.startRevision)
      fun events => Registering ⟨watchId,req,.read events⟩ := by
    refine watchTriple_ask (o := .rangeHistory req.key req.rangeEnd req.startRevision) (Registering.stable _) ?_ ?_
    · intro s n h
      obtain rfl := h
      exact ⟨watchId,req.prevKv,rfl⟩
    · intro s n others r s' _ h _ _
      obtain rfl := h
      rfl
  refine hread.bind fun events => ?_
  have hsend : WatchTriple (Registering ⟨watchId,req,.read events⟩) (Act.ask (sendHistory watchId events))
      fun _ => Registering ⟨watchId,req,.sent⟩ := by
    refine watchTriple_ask (Registering.stable _) ?_ ?_
    · intro s n h
      obtain rfl := h
      exact ⟨req,rfl⟩
    · intro s n others r s' _ h _ _
      obtain rfl := h
      rfl
  exact hsend.bind fun (_ : Unit) => .ret fun _ _ h => h

theorem watchTriple_registerWatcher (req : WatchCreateRequest) :
    WatchTriple Told (registerWatcher req) fun _ => Told := by
  refine (watchTriple_addWatcher req).bind fun watchId => ?_
  refine (watchTriple_silent (o := .currentRevision) trivial (Registering.stable _)).bind fun (revision : Int) => ?_
  refine (watchTriple_silent (o := .writeStream watchId [⟨watchId,revision,true,none⟩]) ?_
    (Registering.stable _)).bind fun (_ : Unit) => ?_
  · intro r hr
    rw [mem_singleton.mp hr]
  have hhistory : WatchTriple (Registering ⟨watchId,req,.added⟩) (if 0 < req.startRevision then
        Act.bind (rangeHistory req.key req.rangeEnd req.startRevision) fun events =>
          Act.bind (Act.ask (sendHistory watchId events)) fun _ => .ret ()
      else .ret ()) fun _ s n => ∃ phase, (0 < req.startRevision → phase = .sent) ∧
        Registering ⟨watchId,req,phase⟩ s n := by
    refine .ite (fun _ => ?_) fun hstart => .ret fun _ _ h => ⟨.added,fun hpos => absurd hpos hstart,h⟩
    exact (watchTriple_sendHistoricalEvents watchId req).mono (fun _ _ h => h) fun _ _ _ h => ⟨.sent,fun _ => rfl,h⟩
  refine hhistory.bind fun _ => ?_
  refine .of_exists fun phase => ?_
  refine .assume (p := 0 < req.startRevision → phase = .sent) (fun _ _ h => h.1) fun hphase => ?_
  have hstart : WatchTriple (Registering ⟨watchId,req,phase⟩) (Act.ask (startWatcher watchId)) fun _ => Told := by
    refine watchTriple_ask (Registering.stable _) ?_ ?_
    · intro s n h
      obtain rfl := h
      exact ⟨req,phase,rfl,hphase⟩
    · intro s n others r s' _ h _ _
      obtain rfl := h
      rfl
  exact (hstart.mono (fun _ _ h => h.2) fun _ _ _ h => h).bind fun (_ : Unit) => .ret fun _ _ h => h

theorem watchTriple_act (c : MetaCall) : WatchTriple Told c.act fun _ => Told := by
  cases c with
  | grant leaseId ttl =>
    exact (watchTriple_silent (o := .grant leaseId ttl) trivial Told.stable).bind fun (_ : Unit) => .ret fun _ _ h => h
  | put key value lease uninitialized =>
    exact (watchTriple_put key value lease uninitialized).bind fun _ => .ret fun _ _ h => h
  | delete key rangeEnd => exact (watchTriple_delete key rangeEnd false).bind fun _ => .ret fun _ _ h => h
  | txn req => exact (watchTriple_txn req).bind fun _ => .ret fun _ _ h => h
  | revoke leaseId => exact (watchTriple_revoke leaseId).bind fun _ => .ret fun _ _ h => h
  | registerWatcher req => exact (watchTriple_registerWatcher req).bind fun _ => .ret fun _ _ h => h
  | processWatcherQueue watchId =>
    exact (watchTriple_silent (o := .processWatcherQueue watchId) trivial Told.stable).bind fun (_ : Unit) =>
      .ret fun _ _ h => h

def watchMachine : Machine (MetaThreads WatchNote) (ThreadEvent MetaCall) :=
  Threads.machine watchConcurrency MetaCall.prog {}

theorem WatchInv.init : WatchInv {} [] :=
  ⟨.init,⟨[],[],⟨by simp,by simp,List.Pairwise.nil⟩,by simp,by simp,by simp⟩,by simp,by simp, List.Pairwise.nil⟩

theorem WatchNote.not_busy_idle : ¬ ({} : WatchNote).Busy := by simp [Busy]

theorem WatchInv.idle {s : MetaStore} {ns : List WatchNote} (h : WatchInv s ns) : WatchInv s ({} :: ns) := by
  obtain ⟨pending,sending,hway,hpendings,hsendings,hok⟩ := h.underWay
  have hidle := not_busy_idle
  refine ⟨h.tracks,⟨pending,sending,⟨?_,?_,?_⟩,hpendings,hsendings,?_⟩,h.ids,?_,?_⟩
  · exact forall_mem_cons.mpr ⟨fun hbusy => absurd hbusy hidle,hway.only⟩
  · intro hsome
    obtain ⟨n,hn,hbusy⟩ := hway.busy hsome
    exact ⟨n,mem_cons_of_mem _ hn,hbusy⟩
  · exact pairwise_cons.mpr ⟨fun _ _ hboth => hidle hboth.1,hway.once⟩
  · intro w hw hstart phase hphase
    apply hok w hw hstart phase
    rcases hphase with ⟨n,hn,r,hr,hphase⟩ | ⟨hnone,hphase⟩
    · rcases mem_cons.mp hn with rfl | hn
      · cases hr
      · exact Or.inl ⟨n,hn,r,hr,hphase⟩
    · exact Or.inr ⟨fun n hn => hnone n (mem_cons_of_mem _ hn),hphase⟩
  · refine forall_mem_cons.mpr ⟨?_,h.registering⟩
    intro r hr
    cases hr
  · refine pairwise_cons.mpr ⟨?_,h.apart⟩
    intro n _ r r' hr
    cases hr

theorem watchInv_of_reachable {t : MetaThreads WatchNote} (h : watchMachine.ReachableBy watchProtocol.Guard t) :
    watchProtocol.Sound t := by
  refine sound_of_reachable (P := watchProtocol) WatchInv.init (fun _ _ hinv => WatchInv.idle hinv) ?_ h
  intro call s ns hinv
  refine (watchTriple_act call).safe ?_ ?_ hinv rfl
  · intro _ s n others hinv hn
    obtain rfl := hn
    exact hinv
  · intro s n others hinv hn
    obtain rfl := hn
    exact hinv

theorem exists_phaseOf (ns : List WatchNote) (watchId : Int) : ∃ phase, PhaseOf ns watchId phase := by
  by_cases hsome : ∃ n ∈ ns, ∃ r, n.registering = some r ∧ r.watchId = watchId
  · obtain ⟨n,hn,r,hr,hid⟩ := hsome
    exact ⟨r.phase,Or.inl ⟨n,hn,r,hr,hid,rfl⟩⟩
  · exact ⟨.sent,Or.inr ⟨fun n hn r hr hid => hsome ⟨n,hn,r,hr,hid⟩,rfl⟩⟩

/-- What the stream of a watcher has of the writes that it is to carry: nothing else, nothing twice, in the
order of the revisions, and all of it when no call is under way and the queue is empty. -/
structure StreamInOrder (t : MetaThreads WatchNote) (w : Watcher) : Prop where
  sorted : w.streamed.Pairwise fun a b => a.revision ≤ b.revision
  once : w.streamed.Subperm (w.expected t.shared.log)
  complete : t.Quiescent → w.writeQueue = [] → w.streamed.Perm (w.expected t.shared.log)

theorem HistoryOk.single (x : Write) (start rangeEnd : Bytes) (startRevision : Int) :
    HistoryOk [x] start rangeEnd startRevision := by
  constructor
  · intro k _
    have hle : (writesOf [x] k).length ≤ 1 := by
      rw [writesOf,length_reverse]
      exact length_filter_le _ _
    exact ((length_filter_le _ _).trans hle).trans (by decide)
  · intro a ha b hb hlt
    have hmem : ∀ c ∈ writesFrom [x] start rangeEnd startRevision, c = x := by
      intro c hc
      simpa using mem_of_mem_filter hc
    rw [hmem a ha,hmem b hb]

end Datasystem.Metastore
