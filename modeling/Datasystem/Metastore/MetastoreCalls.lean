import Datasystem.Lib.Threads
import Datasystem.Metastore.LeaseManager
import Datasystem.Metastore.WatchManager
import Datasystem.Metastore.WriteLog

/-!
# The calls of the metastore

A transaction keeps the mutex of the store to its end, over the changes of the leases and the notification of
the watchers.
-/

namespace Datasystem.Metastore

/-- The store, its leases and its watchers. `log` is what was written, the newest write first; no
section reads it. -/
structure MetaStore where
  kv : KvManager := {}
  leases : LeaseManager := {}
  watch : WatchManager := {}
  log : List Write := []

inductive MetaOp where
  | leaseExists (leaseId : Int)
  | attachKey (leaseId : Int) (key : Bytes)
  | detachKey (leaseId : Int) (key : Bytes)
  | grant (leaseId ttl : Int)
  | eraseLease (leaseId : Int)
  | updatePutData (key value : Bytes) (lease : Int) (uninitialized : Numbers)
  | restore (key : Bytes) (prevKv : Option KeyValue)
  | deleteData (key rangeEnd : Bytes)
  | txnData (req : TxnRequest)
  | unlock
  | currentRevision
  | collectWatchers (key : Bytes)
  | sendWatchResponse (response : WatchResponse)
  | addWatcher (req : WatchCreateRequest)
  | writeStream (watchId : Int) (responses : List WatchResponse)
  | rangeHistory (start rangeEnd : Bytes) (startRevision : Int)
  | sendHistory (watchId : Int) (events : List HistoricalEntry)
  | startWatcher (watchId : Int)
  | processWatcherQueue (watchId : Int)
deriving DecidableEq, Repr

def MetaOp.Res : MetaOp → Type
  | .leaseExists _ => Bool
  | .attachKey _ _ => Bool
  | .detachKey _ _ => Unit
  | .grant _ _ => Unit
  | .eraseLease _ => Option (List Bytes)
  | .updatePutData _ _ _ _ => PutUpdate
  | .restore _ _ => Unit
  | .deleteData _ _ => List KeyValue
  | .txnData _ => TxnOutcome
  | .unlock => Unit
  | .currentRevision => Int
  | .collectWatchers _ => List Watcher
  | .sendWatchResponse _ => Unit
  | .addWatcher _ => Int
  | .writeStream _ _ => Unit
  | .rangeHistory _ _ _ => List HistoricalEntry
  | .sendHistory _ _ => Unit
  | .startWatcher _ => Unit
  | .processWatcherQueue _ => Unit

def TxnOutcome.writes (outcome : TxnOutcome) : List Write :=
  outcome.watchEvents.map fun e => ⟨outcome.response.revision,e.type,e.key,e.newKv.value,e.newKv.lease⟩

namespace MetaStore

def logWrites (s : MetaStore) (writes : List Write) : MetaStore := { s with log := writes.reverse ++ s.log }

/-- A section; `none` while it waits for the mutex of the store. -/
def exec : (o : MetaOp) → MetaStore → Option (o.Res × MetaStore)
  | .leaseExists leaseId, s => some (s.leases.leaseExists leaseId, s)
  | .attachKey leaseId key, s =>
    some ((s.leases.attachKey leaseId key).1, { s with leases := (s.leases.attachKey leaseId key).2 })
  | .detachKey leaseId key, s => some ((), { s with leases := s.leases.detachKey leaseId key })
  | .grant leaseId ttl, s => some ((), { s with leases := s.leases.grant leaseId ttl })
  | .eraseLease leaseId, s =>
    some ((s.leases.eraseLease leaseId).1, { s with leases := (s.leases.eraseLease leaseId).2 })
  | .updatePutData key value lease uninitialized, s =>
    if s.kv.locked then none
    else
      let u := s.kv.updatePutData key value lease uninitialized
      some (u.1, ({ s with kv := u.2 }).logWrites [⟨u.1.newRevision,.put,key,value,lease⟩])
  | .restore key prevKv, s =>
    if s.kv.locked then none
    else some ((), { s with kv := { s.kv.restore key prevKv with locked := true } })
  | .deleteData key rangeEnd, s =>
    if s.kv.locked then none
    else
      let d := s.kv.deleteData key rangeEnd
      some (d.1, ({ s with kv := d.2 }).logWrites
        (d.1.map fun kv : KeyValue => ⟨s.kv.revision + 1,.delete,kv.key,kv.value,kv.lease⟩))
  | .txnData req, s =>
    (s.kv.txnData req).map fun r => (r.1, ({ s with kv := r.2 }).logWrites r.1.writes)
  | .unlock, s => some ((), { s with kv := { s.kv with locked := false } })
  | .currentRevision, s => some (s.kv.revision, s)
  | .collectWatchers key, s => some (s.watch.collectWatchers key, s)
  | .sendWatchResponse response, s => some ((), { s with watch := s.watch.sendWatchResponse response })
  | .addWatcher req, s => some ((s.watch.addWatcher req).1, { s with watch := (s.watch.addWatcher req).2 })
  | .writeStream watchId responses, s =>
    some ((), { s with watch := s.watch.writeStream watchId responses })
  | .rangeHistory start rangeEnd startRevision, s =>
    (s.kv.rangeHistory start rangeEnd startRevision).map fun events => (events, s)
  | .sendHistory watchId events, s => some ((), { s with watch := s.watch.sendHistory watchId events })
  | .startWatcher watchId, s => some ((), { s with watch := s.watch.startWatcher watchId })
  | .processWatcherQueue watchId, s => some ((), { s with watch := s.watch.processWatcherQueue watchId })

/-- A section that writes has only happened if no transaction was holding the mutex. -/
theorem eq_of_unlocked {α : Type} {s : MetaStore} {x y : α × MetaStore}
    (h : (if s.kv.locked then none else some x) = some y) : ¬ s.kv.locked ∧ x.1 = y.1 ∧ x.2 = y.2 := by
  obtain ⟨hlocked,heq⟩ := Option.ite_none_left_eq_some.mp h
  exact ⟨hlocked,Prod.ext_iff.mp (Option.some.inj heq)⟩

end MetaStore

abbrev MetaAct (α : Type) := Act MetaOp MetaOp.Res Status Unit α

section Sections

def leaseExists (leaseId : Int) : MetaAct Bool := Act.ask (MetaOp.leaseExists leaseId)

def attachKey (leaseId : Int) (key : Bytes) : MetaAct Bool := Act.ask (MetaOp.attachKey leaseId key)

def detachKey (leaseId : Int) (key : Bytes) : MetaAct Unit := Act.ask (MetaOp.detachKey leaseId key)

def eraseLease (leaseId : Int) : MetaAct (Option (List Bytes)) := Act.ask (MetaOp.eraseLease leaseId)

def updatePutData (key value : Bytes) (lease : Int) (uninitialized : Numbers) : MetaAct PutUpdate :=
  Act.ask (MetaOp.updatePutData key value lease uninitialized)

def restore (key : Bytes) (prevKv : Option KeyValue) : MetaAct Unit := Act.ask (MetaOp.restore key prevKv)

def deleteData (key rangeEnd : Bytes) : MetaAct (List KeyValue) := Act.ask (MetaOp.deleteData key rangeEnd)

def txnData (req : TxnRequest) : MetaAct TxnOutcome := Act.ask (MetaOp.txnData req)

def unlock : MetaAct Unit := Act.ask MetaOp.unlock

def currentRevision : MetaAct Int := Act.ask MetaOp.currentRevision

def collectWatchers (key : Bytes) : MetaAct (List Watcher) := Act.ask (MetaOp.collectWatchers key)

def sendWatchResponse (response : WatchResponse) : MetaAct Unit := Act.ask (MetaOp.sendWatchResponse response)

def addWatcher (req : WatchCreateRequest) : MetaAct Int := Act.ask (MetaOp.addWatcher req)

def rangeHistory (start rangeEnd : Bytes) (startRevision : Int) : MetaAct (List HistoricalEntry) :=
  Act.ask (MetaOp.rangeHistory start rangeEnd startRevision)

end Sections

def leaseNotFound (leaseId : Int) : Status := ⟨.notFound,"Lease not found: " ++ toString leaseId⟩

/-- The first check of `Put`, and of each put of a transaction. -/
def checkLease (lease : Int) : MetaAct Unit :=
  if lease = 0 then .ret ()
  else Act.bind (leaseExists lease) fun found => if found then .ret () else .fail (leaseNotFound lease)

/-- The callback on the watchers: `NotifyPut` and `NotifyDelete` with the revision of the store at that
moment. -/
def notify (event : WatchEvent) : MetaAct Unit :=
  Act.bind currentRevision fun revision =>
    Act.bind (collectWatchers event.key) fun watchers =>
      Act.forEach (fun w : Watcher =>
        sendWatchResponse ⟨w.watchId,revision,false,
          some { event with prevKv := if w.prevKv then event.prevKv else none }⟩) watchers

def detachIfSet (lease : Int) (key : Bytes) : MetaAct Unit :=
  if lease = 0 then .ret () else detachKey lease key

/-- The old lease of a put that is taken back, if it still exists. -/
def reattach (oldLease : Int) (key : Bytes) : MetaAct Unit :=
  if oldLease = 0 then .ret ()
  else
    Act.bind (leaseExists oldLease) fun found =>
      if found then Act.bind (attachKey oldLease key) fun _ => .ret () else .ret ()

def attachNewLeaseWithRollback (key : Bytes) (lease : Int) (u : PutUpdate) : MetaAct Unit :=
  if lease = 0 then .ret ()
  else
    Act.bind (attachKey lease key) fun found =>
      if found then .ret ()
      else
        Act.bind (restore key u.prevKv) fun _ =>
          Act.bind (reattach u.oldLease key) fun _ =>
            Act.bind unlock fun _ => .fail (leaseNotFound lease)

def put (key value : Bytes) (lease : Int) (uninitialized : Numbers) : MetaAct (Option KeyValue) :=
  Act.bind (checkLease lease) fun _ =>
    Act.bind (updatePutData key value lease uninitialized) fun u =>
      Act.bind (detachIfSet u.oldLease key) fun _ =>
        Act.bind (attachNewLeaseWithRollback key lease u) fun _ =>
          Act.bind (notify ⟨.put,key,u.newKv,u.prevKv⟩) fun _ => .ret u.prevKv

def detachDeleted (kv : KeyValue) : MetaAct Unit :=
  if kv.lease = 0 then .ret ()
  else
    Act.bind (leaseExists kv.lease) fun found =>
      if found then detachKey kv.lease kv.key else .ret ()

def delete (key rangeEnd : Bytes) (skipLeaseCleanup : Bool) : MetaAct (List KeyValue) :=
  Act.bind (deleteData key rangeEnd) fun deletedKvs =>
    Act.bind (Act.forEach detachDeleted (if skipLeaseCleanup then [] else deletedKvs)) fun _ =>
      Act.bind (Act.forEach (fun kv : KeyValue => notify ⟨.delete,kv.key,kv,none⟩) deletedKvs)
        fun _ => .ret deletedKvs

def validateTxnLeases (ops : List RequestOp) : MetaAct Unit :=
  Act.forEach (fun op : RequestOp =>
    match op with
    | .put req => checkLease req.lease
    | _ => .ret ()) ops

def changePutLease (change : Bytes × Int × Int) : MetaAct Unit :=
  Act.bind (detachIfSet change.2.1 change.1) fun _ =>
    if change.2.2 = 0 then .ret () else Act.bind (attachKey change.2.2 change.1) fun _ => .ret ()

/-- `ProcessTxnLeaseChanges`: all puts, and then all deletes. -/
def processTxnLeaseChanges (outcome : TxnOutcome) : MetaAct Unit :=
  Act.bind (Act.forEach changePutLease outcome.putLeases) fun _ =>
    Act.forEach (fun change : Bytes × Int => detachKey change.2 change.1) outcome.deletedLeases

def txn (req : TxnRequest) : MetaAct TxnResponse :=
  Act.bind (validateTxnLeases req.success) fun _ =>
    Act.bind (validateTxnLeases req.failure) fun _ =>
      Act.bind (txnData req) fun outcome =>
        Act.bind (processTxnLeaseChanges outcome) fun _ =>
          Act.bind (Act.forEach notify outcome.watchEvents) fun _ =>
            Act.bind unlock fun _ => .ret outcome.response

/-- `LeaseManager::Revoke`, also of an expired lease. -/
def revoke (leaseId : Int) : MetaAct Unit :=
  Act.bind (eraseLease leaseId) fun
    | none => .fail (leaseNotFound leaseId)
    | some keys => Act.forEach (fun key => Act.bind (delete key [] true) fun _ => .ret ()) keys

def registerWatcher (req : WatchCreateRequest) : MetaAct Int :=
  Act.bind (addWatcher req) fun watchId =>
    Act.bind currentRevision fun revision =>
      Act.bind (Act.ask (MetaOp.writeStream watchId [⟨watchId,revision,true,none⟩])) fun _ =>
        Act.bind (if 0 < req.startRevision then
            Act.bind (rangeHistory req.key req.rangeEnd req.startRevision) fun events =>
              Act.bind (Act.ask (MetaOp.sendHistory watchId events)) fun _ => .ret ()
          else .ret ()) fun _ =>
          Act.bind (Act.ask (MetaOp.startWatcher watchId)) fun _ => .ret watchId

inductive MetaCall where
  | grant (leaseId ttl : Int)
  | put (key value : Bytes) (lease : Int) (uninitialized : Numbers)
  | delete (key rangeEnd : Bytes)
  | txn (req : TxnRequest)
  | revoke (leaseId : Int)
  | registerWatcher (req : WatchCreateRequest)
  | processWatcherQueue (watchId : Int)
deriving DecidableEq, Repr

inductive MetaResult where
  | done
  | prevKv (kv : Option KeyValue)
  | deleted (kvs : List KeyValue)
  | txn (response : TxnResponse)
  | watchId (watchId : Int)
deriving DecidableEq, Repr

def MetaCall.act : MetaCall → MetaAct MetaResult
  | .grant leaseId ttl => Act.bind (Act.ask (MetaOp.grant leaseId ttl)) fun _ => .ret .done
  | .put key value lease uninitialized =>
    Act.bind (Metastore.put key value lease uninitialized) fun prevKv => .ret (.prevKv prevKv)
  | .delete key rangeEnd => Act.bind (Metastore.delete key rangeEnd false) fun kvs => .ret (.deleted kvs)
  | .txn req => Act.bind (Metastore.txn req) fun response => .ret (.txn response)
  | .revoke leaseId => Act.bind (Metastore.revoke leaseId) fun _ => .ret .done
  | .registerWatcher req => Act.bind (Metastore.registerWatcher req) fun i => .ret (.watchId i)
  | .processWatcherQueue watchId => Act.bind (Act.ask (MetaOp.processWatcherQueue watchId)) fun _ => .ret .done

abbrev MetaProg := Prog MetaOp MetaOp.Res (Except Status MetaResult × Unit)

def MetaCall.prog (c : MetaCall) : MetaProg := c.act ()

/-- Calls in parallel. What a thread notes of its work is up to the use. -/
abbrev MetaThreads (ν : Type) := Threads MetaOp MetaOp.Res (Except Status MetaResult × Unit) MetaStore ν

end Datasystem.Metastore
