import Datasystem.Metastore.KvManager

/-!
# Transactions of the metastore

All of it happens under the mutex of the store. The range operation is executed by `Range`, which takes the
mutex itself.
-/

namespace Datasystem.Metastore

open Bytes

inductive CompareTarget where
  | version
  | create
  | mod
  | value
  | lease
deriving DecidableEq, Repr

inductive CompareResult where
  | equal
  | greater
  | less
  | notEqual
deriving DecidableEq, Repr

/-- The operand of a compare, a union with one member for each target. -/
inductive TargetUnion where
  | version (version : Int)
  | createRevision (revision : Int)
  | modRevision (revision : Int)
  | value (value : Bytes)
  | lease (lease : Int)
deriving DecidableEq, Repr

structure Compare where
  key : Bytes
  target : CompareTarget
  result : CompareResult
  targetUnion : Option TargetUnion
deriving DecidableEq, Repr

namespace Compare

/-- The accessor `version()`; a member that is not set reads as zero. -/
def version (cmp : Compare) : Int :=
  match cmp.targetUnion with
  | some (.version v) => v
  | _ => 0

def value (cmp : Compare) : Bytes :=
  match cmp.targetUnion with
  | some (.value v) => v
  | _ => []

end Compare

def compareValues {α : Type} [LinearOrder α] (actual operand : α) : CompareResult → Bool
  | .equal => actual = operand
  | .notEqual => actual ≠ operand
  | .greater => operand < actual
  | .less => actual < operand

def compareStringValue (kvValue cmpValue : Bytes) (result : CompareResult) : Bool :=
  compareValues kvValue cmpValue result

def compareIntValue (targetValue cmpValue : Int) (result : CompareResult) : Bool :=
  compareValues targetValue cmpValue result

def getTargetValue (target : CompareTarget) (info : KeyInfo) : Int :=
  match target with
  | .version => info.numbers.version
  | .create => info.numbers.createRevision
  | .mod => info.numbers.modRevision
  | .lease => info.kv.lease
  | .value => 0

/-- `EvaluateCompare`; a key that does not exist has the empty value and the number zero. -/
def evaluateCompare (cmp : Compare) (info : Option KeyInfo) : Bool :=
  match cmp.target with
  | .value => compareStringValue (info.elim [] fun i => i.kv.value) cmp.value cmp.result
  | target => compareIntValue (info.elim 0 (getTargetValue target)) cmp.version cmp.result

def evaluateCompares (s : KvManager) (compares : List Compare) : Bool :=
  compares.all fun cmp => evaluateCompare cmp (s.find cmp.key)

structure PutRequest where
  key : Bytes
  value : Bytes
  lease : Int := 0
  prevKv : Bool := false
deriving DecidableEq, Repr

structure DeleteRangeRequest where
  key : Bytes
  rangeEnd : Bytes := []
  prevKv : Bool := false
deriving DecidableEq, Repr

structure RangeRequest where
  key : Bytes
  rangeEnd : Bytes := []
  limit : Int := 0
  countOnly : Bool := false
  keysOnly : Bool := false
deriving DecidableEq, Repr

inductive RequestOp where
  | put (req : PutRequest)
  | deleteRange (req : DeleteRangeRequest)
  | range (req : RangeRequest)
deriving DecidableEq, Repr

inductive ResponseOp where
  | put (prevKv : Option KeyValue)
  | deleteRange (deleted : Nat) (prevKvs : List KeyValue)
  | range (kvs : List KeyValue) (count : Nat)
deriving DecidableEq, Repr

structure WatchEvent where
  type : EventType
  key : Bytes
  newKv : KeyValue
  prevKv : Option KeyValue := none
deriving DecidableEq, Repr

/-- The local variables of `Txn` while it executes its operations, and the store it works on. -/
structure TxnState where
  kv : KvManager
  newRevision : Int
  hasWriteOp : Bool := false
  responses : List ResponseOp := []
  /-- Key, old lease and new lease of each put. -/
  putLeases : List (Bytes × Int × Int) := []
  /-- The lease of each deleted key that had one. -/
  deletedLeases : List (Bytes × Int) := []
  watchEvents : List WatchEvent := []

def txnPutInfo (s : KvManager) (req : PutRequest) (newRevision : Int) : KeyInfo :=
  let kv : KeyValue :=
    { key := req.key, value := req.value, lease := req.lease
      createRevision := (s.find req.key).elim newRevision fun old => old.numbers.createRevision
      modRevision := newRevision
      version := (s.find req.key).elim 1 fun old => old.numbers.version + 1 }
  { kv := kv, numbers := kv.numbers }

variable (t : TxnState)

def executePutOp (req : PutRequest) : TxnState :=
  let prevKv := (t.kv.find req.key).map KeyInfo.kv
  { t with
    kv := t.kv.storePut req.key (txnPutInfo t.kv req t.newRevision) t.newRevision
    responses := t.responses ++ [.put (if req.prevKv then some (prevKv.getD {}) else none)]
    putLeases := t.putLeases ++ [(req.key, prevKv.elim 0 KeyValue.lease, req.lease)]
    watchEvents := t.watchEvents ++
      [⟨.put,req.key,(txnPutInfo t.kv req t.newRevision).kv,prevKv⟩] }

def recordLease (deletedLeases : List (Bytes × Int)) (e : Bytes × KeyInfo) : List (Bytes × Int) :=
  if e.2.kv.lease ≠ 0 then Keyed.upsert Prod.fst (e.1, e.2.kv.lease) deletedLeases else deletedLeases

def executeDeleteRangeOp (req : DeleteRangeRequest) : TxnState :=
  let deleted := t.kv.inRange req.key req.rangeEnd
  { t with
    kv := deleted.foldl (KvManager.eraseRecorded t.newRevision) t.kv
    responses := t.responses ++
      [.deleteRange deleted.length (if req.prevKv then deleted.map fun e => e.2.kv else [])]
    deletedLeases := deleted.foldl recordLease t.deletedLeases
    watchEvents := t.watchEvents ++
      deleted.map fun e => ⟨.delete,e.1,{ e.2.kv with modRevision := t.newRevision },none⟩ }

def executeRangeOp (req : RangeRequest) : Option TxnState :=
  (t.kv.range req.key req.rangeEnd req.limit req.countOnly req.keysOnly).map fun kvs =>
    { t with responses := t.responses ++ [.range kvs kvs.length] }

/-- The first write of a transaction takes a new revision. -/
def TxnState.beginWrite : TxnState :=
  if t.hasWriteOp then t
  else
    { t with
      kv := { t.kv with revision := t.kv.revision + 1 }
      newRevision := t.kv.revision + 1
      hasWriteOp := true }

def executeOp : RequestOp → Option TxnState
  | .put req => some (executePutOp t.beginWrite req)
  | .deleteRange req => some (executeDeleteRangeOp t.beginWrite req)
  | .range req => executeRangeOp t req

/-- The loop of `Txn`; `none` when an operation waits for the mutex. -/
def executeOps : TxnState → List RequestOp → Option TxnState
  | t, [] => some t
  | t, op :: ops => (executeOp t op).bind fun t' => executeOps t' ops

structure TxnRequest where
  compares : List Compare := []
  success : List RequestOp := []
  failure : List RequestOp := []
deriving DecidableEq, Repr

def TxnRequest.ops (req : TxnRequest) (succeeded : Bool) : List RequestOp :=
  if succeeded then req.success else req.failure

structure TxnResponse where
  succeeded : Bool
  responses : List ResponseOp
  /-- The revision in the header. -/
  revision : Int
deriving DecidableEq, Repr

/-- What the transaction has left to do when its operations are executed. -/
structure TxnOutcome where
  response : TxnResponse
  putLeases : List (Bytes × Int × Int)
  deletedLeases : List (Bytes × Int)
  watchEvents : List WatchEvent
deriving DecidableEq, Repr

/-- `Txn` from the moment it takes the mutex to the end of the loop. It keeps the mutex to its end. -/
def KvManager.txnData (s : KvManager) (req : TxnRequest) : Option (TxnOutcome × KvManager) :=
  if s.locked then none
  else
    let succeeded := evaluateCompares s req.compares
    (executeOps ⟨{ s with locked := true },s.revision,false,[],[],[],[]⟩ (req.ops succeeded)).map
      fun t => (⟨⟨succeeded,t.responses,t.newRevision⟩,t.putLeases,t.deletedLeases,t.watchEvents⟩, t.kv)

/-- What holds when the mutex is taken and survives every operation holds at the end of the loop. -/
theorem KvManager.txnData_invariant {P : TxnState → Prop} {s kv : KvManager} {req : TxnRequest} {outcome : TxnOutcome}
    (hop : ∀ t op t', P t → executeOp t op = some t' → P t')
    (hinit : P ⟨{ s with locked := true },s.revision,false,[],[],[],[]⟩)
    (h : s.txnData req = some (outcome, kv)) :
    ∃ t succeeded, P t ∧ kv = t.kv ∧
      outcome = ⟨⟨succeeded,t.responses,t.newRevision⟩,t.putLeases,t.deletedLeases,t.watchEvents⟩ := by
  have hloop : ∀ ops t t', P t → executeOps t ops = some t' → P t' := by
    intro ops
    induction ops with
    | nil =>
      intro t t' ht hops
      cases hops
      exact ht
    | cons op ops ih =>
      intro t t' ht hops
      obtain ⟨t₁,hfirst,hrest⟩ := Option.bind_eq_some_iff.mp hops
      exact ih t₁ t' (hop t op t₁ ht hfirst) hrest
  unfold txnData at h
  split_ifs at h
  obtain ⟨t,hops,heq⟩ := Option.map_eq_some_iff.mp h
  obtain ⟨houtcome,hkv⟩ := Prod.mk.inj heq
  exact ⟨t,_,hloop _ _ t hinit hops,hkv.symm,houtcome.symm⟩

end Datasystem.Metastore
