import Datasystem.Lib.Bytes
import Datasystem.Lib.Keyed
import Datasystem.Lib.Threads
import Datasystem.Status

/-!
# Expired objects

The functions here are the sections that hold the mutex of a shard, and the calls are programs over them.
-/

namespace Datasystem.Master

open Act Function

def kExpiredShardCount : Nat := 64

abbrev ShardIndex := Fin kExpiredShardCount

structure Timer where
  /-- Which entry it is, as an iterator points to it. -/
  id : Nat
  expireTime : Nat
  objectKey : Bytes
  /-- The entry that was made for the TTL; a retry makes another entry for the same TTL. -/
  ttl : Nat
deriving DecidableEq, Repr

structure FailedObjectInfo where
  retryCount : Nat := 0
  expireTime : Nat := 0
deriving DecidableEq, Repr

structure ExpiredShard where
  /-- In the order of the times. -/
  timedObj : List Timer := []
  obj2Timed : Finmap fun _ : Bytes => Nat := ∅
  failedObjects : Finmap fun _ : Bytes => FailedObjectInfo := ∅
  readyExpiredObjects : Finset Bytes := ∅

/-- What has happened to the TTLs of the objects; no section reads it. -/
structure TtlHistory where
  /-- The entry that was last made for an object. -/
  newest : Bytes → Option Nat := fun _ => none
  /-- The TTL that an object has. -/
  current : Bytes → Option Nat := fun _ => none
  /-- The TTL for which an object was last handed out. -/
  handed : Bytes → Nat := fun _ => 0
  /-- The objects that were handed out for a TTL that they no longer had. -/
  stale : List Bytes := []

structure ExpiredObjectManager where
  shards : ShardIndex → ExpiredShard := fun _ => {}
  nextId : Nat := 0
  history : TtlHistory := {}

def uint64Max : Nat := 2 ^ 64 - 1

def microsecondsPerSecond : Nat := 1000 * 1000

def calcExpireTime (version ttlSecond : Nat) : Nat :=
  if uint64Max / microsecondsPerSecond < ttlSecond then uint64Max
  else
    let ttlUs := ttlSecond * microsecondsPerSecond
    if uint64Max - ttlUs < version then uint64Max else version + ttlUs

namespace ExpiredShard

variable (shard : ExpiredShard)

/-- Into the multimap, behind the entries of the same time, and into the index. -/
def addTimer (timer : Timer) : ExpiredShard :=
  { shard with
    timedObj := shard.timedObj.orderedInsert (fun a b => a.expireTime < b.expireTime) timer
    obj2Timed := shard.obj2Timed.insert timer.objectKey timer.id }

def removeObjectIfExistUnlock (objectKey : Bytes) : ExpiredShard :=
  match shard.obj2Timed.lookup objectKey with
  | none => { shard with failedObjects := shard.failedObjects.erase objectKey }
  | some id =>
    { shard with
      timedObj := shard.timedObj.filter fun timer => timer.id ≠ id
      obj2Timed := shard.obj2Timed.erase objectKey
      failedObjects := shard.failedObjects.erase objectKey }

def expireTimeOf (timer : Timer) : Nat :=
  (shard.failedObjects.lookup timer.objectKey).elim timer.expireTime FailedObjectInfo.expireTime

def popTimer (timer : Timer) (rest : List Timer) : ExpiredShard :=
  { shard with
    timedObj := rest
    obj2Timed := shard.obj2Timed.erase timer.objectKey
    readyExpiredObjects := insert timer.objectKey shard.readyExpiredObjects }

end ExpiredShard

namespace ExpiredObjectManager

def modifyShard (m : ExpiredObjectManager) (i : ShardIndex) (f : ExpiredShard → ExpiredShard) : ExpiredObjectManager :=
  { m with shards := update m.shards i (f (m.shards i)) }

section Sections

-- `GetShardIndex`: the hash of the key.
variable (shardIndex : Bytes → ShardIndex) (m : ExpiredObjectManager) (objectKey : Bytes)

def insertObjectUnlock (version ttlSecond : Nat) : ExpiredObjectManager :=
  let timer : Timer := ⟨m.nextId,calcExpireTime version ttlSecond,objectKey,m.nextId⟩
  { m.modifyShard (shardIndex objectKey) fun shard => shard.addTimer timer with
    nextId := m.nextId + 1
    history :=
      { m.history with
        newest := update m.history.newest objectKey (some m.nextId)
        current := update m.history.current objectKey (some m.nextId) } }

def removeObjectIfExistUnlock (m : ExpiredObjectManager) (objectKey : Bytes) : ExpiredObjectManager :=
  { m.modifyShard (shardIndex objectKey) fun shard => shard.removeObjectIfExistUnlock objectKey with
    history := { m.history with current := update m.history.current objectKey none } }

def beingDeleted (code : StatusCode) : Status := ⟨code,"[ObjectKey]: %s is being deleted, please try again."⟩

def checkObjectInAsyncDelete : Bool := objectKey ∈ (m.shards (shardIndex objectKey)).readyExpiredObjects

def insertObject (version ttlSecond : Nat) : Status × ExpiredObjectManager :=
  if m.checkObjectInAsyncDelete shardIndex objectKey then (beingDeleted .runtimeError, m)
  else
    (.success, (m.removeObjectIfExistUnlock shardIndex objectKey).insertObjectUnlock shardIndex objectKey version
      ttlSecond)

def removeObjectIfExist : Status × ExpiredObjectManager :=
  if m.checkObjectInAsyncDelete shardIndex objectKey then (beingDeleted .tryAgain, m)
  else (.success, m.removeObjectIfExistUnlock shardIndex objectKey)

def getObjectRemainTimeAndRemove (currentUs : Nat) : Except Status Nat × ExpiredObjectManager :=
  let shard := m.shards (shardIndex objectKey)
  match shard.obj2Timed.lookup objectKey with
  | none => (.error ⟨.invalid,"The object[%s] not set ttl"⟩, m)
  | some id =>
    let expireTime := (shard.timedObj.find? fun timer => timer.id = id).elim 0 Timer.expireTime
    (.ok ((expireTime - currentUs) / 1000 / 1000 % 2 ^ 32), m.removeObjectIfExistUnlock shardIndex objectKey)

end Sections

variable (m : ExpiredObjectManager) (i : ShardIndex)

def headTime : Option Nat := (m.shards i).timedObj.head?.map Timer.expireTime

def popTimer (m : ExpiredObjectManager) (i : ShardIndex) (timer : Timer) (rest : List Timer) : ExpiredObjectManager :=
  { m.modifyShard i fun shard => shard.popTimer timer rest with
    history :=
      { m.history with
        handed := update m.history.handed timer.objectKey timer.ttl
        stale :=
          if m.history.current timer.objectKey = some timer.ttl then m.history.stale
          else m.history.stale ++ [timer.objectKey] } }

/-- The section of `GetExpiredObject` that takes timers from a shard: those that are over, up to a limit. -/
def popExpired (i : ShardIndex) (currentTime : Nat) :
    Nat → ExpiredObjectManager → List (Bytes × Nat) × ExpiredObjectManager
  | 0, m => ([], m)
  | limit + 1, m =>
    match (m.shards i).timedObj with
    | [] => ([], m)
    | timer :: rest =>
      if timer.expireTime ≤ currentTime then
        let next := popExpired i currentTime limit (m.popTimer i timer rest)
        ((timer.objectKey, (m.shards i).expireTimeOf timer) :: next.1, next.2)
      else ([], m)

def cleanup (objectKeys : List Bytes) : ExpiredObjectManager :=
  m.modifyShard i fun shard =>
    { shard with readyExpiredObjects := shard.readyExpiredObjects \ objectKeys.toFinset }

def addSucceed (objectKeys : List Bytes) : ExpiredObjectManager :=
  m.modifyShard i fun shard =>
    { shard with failedObjects := objectKeys.foldl (fun failed key => failed.erase key) shard.failedObjects }

def discard (objectKeys : List Bytes) : ExpiredObjectManager :=
  m.modifyShard i fun shard =>
    { shard with
      readyExpiredObjects := shard.readyExpiredObjects \ objectKeys.toFinset
      failedObjects := objectKeys.foldl (fun failed key => failed.erase key) shard.failedObjects }

def retryWaitTime : Nat := 1

def addFailedObject (currentUs : Nat) (m : ExpiredObjectManager) (e : Bytes × Nat) : ExpiredObjectManager :=
  let retryCount := (((m.shards i).failedObjects.lookup e.1).getD {}).retryCount + 1
  let newTtlSecond := if (uint64Max - 1) / retryCount < retryWaitTime then uint64Max else retryWaitTime * retryCount + 1
  let timer : Timer := ⟨m.nextId,calcExpireTime currentUs newTtlSecond,e.1,m.history.handed e.1⟩
  { m.modifyShard i fun shard =>
      { shard.addTimer timer with failedObjects := shard.failedObjects.insert e.1 ⟨retryCount,e.2⟩ } with
    nextId := m.nextId + 1
    history := { m.history with newest := update m.history.newest e.1 (some m.nextId) } }

def addFailed (objects : List (Bytes × Nat)) (currentUs : Nat) : ExpiredObjectManager :=
  objects.foldl (addFailedObject i currentUs) m

end ExpiredObjectManager

inductive ExpiryOp where
  | insertObject (objectKey : Bytes) (version ttlSecond : Nat)
  | reloadObject (objectKey : Bytes) (version ttlSecond : Nat)
  | removeObjectIfExist (objectKey : Bytes)
  | getObjectRemainTimeAndRemove (objectKey : Bytes) (currentUs : Nat)
  | headTime (i : ShardIndex)
  | popExpired (i : ShardIndex) (currentTime limit : Nat)
  | cleanup (i : ShardIndex) (objectKeys : List Bytes)
  | addSucceed (i : ShardIndex) (objectKeys : List Bytes)
  | discard (i : ShardIndex) (objectKeys : List Bytes)
  | addFailed (i : ShardIndex) (objects : List (Bytes × Nat)) (currentUs : Nat)
deriving DecidableEq, Repr

def ExpiryOp.Res : ExpiryOp → Type
  | .insertObject _ _ _ => Status
  | .reloadObject _ _ _ => Unit
  | .removeObjectIfExist _ => Status
  | .getObjectRemainTimeAndRemove _ _ => Except Status Nat
  | .headTime _ => Option Nat
  | .popExpired _ _ _ => List (Bytes × Nat)
  | .cleanup _ _ => Unit
  | .addSucceed _ _ => Unit
  | .discard _ _ => Unit
  | .addFailed _ _ _ => Unit

def ExpiredObjectManager.exec (shardIndex : Bytes → ShardIndex) :
    (o : ExpiryOp) → ExpiredObjectManager → Option (o.Res × ExpiredObjectManager)
  | .insertObject objectKey version ttlSecond, m => some (m.insertObject shardIndex objectKey version ttlSecond)
  | .reloadObject objectKey version ttlSecond, m => some ((), m.insertObjectUnlock shardIndex objectKey version ttlSecond)
  | .removeObjectIfExist objectKey, m => some (m.removeObjectIfExist shardIndex objectKey)
  | .getObjectRemainTimeAndRemove objectKey currentUs, m =>
    some (m.getObjectRemainTimeAndRemove shardIndex objectKey currentUs)
  | .headTime i, m => some (m.headTime i, m)
  | .popExpired i currentTime limit, m => some (popExpired i currentTime limit m)
  | .cleanup i objectKeys, m => some ((), m.cleanup i objectKeys)
  | .addSucceed i objectKeys, m => some ((), m.addSucceed i objectKeys)
  | .discard i objectKeys, m => some ((), m.discard i objectKeys)
  | .addFailed i objects currentUs, m => some ((), m.addFailed i objects currentUs)

abbrev ExpiryAct (α : Type) := Act ExpiryOp ExpiryOp.Res Status Unit α

def returnStatus (status : Status) : ExpiryAct Unit := if status.isOk then .ret () else .fail status

def insertObject (objectKey : Bytes) (version ttlSecond : Nat) (acceptZero : Bool) : ExpiryAct Unit :=
  if !acceptZero && ttlSecond == 0 then .ret ()
  else Act.bind (Act.ask (ExpiryOp.insertObject objectKey version ttlSecond)) returnStatus

def reloadExpireObjects (objects : List (Bytes × Nat × Nat)) : ExpiryAct Unit :=
  forEach (fun o : Bytes × Nat × Nat => ask (ExpiryOp.reloadObject o.1 o.2.1 o.2.2)) objects

def removeObjectIfExist (objectKey : Bytes) : ExpiryAct Unit :=
  Act.bind (Act.ask (ExpiryOp.removeObjectIfExist objectKey)) returnStatus

def getObjectRemainTimeAndRemove (objectKey : Bytes) (currentUs : Nat) : ExpiryAct Nat :=
  Act.bind (Act.ask (ExpiryOp.getObjectRemainTimeAndRemove objectKey currentUs)) Act.ofExcept

/-- The shard whose first timer is over and earliest. -/
def bestShard (currentTime : Nat) : List ShardIndex → Option ShardIndex → Nat → ExpiryAct (Option ShardIndex)
  | [], best, _ => .ret best
  | i :: rest, best, bestTime =>
    Act.bind (Act.ask (ExpiryOp.headTime i)) fun
      | none => bestShard currentTime rest best bestTime
      | some headTime =>
        if headTime ≤ currentTime ∧ headTime < bestTime then bestShard currentTime rest (some i) headTime
        else bestShard currentTime rest best bestTime

def maxDelBatchNum : Nat := 3000

def kChunkSize : Nat := 64

/-- A map gets entries, the later of two for one key. -/
def putAll (map entries : List (Bytes × Nat)) : List (Bytes × Nat) :=
  entries.foldl (fun map e => Keyed.upsert Prod.fst e map) map

def getExpiredObject (currentTime : Nat) : Nat → List (Bytes × Nat) → ExpiryAct (List (Bytes × Nat))
  | 0, expiredObject => .ret expiredObject
  | rounds + 1, expiredObject =>
    if maxDelBatchNum ≤ expiredObject.length then .ret expiredObject
    else
      Act.bind (bestShard currentTime (List.finRange kExpiredShardCount) none uint64Max) fun
        | none => .ret expiredObject
        | some i =>
          Act.bind (Act.ask (ExpiryOp.popExpired i currentTime (min (maxDelBatchNum - expiredObject.length) kChunkSize)))
            fun popped => getExpiredObject currentTime rounds (putAll expiredObject popped)

/-- What the metadata and the workers answer to a deletion: which objects to go on with, which deletions fail,
among them those of objects that were not in the request, and which failed ones to try again. -/
structure DeleteOutcome where
  shouldContinue : Bytes → Bool := fun _ => true
  failedIds : List Bytes := []
  shouldRetry : Bytes → Bool := fun _ => true

section AsyncDelete

variable (shardIndex : Bytes → ShardIndex)

/-- Group entries by shard, so that the mutex of a shard is taken once. -/
def byShard {α : Type} (key : α → Bytes) (entries : List α) : List (ShardIndex × List α) :=
  ((List.finRange kExpiredShardCount).map fun i => (i, entries.filter fun e => shardIndex (key e) = i)).filter
    fun group => !group.2.isEmpty

def cleanupShardsAfterDelete (objectKeys : List Bytes) : ExpiryAct Unit :=
  forEach (fun group : ShardIndex × List Bytes => ask (ExpiryOp.cleanup group.1 group.2))
    (byShard shardIndex id objectKeys)

def addSucceedObject (objectKeys : List Bytes) : ExpiryAct Unit :=
  forEach (fun group : ShardIndex × List Bytes => ask (ExpiryOp.addSucceed group.1 group.2))
    (byShard shardIndex id objectKeys)

def discardAsyncDeleteObjects (objectKeys : List Bytes) : ExpiryAct Unit :=
  forEach (fun group : ShardIndex × List Bytes => ask (ExpiryOp.discard group.1 group.2))
    (byShard shardIndex id objectKeys)

def addFailedObject (objects : List (Bytes × Nat)) (currentUs : Nat) : ExpiryAct Unit :=
  forEach (fun group : ShardIndex × List (Bytes × Nat) => ask (ExpiryOp.addFailed group.1 group.2 currentUs))
    (byShard shardIndex Prod.fst objects)

variable (request : List (Bytes × Nat))

/-- `GetObjectVersionInRequest`, which is negative for what is not in the request or too large. -/
def getObjectVersionInRequest (objectKey : Bytes) : Option Nat :=
  (Keyed.lookup Prod.fst objectKey request).bind fun e => if e.2 < 2 ^ 63 then some e.2 else none

def retryObjects (outcome : DeleteOutcome) : List (Bytes × Nat) :=
  outcome.failedIds.dedup.filterMap fun key =>
    (getObjectVersionInRequest request key).bind fun expireTime =>
      if outcome.shouldRetry key then some (key, expireTime) else none

def discardedFailedObjects (outcome : DeleteOutcome) : List Bytes :=
  outcome.failedIds.dedup.filter fun key =>
    (getObjectVersionInRequest request key).isNone || !outcome.shouldRetry key

def succeedIds (outcome : DeleteOutcome) : List Bytes :=
  (request.map Prod.fst).filter fun key =>
    key ∉ outcome.failedIds ∧ (getObjectVersionInRequest request key).isSome

def asyncDelete (expiredObjMap : List (Bytes × Nat)) (outcome : DeleteOutcome) (currentUs : Nat) : ExpiryAct Unit :=
  let discardedObjects := (expiredObjMap.map Prod.fst).filter fun key => !outcome.shouldContinue key
  let request := expiredObjMap.filter fun e => outcome.shouldContinue e.1
  Act.bind (discardAsyncDeleteObjects shardIndex discardedObjects) fun _ =>
    if request.isEmpty then .ret ()
    else
      Act.bind (cleanupShardsAfterDelete shardIndex (request.map Prod.fst)) fun _ =>
        Act.bind (addSucceedObject shardIndex (succeedIds request outcome)) fun _ =>
          Act.bind (discardAsyncDeleteObjects shardIndex (discardedFailedObjects request outcome)) fun _ =>
            addFailedObject shardIndex (retryObjects request outcome) currentUs

/-- One turn of `Run`: what has expired is handed out and deleted. -/
def scan (currentTime rounds : Nat) (outcome : DeleteOutcome) (currentUs : Nat) : ExpiryAct Unit :=
  Act.bind (getExpiredObject currentTime rounds []) fun expiredObjects =>
    if expiredObjects.isEmpty then .ret () else asyncDelete shardIndex expiredObjects outcome currentUs

end AsyncDelete

inductive ExpiryCall where
  | insertObject (objectKey : Bytes) (version ttlSecond : Nat) (acceptZero : Bool)
  | reloadExpireObjects (objects : List (Bytes × Nat × Nat))
  | removeObjectIfExist (objectKey : Bytes)
  | getObjectRemainTimeAndRemove (objectKey : Bytes) (currentUs : Nat)
  | scan (currentTime rounds : Nat) (outcome : DeleteOutcome) (currentUs : Nat)

def ExpiryCall.act (shardIndex : Bytes → ShardIndex) : ExpiryCall → ExpiryAct Nat
  | .insertObject objectKey version ttlSecond acceptZero =>
    Act.bind (Master.insertObject objectKey version ttlSecond acceptZero) fun _ => .ret 0
  | .reloadExpireObjects objects => Act.bind (Master.reloadExpireObjects objects) fun _ => .ret 0
  | .removeObjectIfExist objectKey => Act.bind (Master.removeObjectIfExist objectKey) fun _ => .ret 0
  | .getObjectRemainTimeAndRemove objectKey currentUs => Master.getObjectRemainTimeAndRemove objectKey currentUs
  | .scan currentTime rounds outcome currentUs =>
    Act.bind (Master.scan shardIndex currentTime rounds outcome currentUs) fun _ => .ret 0

abbrev ExpiryProg := Prog ExpiryOp ExpiryOp.Res (Except Status Nat × Unit)

def ExpiryCall.prog (shardIndex : Bytes → ShardIndex) (c : ExpiryCall) : ExpiryProg := c.act shardIndex ()

abbrev ExpiryThreads (ν : Type) := Threads ExpiryOp ExpiryOp.Res (Except Status Nat × Unit) ExpiredObjectManager ν

end Datasystem.Master
