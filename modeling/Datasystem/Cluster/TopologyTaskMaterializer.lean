import Datasystem.Cluster.TopologyPlanBuilder

/-!
# Tasks of the active batch

Every controller derives them from the latest snapshot: the plan of the batch is computed again, its owner
changes are checked against the members, and each change is cut into tasks with a bounded number of ranges.
-/

namespace Datasystem.Cluster

open Keyed

def idHashChars : Nat := 32

def typeByte : TopologyChangeType → UInt8
  | .scaleOut => 0
  | .scaleIn => 1
  | .failure => 2

def appendU64 (value : Nat) : Bytes := Bytes.bigEndian 8 value

def appendU32 (value : UInt32) : Bytes := Bytes.bigEndian 4 value.toNat

def appendString (value : Bytes) : Bytes := appendU64 value.length ++ value

def rangeLe (a b : TokenRange) : Prop := a.first < b.first ∨ (a.first = b.first ∧ a.last ≤ b.last)

instance : DecidableRel rangeLe := fun a b => by unfold rangeLe; infer_instance

def sortRanges (ranges : List TokenRange) : List TokenRange := ranges.insertionSort rangeLe

def appendRanges (ranges : List TokenRange) : Bytes :=
  appendU64 ranges.length ++ (sortRanges ranges).flatMap fun r => appendU32 r.first ++ appendU32 r.last

def digestPrefix (hasher : Hasher) (seed : Bytes) : Bytes := ((hasher.getSha256Hex seed).getD []).take idHashChars

/-- `m-e<epoch>-<digest>` or `d-e<epoch>-<digest>` -/
def buildTaskId (hasher : Hasher) : TopologyTask → Bytes
  | .migrate task =>
    let seed := [0,typeByte task.type] ++ appendU64 task.epoch ++ appendString task.executorAddress ++
      appendString task.targetAddress ++ appendRanges (TopologyTask.migrate task).ranges
    [109,45,101] ++ Bytes.decimal task.epoch ++ [45] ++ digestPrefix hasher seed
  | .deleteMember task =>
    let seed := [1,typeByte .failure] ++ appendU64 task.epoch ++ appendString task.executorAddress ++
      appendString task.failedAddress ++ appendRanges (TopologyTask.deleteMember task).ranges
    [100,45,101] ++ Bytes.decimal task.epoch ++ [45] ++ digestPrefix hasher seed

structure TopologyTaskNotify where
  address : Bytes
  activeBatch : ActiveBatch
  taskIds : List Bytes
deriving DecidableEq, Repr

structure ExpectedDerivedState where
  tasks : List TopologyTask
  notifiesByAddress : List TopologyTaskNotify
  notifyRecipients : List Bytes
deriving DecidableEq, Repr

def matchesSnapshot (latest : TopologySnapshot) (next : TopologyState) : Bool := latest.state = next

def validateRanges (previous : Option TokenRange) : List TokenRange → Except Status Unit
  | [] => .ok ()
  | r :: ranges => do
    checkFailReturnStatus (r.first ≤ r.last) .invalid "invalid owner-change range"
    checkFailReturnStatus (previous.all fun p => p.last < r.first) .invalid
      "overlapping owner-change ranges"
    validateRanges (some r) ranges

def validateOwnerChange (latest : TopologySnapshot) (type : TopologyChangeType)
    (change : TopologyOwnerChange) : Except Status Unit :=
  match change.source with
  | none => .error ⟨.invalid,"owner change lacks a source or ranges"⟩
  | some changeSource => do
    checkFailReturnStatus (!change.ranges.isEmpty) .invalid "owner change lacks a source or ranges"
    let source ← latest.findMemberByAddress changeSource.address
    let target ← latest.findMemberByAddress change.target.address
    checkFailReturnStatus (source.identity = changeSource && target.identity = change.target) .invalid
      "owner change member generation is stale"
    match type with
    | .scaleOut =>
      checkFailReturnStatus (isCommittedMemberState source.state && target.state = .joining) .invalid
        "ScaleOut target is not joining"
    | .failure => do
      checkFailReturnStatus (source.state = .failed) .invalid "Failure owner change source is not failed"
      checkFailReturnStatus (target.state = .active) .invalid "Failure owner change target is not active"
    | .scaleIn =>
      checkFailReturnStatus (source.state = .leaving &&
        isAdmittedScaleInMigrationTargetState target.state) .invalid
        "ScaleIn owner change requires a leaving source and an admitted target"
    validateRanges none (sortRanges change.ranges)

/-- The pieces of a list of at most `size` elements each. -/
def chunks {α : Type} (size : Nat) (l : List α) : List (List α) :=
  (List.range ((l.length + size - 1) / size)).map fun i => (l.drop (i * size)).take size

def canonicalizeRanges (ranges : List TopologyTaskRange) : List TopologyTaskRange :=
  ranges.insertionSort fun a b => rangeLe a.range b.range

/-- The task for some ranges of a change. A migration runs on the source, a recovery on the
target. -/
def makeTask (type : TopologyChangeType) (epoch : Nat) (source target : Bytes)
    (ranges : List TokenRange) : TopologyTask :=
  match type with
  | .failure => .deleteMember ⟨[],epoch,target,source,
      canonicalizeRanges (ranges.map fun r => ⟨target,r,false⟩)⟩
  | _ => .migrate ⟨[],type,epoch,source,target,
      canonicalizeRanges (ranges.map fun r => ⟨source,r,false⟩)⟩

def appendTaskChunks (type : TopologyChangeType) (epoch : Nat) (change : TopologyOwnerChange) : List TopologyTask :=
  match change.source with
  | none => []
  | some source => (chunks maxTopologyTaskRanges (sortRanges change.ranges)).map
      (makeTask type epoch source.address change.target.address)

def addNotify (batch : ActiveBatch) (notifies : List TopologyTaskNotify) (task : TopologyTask) :
    List TopologyTaskNotify :=
  let taskIds := ((lookup TopologyTaskNotify.address task.executorAddress notifies).map
    TopologyTaskNotify.taskIds).getD []
  upsert TopologyTaskNotify.address ⟨task.executorAddress,batch,taskIds ++ [task.taskId]⟩ notifies

def assignTaskIds (hasher : Hasher) (tasks : List TopologyTask) : Except Status (List TopologyTask) :=
  tasks.mapM fun task => do
    let taskId := buildTaskId hasher task
    checkFailReturnStatus (idHashChars < taskId.length) .runtimeError "build task digest failed"
    return task.withId taskId

/-- The tasks of checked changes, with the notifications of their executors. -/
def expectedFromChanges (hasher : Hasher) (batch : ActiveBatch) (changes : List TopologyOwnerChange) :
    Except Status ExpectedDerivedState := do
  let tasks ← assignTaskIds hasher (changes.flatMap (appendTaskChunks batch.type batch.epoch))
  let tasks := tasks.insertionSort fun a b => a.taskId ≤ b.taskId
  let notifies := tasks.foldl (addNotify batch) []
  return ⟨tasks,notifies,notifies.map TopologyTaskNotify.address⟩

def buildExpected (hasher : Hasher) (latest : TopologySnapshot) (plan : TopologyPlan) :
    Except Status ExpectedDerivedState :=
  match latest.state.activeBatch with
  | none => .error ⟨.invalid,"placement plan does not match latest active topology"⟩
  | some batch => do
    checkFailReturnStatus (matchesSnapshot latest plan.next) .invalid
      "placement plan does not match latest active topology"
    plan.ownerChanges.forM (validateOwnerChange latest batch.type)
    expectedFromChanges hasher batch plan.ownerChanges

def rebuildPlan (tokensPerMember : Nat) (latest : TopologySnapshot) : Except Status TopologyPlan :=
  match latest.state.activeBatch with
  | none => .error ⟨.invalid,"derived state requires an active batch"⟩
  | some batch => do
    let selected := membersInState latest.state (participantState batch.type)
    checkFailReturnStatus (!selected.isEmpty) .invalid "active batch has no selected members"
    match batch.type with
    | .scaleOut =>
      let plan ← planScaleOut latest.state selected tokensPerMember
      return { plan with next := latest.state }
    | .scaleIn =>
      let plan ← planScaleIn latest.state selected
      return { plan with next := latest.state }
    | .failure =>
      if !(latest.state.members.any fun m => m.state = .active) then return ⟨latest.state,[]⟩
      else
        let current := { latest.state with members := moveMembers .failed .active latest.state.members }
        let plan ← planFailure current selected
        return { plan with next := latest.state }

def rebuildExpected (hasher : Hasher) (tokensPerMember : Nat) (latest : TopologySnapshot) :
    Except Status ExpectedDerivedState :=
  match latest.state.activeBatch with
  | none => .ok ⟨[],[],[]⟩
  | some _ => do
    let plan ← rebuildPlan tokensPerMember latest
    buildExpected hasher latest plan

end Datasystem.Cluster
