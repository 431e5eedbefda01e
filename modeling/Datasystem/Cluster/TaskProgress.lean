import Datasystem.Cluster.ControllerRuns
import Datasystem.Cluster.TaskRepository

/-!
# Progress of the active batch

A controller derives the tasks of the active batch once for each version of the topology, writes them in
bounded slices, and then finds out in bounded sweeps which of them are finished. Each reconciliation is one
action: the controller shares nothing with others but the store, what the store answers is an input, and the
commit at the end succeeds only if the topology is still the one read at the beginning.
-/

namespace Datasystem.Cluster

structure ProgressOptions extends TopologyControllerOptions where
  maxDerivedOperationsPerTick : Nat
  maxProgressReadsPerTick : Nat
  ordinaryBatchWindow : Nat
  failureBatchWindow : Nat
  materializeRestartFacts : Bool

structure BatchDeadlineState where
  batch : ActiveBatch
  deadline : Nat
deriving DecidableEq, Repr

/-- A task that a controller has read, for a version of the topology and its batch. -/
structure TaskRead where
  topologyVersion : Nat
  batch : ActiveBatch
  observed : TopologyTask
deriving DecidableEq, Repr

structure TopologyController where
  expectedDerivedState : ExpectedDerivedState := ⟨[],[],[]⟩
  derivedTopologyVersion : Nat := 0
  derivedMembershipDigest : Bytes := []
  admissionCursor : Nat := 0
  derivedWorkPending : Bool := false
  progressReadCursor : Nat := 0
  progressSweepRemaining : Nat := 0
  progressTopologyVersion : Nat := 0
  progressBatchEpoch : Nat := 0
  progressWorkPending : Bool := false
  finishedTaskIds : Finset Bytes := ∅
  batchDeadline : Option BatchDeadlineState := none
  /-- all reads so far, which the source does not keep -/
  taskReads : List TaskRead := []

/-- What the clocks and the store contribute to a reconciliation. -/
structure TickInput where
  /-- the number of derived operations after which the time of a slice is over -/
  derivedBudget : Nat
  /-- the status of each write of a derived task or notification -/
  derivedWrite : Nat → Status
  /-- the number of tasks after which the time of a sweep is over -/
  progressBudget : Nat
  /-- the answer of the store to each read of a task -/
  taskValue : Nat → Except Status Bytes
  now : Nat
  /-- what the commit reports when it has taken effect -/
  commitStatus : Status

inductive TickCommit where
  | change (next : TopologyState)
  | batchFinal (batch : ActiveBatch) (next : TopologyState)
deriving DecidableEq, Repr

def TickCommit.next : TickCommit → TopologyState
  | .change next => next
  | .batchFinal _ next => next

structure Tick (α : Type) where
  controller : TopologyController
  result : Except Status α

def MemberLifecycleState.number : MemberLifecycleState → Nat
  | .unknown => 0
  | .starting => 1
  | .restarting => 2
  | .recovering => 3
  | .ready => 4
  | .exiting => 5
  | .downgradeRestarting => 6
  | .failed => 7

/-- The records of members, where both lists are in the order of the addresses. -/
def collectTopologyMemberships : List MembershipRecord → List Member → List MembershipRecord
  | [], _ => []
  | record :: memberships, members =>
    let rest := members.dropWhile fun m => m.identity.address < record.address
    if rest.head?.any fun m => m.identity.address = record.address then
      record :: collectTopologyMemberships memberships rest
    else collectTopologyMemberships memberships rest

def membershipSeed (record : MembershipRecord) : Bytes :=
  record.address ++ [0] ++ Bytes.decimal record.state.number ++ [0] ++
    (if record.timestamp < 0 then [45] else []) ++ Bytes.decimal record.timestamp.natAbs ++ [0] ++
    record.hostId ++ [0]

/-- The seed itself stands in for a digest that cannot be computed. -/
def membershipDigest (hasher : Hasher) (memberships : List MembershipRecord) : Bytes :=
  let seed := memberships.flatMap membershipSeed
  (hasher.getSha256Hex seed).getD seed

def checkRestartMembership (record : MembershipRecord) : Except Status Unit := do
  checkFailReturnStatus (!record.address.isEmpty) .invalid "restart membership address is empty"
  if record.state = .restarting then
    checkFailReturnStatus (0 < record.timestamp) .invalid "restart membership timestamp is invalid"

/-- `RebuildExpected` with the members that restart facts go to. -/
def rebuildExpectedFor (options : ProgressOptions) (latest : TopologySnapshot)
    (memberships : List MembershipRecord) : Except Status ExpectedDerivedState := do
  let built ← rebuildExpected options.hasher options.tokensPerMember latest
  if !options.materializeRestartFacts then return built
  else do
    memberships.forM checkRestartMembership
    let recipients := built.notifyRecipients ++ memberships.map MembershipRecord.address
    return { built with notifyRecipients := (recipients.insertionSort (· ≤ ·)).dedup }

namespace TopologyController

variable (options : ProgressOptions) (parse : TaskParser)

def generationMemberships (latest : TopologySnapshot) (memberships : List MembershipRecord) :
    List MembershipRecord × Bytes :=
  if !options.materializeRestartFacts then (memberships, [])
  else
    let selected := if latest.state.activeBatch.isSome then
      collectTopologyMemberships memberships latest.state.members else memberships
    (selected, membershipDigest options.hasher selected)

variable (c : TopologyController) (latest : TopologySnapshot)

def prepareDerivedGeneration (memberships : List MembershipRecord) : Except Status TopologyController :=
  let (selected, digest) := generationMemberships options latest memberships
  if c.derivedTopologyVersion = latest.state.version ∧ c.derivedMembershipDigest = digest then
    return c
  else do
    let candidate ← rebuildExpectedFor options latest selected
    return { c with
      expectedDerivedState := candidate
      derivedTopologyVersion := latest.state.version
      derivedMembershipDigest := digest
      admissionCursor := 0
      derivedWorkPending := true }

/-- The loop of a slice over the remaining operations: the cursor where it stops, and the status. -/
def derivedLoop (input : TickInput) : Nat → Nat → Nat → Nat × Status
  | 0, cursor, _ => (cursor, .success)
  | remaining + 1, cursor, operations =>
    if operations < options.maxDerivedOperationsPerTick ∧ operations < input.derivedBudget then
      if (input.derivedWrite operations).isOk then
        derivedLoop input remaining (cursor + 1) (operations + 1)
      else (cursor, input.derivedWrite operations)
    else (cursor, .success)

def reconcileDerivedSlice (input : TickInput) : Tick Unit :=
  let expected := c.expectedDerivedState
  let total := expected.tasks.length + expected.notifyRecipients.length
  if total = 0 then ⟨{ c with admissionCursor := 0, derivedWorkPending := false },.ok ()⟩
  else
    let (cursor, status) := derivedLoop options input (total - c.admissionCursor) c.admissionCursor 0
    if status.isOk then
      ⟨{ c with admissionCursor := cursor, derivedWorkPending := decide (cursor < total) },.ok ()⟩
    else ⟨{ c with admissionCursor := cursor },.error status⟩

structure Sweep where
  visited : Nat
  finishedTaskIds : Finset Bytes
  observed : List TopologyTask
  status : Status

def sweepTasks (batch : ActiveBatch) (input : TickInput) : List TopologyTask → Nat → Nat → Finset Bytes → Sweep
  | [], visited, _, finished => ⟨visited,finished,[],.success⟩
  | task :: tasks, visited, reads, finished =>
    if reads < options.maxProgressReadsPerTick ∧ visited < input.progressBudget then
      if task.taskId ∈ finished then sweepTasks batch input tasks (visited + 1) reads finished
      else
        match readTask parse task.taskKind task.taskId batch.type batch.epoch
            (input.taskValue reads) with
        | .error rc =>
          if rc.code ≠ .notFound then ⟨visited + 1,finished,[],rc⟩
          else sweepTasks batch input tasks (visited + 1) (reads + 1) finished
        | .ok observed =>
          let sweep := sweepTasks batch input tasks (visited + 1) (reads + 1)
            (if taskFinished observed then insert task.taskId finished else finished)
          { sweep with observed := observed :: sweep.observed }
    else ⟨visited,finished,[],.success⟩

variable (batch : ActiveBatch)

def resetProgress : TopologyController :=
  if c.progressBatchEpoch ≠ batch.epoch ∨ c.progressTopologyVersion ≠ c.derivedTopologyVersion then
    { c with
      progressTopologyVersion := c.derivedTopologyVersion
      progressBatchEpoch := batch.epoch
      progressReadCursor := 0
      progressSweepRemaining := c.expectedDerivedState.tasks.length
      progressWorkPending := !c.expectedDerivedState.tasks.isEmpty
      finishedTaskIds := ∅ }
  else c

def sweepOnce (input : TickInput) : Tick Unit :=
  let tasks := c.expectedDerivedState.tasks
  let total := tasks.length
  if total = 0 then
    ⟨{ c with progressReadCursor := 0, progressSweepRemaining := 0, progressWorkPending := false },
      .ok ()⟩
  else
    let remaining := if c.progressSweepRemaining = 0 then total
      else min c.progressSweepRemaining total
    let start := c.progressReadCursor % total
    let sweep := sweepTasks options parse batch input ((tasks.rotate start).take remaining) 0 0
      c.finishedTaskIds
    let swept := { c with
      progressSweepRemaining := remaining
      finishedTaskIds := sweep.finishedTaskIds
      taskReads := c.taskReads ++ sweep.observed.map (TaskRead.mk c.progressTopologyVersion batch) }
    if sweep.status.isOk then
      ⟨{ swept with
        progressReadCursor := (start + sweep.visited) % total
        progressSweepRemaining := remaining - sweep.visited
        progressWorkPending := decide (0 < remaining - sweep.visited) },.ok ()⟩
    else ⟨swept,.error sweep.status⟩

def refreshTaskProgressCache (input : TickInput) : Tick Unit :=
  (c.resetProgress batch).sweepOnce options parse batch input

/-- The deadline of the batch, which a failure batch takes over from the one before. -/
def updateDeadline (now : Nat) : BatchDeadlineState :=
  match c.batchDeadline with
  | some state =>
    if state.batch = batch ∨ (state.batch.type = .failure ∧ batch.type = .failure) then state
    else ⟨batch,now + window⟩
  | none => ⟨batch,now + window⟩
where
  window : Nat :=
    if batch.type = .failure then options.failureBatchWindow else options.ordinaryBatchWindow

def commitExpiredBatch : Except Status (Option TickCommit) :=
  match batch.type with
  | .scaleOut => do
    let next ← commitScaleOutExhaustion options.toTopologyControllerOptions latest
      (collectFailedJoining latest c.expectedDerivedState fun taskId => taskId ∈ c.finishedTaskIds)
    return some (.change next)
  | .scaleIn => return none
  | .failure => do
    let next ← commitBatchFinal latest batch.type
    return some (.batchFinal batch next)

def decideBatch (now : Nat) : Tick (Option TickCommit) :=
  let deadline := c.updateDeadline options batch now
  let c := { c with batchDeadline := some deadline }
  if c.finishedTaskIds.card = c.expectedDerivedState.tasks.length then
    ⟨c,(commitBatchFinal latest batch.type).map fun next => some (.batchFinal batch next)⟩
  else if c.progressWorkPending || now < deadline.deadline then ⟨c,.ok none⟩
  else ⟨c,c.commitExpiredBatch options latest batch⟩

def tryFinalizeActiveBatch (input : TickInput) : Tick (Option TickCommit) :=
  match latest.state.activeBatch with
  | none =>
    ⟨{ c with
      batchDeadline := none
      progressReadCursor := 0
      progressSweepRemaining := 0
      progressTopologyVersion := 0
      progressBatchEpoch := 0
      progressWorkPending := false
      finishedTaskIds := ∅ },.ok none⟩
  | some batch =>
    if c.derivedTopologyVersion ≠ latest.state.version then
      ⟨c,.error ⟨.tryAgain,"derived generation does not match active topology"⟩⟩
    else if c.derivedWorkPending then ⟨c,.ok none⟩
    else
      let refreshed := c.refreshTaskProgressCache options parse batch input
      match refreshed.result with
      | .error status => ⟨refreshed.controller,.error status⟩
      | .ok _ => refreshed.controller.decideBatch options latest batch input.now

/-- The reconciliation after the failures: derived state, the end of the batch, the next batch. -/
def reconcileBatch (obs : Observation) (input : TickInput) : Tick (Option TickCommit) :=
  match c.prepareDerivedGeneration options latest obs.memberships with
  | .error status => ⟨c,.error status⟩
  | .ok prepared =>
    let derived := prepared.reconcileDerivedSlice options input
    match derived.result with
    | .error status => ⟨derived.controller,.error status⟩
    | .ok _ =>
      let final := derived.controller.tryFinalizeActiveBatch options parse latest input
      match final.result with
      | .ok none => ⟨final.controller,
          (tryStartNextBatch options.toTopologyControllerOptions latest obs).map
            (Option.map TickCommit.change)⟩
      | _ => final

def recoverFromLatestTopology (obs : Observation) (input : TickInput) : Tick (Option TickCommit) :=
  match tryConfirmFailures options.toTopologyControllerOptions latest obs with
  | .error status => ⟨c,.error status⟩
  | .ok (some next) => ⟨c,.ok (some (.change next))⟩
  | .ok none => c.reconcileBatch options parse latest obs input

def recordReconcileResult (status : Status) : TopologyController :=
  if status.isOk then c else { c with derivedWorkPending := false, progressWorkPending := false }

end TopologyController

/-- A batch that a controller has ended, with the topology it ended. -/
structure BatchFinal where
  controller : Nat
  latest : TopologySnapshot
  batch : ActiveBatch

/-- The committed topologies, the controllers, and the batches they have ended. -/
structure Fleet where
  history : TopologyHistory
  controllers : Nat → TopologyController
  finals : List BatchFinal

inductive FleetAction where
  | ensureTopologyAuthority
  /-- a controller that has read the topology at an index of the history -/
  | reconcile (controller read : Nat) (obs : Observation) (input : TickInput)

def Fleet.setController (fleet : Fleet) (i : Nat) (c : TopologyController) : Fleet :=
  { fleet with controllers := Function.update fleet.controllers i c }

def casConflict : Status := ⟨.tryAgain,"topology CAS conflict"⟩

def Fleet.finishTick (fleet : Fleet) (i : Nat) (latest : TopologySnapshot)
    (tick : Tick (Option TickCommit)) (input : TickInput) : Fleet :=
  match tick.result with
  | .error status => fleet.setController i (tick.controller.recordReconcileResult status)
  | .ok none => fleet.setController i tick.controller
  | .ok (some commit) =>
    match compareAndSwapTopology fleet.history latest.state.version commit.next with
    | none => fleet.setController i (tick.controller.recordReconcileResult casConflict)
    | some history =>
      { fleet.setController i (tick.controller.recordReconcileResult input.commitStatus) with
        history := history
        finals := match commit with
          | .change _ => fleet.finals
          | .batchFinal batch _ => ⟨i,latest,batch⟩ :: fleet.finals }

def fleetStep (options : ProgressOptions) (parse : TaskParser) (fleet : Fleet) : FleetAction → Option Fleet
  | .ensureTopologyAuthority =>
    (compareAndSwapTopology fleet.history 0 ⟨false,1,[],none⟩).map fun history =>
      { fleet with history := history }
  | .reconcile i read obs input =>
    (fleet.history[read]?).map fun latest =>
      fleet.finishTick i latest
        ((fleet.controllers i).recoverFromLatestTopology options parse latest obs input) input

/-- Runs of any number of controllers, each of which starts with nothing remembered. -/
def fleetMachine (options : ProgressOptions) (parse : TaskParser) : Machine Fleet FleetAction where
  init := ⟨[],fun _ => {},[]⟩
  step := fleetStep options parse

end Datasystem.Cluster
