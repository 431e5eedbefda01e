import Datasystem.Cluster.TopologyTaskMaterializer
import Datasystem.Lib.Machine

/-!
# The topology controller

A commit is a compare-and-swap on the version of the topology, so a controller that has read an old topology
commits nothing. Clocks, probes and the progress of tasks are inputs of a reconciliation. The inputs leave
open more than the source does: which absent members count as failed, whether new members are admitted and
when a batch may start is decided there by timers and votes.
-/

namespace Datasystem.Cluster

open TopologySnapshot MemberIdentity

inductive MemberLifecycleState where
  | unknown
  | starting
  | restarting
  | recovering
  | ready
  | exiting
  | downgradeRestarting
  | failed
deriving DecidableEq, Repr

structure MembershipRecord where
  address : Bytes
  state : MemberLifecycleState
  timestamp : Int
  hostId : Bytes
deriving DecidableEq, Repr

structure TopologyControllerOptions where
  hasher : Hasher
  tokensPerMember : Nat
  maxMembersPerBatch : Nat

structure Observation where
  memberships : List MembershipRecord
  /-- the memberships at a second read, before all members are replaced -/
  exactMemberships : List MembershipRecord
  /-- the record of a member has been absent for the dead timeout -/
  timedOut : Bytes → Bool
  /-- no probe and no witness has reached an absent member -/
  unreachable : MemberIdentity → Bool
  /-- members that the probes of the failure summary have not reached -/
  probeConfirmed : List MemberIdentity
  /-- addresses whose records are ignored up to a timestamp -/
  quarantined : List (Bytes × Int)
  /-- none of the sampled committed members could be reached -/
  samplesUnreachable : Bool
  /-- the collection window admits new members -/
  admissionOpen : Bool
  /-- the collection window of the next batch is over -/
  windowOver : Bool
  /-- all derived tasks and notifications have been written -/
  derivedDone : Bool
  finished : Bytes → Bool
  /-- the active batch is past its deadline -/
  expired : Bool

private def separator : UInt8 := 58

private def decimalInt (n : Int) : Bytes :=
  if n < 0 then 45 :: Bytes.decimal n.natAbs else Bytes.decimal n.natAbs

/-- The source tells the three calls of the library apart in the message. -/
def buildMemberId (hasher : Hasher) (membership : MembershipRecord) : Except Status Bytes :=
  let seed := Bytes.decimal membership.address.length ++ [separator] ++ membership.address ++
    [separator] ++ decimalInt membership.timestamp ++ [separator] ++ membership.hostId
  match hasher.hashSHA256 seed with
  | none => .error ⟨.runtimeError,"SHA256_Init failed."⟩
  | some digest => do
    checkFailReturnStatus (uuidSize ≤ digest.length) .runtimeError
      "membership generation digest is too short"
    return digest.take uuidSize

def isQuarantined (quarantined : List (Bytes × Int)) (record : MembershipRecord) : Bool :=
  (quarantined.lookup record.address).any fun timestamp => record.timestamp ≤ timestamp

/-- The addresses of exiting members and the records of ready ones. -/
def collectMembershipFacts (quarantined : List (Bytes × Int)) (memberships : List MembershipRecord) :
    List Bytes × List MembershipRecord :=
  let exiting := memberships.filter fun r => r.state = .exiting
  let ready := memberships.filter fun r =>
    (r.state = .ready || r.state = .restarting) && !isQuarantined quarantined r
  (exiting.map MembershipRecord.address, ready.insertionSort fun a b => a.address ≤ b.address)

/-- Mark active members that exit, up to a limit; also the number of members changed. -/
def applyExitingMembershipFacts (limit : Nat) (exiting : List Bytes) : Nat → List Member → List Member × Nat
  | changed, [] => ([], changed)
  | changed, m :: members =>
    if m.state = .active && m.identity.address ∈ exiting && changed < limit then
      let (rest, count) := applyExitingMembershipFacts limit exiting (changed + 1) members
      ({ m with state := .preLeaving } :: rest, count)
    else
      let (rest, count) := applyExitingMembershipFacts limit exiting changed members
      (m :: rest, count)

/-- Add unknown ready members, up to a limit; also the members added and the number of members
changed. -/
def applyReadyMembershipFacts (hasher : Hasher) (limit : Nat) : Nat → List Bytes →
    List MembershipRecord → Except Status (List Member × Nat)
  | changed, _, [] => .ok ([], changed)
  | changed, known, record :: ready =>
    if record.address ∈ known || limit ≤ changed then
      applyReadyMembershipFacts hasher limit changed known ready
    else do
      validateAddress record.address
      let memberId ← buildMemberId hasher record
      let (rest, count) ← applyReadyMembershipFacts hasher limit (changed + 1)
        (record.address :: known) ready
      return (⟨⟨memberId,record.address⟩,.initial,[]⟩ :: rest, count)

structure FailureClassification where
  confirmedFailure : List MemberIdentity
  removeInitial : List MemberIdentity
  removeJoining : List MemberIdentity

def observe (timedOut : Bytes → Bool) (latest : TopologySnapshot)
    (memberships : List MembershipRecord) : Except Status FailureClassification := do
  let present := memberships.map MembershipRecord.address
  checkFailReturnStatus ([] ∉ present && decide present.Nodup) .invalid
    "membership observation contains an invalid or duplicate address"
  let absent := latest.state.members.filter fun m => m.identity.address ∉ present
  let confirmed := (absent.filter fun m => isCommittedMemberState m.state &&
    timedOut m.identity.address).map Member.identity
  return {
    confirmedFailure := if confirmed.isEmpty then []
      else sortIdentities (confirmed ++ membersInState latest.state .failed)
    removeInitial := (absent.filter fun m => m.state = .initial).map Member.identity
    removeJoining := (absent.filter fun m => m.state = .joining).map Member.identity }

variable (options : TopologyControllerOptions) (latest : TopologySnapshot)

/-- A member that the failure summary may report: an active one, or one that joins in a scale-out. -/
def isSummaryCandidate (state : MemberState) (identity : MemberIdentity) : Bool :=
  (latest.state.members.find? fun m => m.identity.address = identity.address).any fun m =>
    m.state = state && (state = .active ||
      (state = .joining && latest.state.activeBatch.any fun b => b.type = .scaleOut))

variable (obs : Observation) (classification : FailureClassification)

/-- Drop the members that a probe or a witness has reached, and add those that the failure summary
reports. -/
def confirmWithProbes : FailureClassification :=
  let confirmed := classification.confirmedFailure.filter obs.unreachable
  { classification with
    confirmedFailure := confirmed ++ obs.probeConfirmed.filter fun i =>
      isSummaryCandidate latest .active i && i.address ∉ confirmed.map address
    removeJoining := classification.removeJoining ++ obs.probeConfirmed.filter fun i =>
      isSummaryCandidate latest .joining i &&
        i.address ∉ classification.removeJoining.map address }

def eraseMembers (identities : List MemberIdentity) (state : TopologyState) : TopologyState :=
  removeMembers (identities.map address) state

/-- The failed members, and new ones as long as the batch has room. -/
def addConfirmed (limit : Nat) (confirmed : List MemberIdentity) (identity : MemberIdentity) : List MemberIdentity :=
  if limit ≤ confirmed.length || identity.address ∈ confirmed.map address then confirmed
  else confirmed ++ [identity]

def commitConfirmedFailures : Except Status (Option TopologyState) :=
  let retained := membersInState latest.state .failed
  let confirmed := classification.confirmedFailure.foldl (addConfirmed options.maxMembersPerBatch)
    retained
  if confirmed.length = retained.length then return none
  else do
    let plan ← buildFailureStartOrReplan latest.state confirmed
    return some (eraseMembers classification.removeJoining
      (eraseMembers classification.removeInitial plan.next))

def commitUncommittedCleanup : Except Status (Option TopologyState) :=
  let withoutInitial := if classification.removeInitial.isEmpty then none
    else some (eraseMembers classification.removeInitial
      { latest.state with version := latest.state.version + 1 })
  if classification.removeJoining.isEmpty then return withoutInitial
  else match latest.state.activeBatch.map ActiveBatch.type with
    | some .scaleOut => do
      let plan ← buildScaleOutReplan options.tokensPerMember latest.state classification.removeJoining
      return some (eraseMembers classification.removeInitial plan.next)
    | some .failure => do
      let plan ← buildFailureStartOrReplan latest.state (membersInState latest.state .failed)
      return some (eraseMembers classification.removeInitial
        (eraseMembers classification.removeJoining plan.next))
    | _ => return withoutInitial

/-- New members wait while a batch of an initialized cluster is active. -/
def shouldApplyReadyScaleOutAdmission (admissionOpen : Bool) : Bool :=
  if latest.state.activeBatch.isSome then !latest.state.clusterHasInit else admissionOpen

def admitReadyMembers (changed : Nat) (ready : List MembershipRecord) : Except Status (List Member × Nat) :=
  if shouldApplyReadyScaleOutAdmission latest obs.admissionOpen then
    applyReadyMembershipFacts options.hasher options.maxMembersPerBatch changed
      (latest.state.members.map fun m => m.identity.address) ready
  else .ok ([], changed)

def commitMembershipFacts : Except Status (Option TopologyState) := do
  let facts := collectMembershipFacts obs.quarantined obs.memberships
  let exited :=
    applyExitingMembershipFacts options.maxMembersPerBatch facts.1 0 latest.state.members
  let admitted ← admitReadyMembers options latest obs exited.2 facts.2
  return if admitted.2 = 0 then none
    else some { latest.state with
      version := latest.state.version + 1
      members := exited.1 ++ admitted.1 }

variable (memberships : List MembershipRecord)

def allMembersExiting : Bool :=
  !latest.state.members.isEmpty && latest.state.members.all fun m =>
    (memberships.find? fun r => r.address = m.identity.address).any fun r => r.state = .exiting

def commitClusterShutdown : Except Status TopologyState :=
  buildClusterShutdownFinal { latest.state with
    members := latest.state.members.map fun m => { m with state := .preLeaving }
    activeBatch := none }

def isCommittedAddress (address : Bytes) : Bool :=
  (latest.state.members.find? fun m => m.identity.address = address).any fun m =>
    isCommittedMemberState m.state

def isCollectiveCommittedMembershipMissing : Bool :=
  (latest.state.members.any fun m => isCommittedMemberState m.state) &&
    memberships.all fun r => !isCommittedAddress latest r.address

def collectiveReadyCount (quarantined : List (Bytes × Int)) (memberships : List MembershipRecord) : Nat :=
  memberships.countP fun r => r.state = .ready && !isQuarantined quarantined r

def bootstrapCollectiveReplacement : Except Status (Option TopologyState) :=
  if (obs.exactMemberships.any fun r => isCommittedAddress latest r.address) ||
      collectiveReadyCount obs.quarantined obs.exactMemberships = 0 then return none
  else do
    let (_, ready) := collectMembershipFacts obs.quarantined obs.exactMemberships
    let (admitted, _) ←
      applyReadyMembershipFacts options.hasher options.maxMembersPerBatch 0 [] ready
    let empty := { latest.state with members := admitted, activeBatch := none }
    let next ← buildBootstrap options.tokensPerMember empty (admitted.map Member.identity)
    return some next

def handleCollectiveMembershipAbsence : Except Status (Option TopologyState) :=
  if collectiveReadyCount obs.quarantined obs.memberships = 0 || !obs.samplesUnreachable then
    return none
  else bootstrapCollectiveReplacement options latest obs

def tryConfirmFailures : Except Status (Option TopologyState) :=
  if allMembersExiting latest obs.memberships then do
    let next ← commitClusterShutdown latest
    return some next
  else if isCollectiveCommittedMembershipMissing latest obs.memberships then
    handleCollectiveMembershipAbsence options latest obs
  else do
    let observed ← observe obs.timedOut latest obs.memberships
    let classification := confirmWithProbes latest obs observed
    if !classification.confirmedFailure.isEmpty then
      commitConfirmedFailures options latest classification
    else if !classification.removeInitial.isEmpty || !classification.removeJoining.isEmpty then
      commitUncommittedCleanup options latest classification
    else commitMembershipFacts options latest obs

def commitBatchFinal (type : TopologyChangeType) : Except Status TopologyState :=
  match type with
  | .scaleOut => buildScaleOutFinal latest.state
  | .scaleIn => buildScaleInFinal latest.state
  | .failure => buildFailureFinal latest.state

def collectFailedJoining (expected : ExpectedDerivedState) (finished : Bytes → Bool) : List MemberIdentity :=
  let incompleteTargets := expected.tasks.filterMap fun
    | .migrate task => if finished task.taskId then none else some task.targetAddress
    | .deleteMember _ => none
  (latest.state.members.filter fun m => m.state = .joining &&
    m.identity.address ∈ incompleteTargets).map Member.identity

def commitScaleOutExhaustion (failedJoining : List MemberIdentity) : Except Status TopologyState := do
  checkFailReturnStatus (!failedJoining.isEmpty) .invalid
    "expired ScaleOut has no incomplete joining generation"
  let plan ← buildScaleOutReplan options.tokensPerMember latest.state failedJoining
  return plan.next

def tryFinalizeActiveBatch (expected : ExpectedDerivedState) (obs : Observation) : Except Status (Option TopologyState) :=
  match latest.state.activeBatch with
  | none => return none
  | some batch =>
    let finishedTaskIds := (expected.tasks.map TopologyTask.taskId).dedup.filter obs.finished
    if !obs.derivedDone then return none
    else if finishedTaskIds.length = expected.tasks.length then do
      let next ← commitBatchFinal latest batch.type
      return some next
    else if !obs.expired then return none
    else match batch.type with
      | .scaleOut => do
        let next ← commitScaleOutExhaustion options latest
          (collectFailedJoining latest expected obs.finished)
        return some next
      | .scaleIn => return none
      | .failure => do
        let next ← commitBatchFinal latest batch.type
        return some next

def limitMembers (members : List MemberIdentity) (limit : Nat) : List MemberIdentity :=
  (sortIdentities members).take limit

/-- The members that leave and those that join next. -/
def collectNextBatchCandidates : List MemberIdentity × List MemberIdentity :=
  let ready := (memberships.filter fun r => r.state = .ready || r.state = .restarting).map
    MembershipRecord.address
  let joining := (latest.state.members.filter fun m => m.state = .initial &&
    m.identity.address ∈ ready).map Member.identity
  (limitMembers (membersInState latest.state .preLeaving) options.maxMembersPerBatch,
    limitMembers joining options.maxMembersPerBatch)

def tryStartNextBatch : Except Status (Option TopologyState) :=
  let (leaving, joining) := collectNextBatchCandidates options latest obs.memberships
  if latest.state.activeBatch.isSome || !obs.windowOver then return none
  else if !joining.isEmpty then
    if !(latest.state.members.any fun m => isCommittedMemberState m.state) then do
      let next ← buildBootstrap options.tokensPerMember latest.state joining
      return some next
    else do
      let plan ← buildScaleOutStart options.tokensPerMember latest.state joining
      return some plan.next
  else if !leaving.isEmpty then do
    let plan ← buildScaleInStart latest.state leaving
    return some plan.next
  else return none

def recoverFromLatestTopology : Except Status (Option TopologyState) := do
  match ← tryConfirmFailures options latest obs with
  | some next => return some next
  | none =>
    let expected ← rebuildExpected options.hasher options.tokensPerMember latest
    match ← tryFinalizeActiveBatch options latest expected obs with
    | some next => return some next
    | none => tryStartNextBatch options latest obs

abbrev TopologyHistory := List TopologySnapshot

def currentVersion : TopologyHistory → Nat
  | [] => 0
  | latest :: _ => latest.state.version

def compareAndSwapTopology (history : TopologyHistory) (expectedVersion : Nat)
    (desired : TopologyState) : Option TopologyHistory :=
  if desired.version = expectedVersion + 1 && currentVersion history = expectedVersion then
    match create desired with
    | .ok committed => some (committed :: history)
    | .error _ => none
  else none

inductive ControllerAction where
  | ensureTopologyAuthority
  /-- a controller that has read the topology at an index of the history -/
  | reconcile (read : Nat) (obs : Observation)

def controllerStep (history : TopologyHistory) : ControllerAction → Option TopologyHistory
  | .ensureTopologyAuthority => compareAndSwapTopology history 0 ⟨false,1,[],none⟩
  | .reconcile read obs =>
    match history[read]? with
    | none => none
    | some latest =>
      match recoverFromLatestTopology options latest obs with
      | .ok (some next) => compareAndSwapTopology history latest.state.version next
      | _ => none

/-- Runs of any number of controllers, from no topology on. -/
def controllerMachine : Machine TopologyHistory ControllerAction where
  init := []
  step := controllerStep options

end Datasystem.Cluster
