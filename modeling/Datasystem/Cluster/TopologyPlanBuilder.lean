import Datasystem.Cluster.HashAlgorithm

/-!
# Topologies to commit

`TopologyPlanBuilder` computes the next topology of every kind of change from the latest one. The number of
tokens per member is a flag of the process.
-/

namespace Datasystem.Cluster

open MemberIdentity

/-- The selected members are in the topology, in the given state and named once; `seen` lists the
addresses before. -/
def validateSelectedAfter (latest : TopologyState) (state : MemberState) (seen : List Bytes) :
    List MemberIdentity → Except Status Unit
  | [] => .ok ()
  | identity :: selected => do
    checkFailReturnStatus ((latest.members.find? fun m => m.identity = identity).any fun m =>
      m.state = state) .invalid "selected topology identity or state is stale"
    checkFailReturnStatus (identity.address ∉ seen) .invalid
      "selected topology identity is duplicated"
    validateSelectedAfter latest state (identity.address :: seen) selected

variable (latest : TopologyState)

def validateSelected (selected : List MemberIdentity) (state : MemberState) : Except Status Unit := do
  checkFailReturnStatus (!selected.isEmpty) .invalid "selected topology member set is empty"
  validateSelectedAfter latest state [] selected

def advanceEpoch (type : TopologyChangeType) (plan : TopologyPlan) : TopologyPlan :=
  { plan with next := { plan.next with
      version := latest.version + 1
      activeBatch := some ⟨type,latest.version + 1⟩ } }

def validateBatch (type : TopologyChangeType) : Except Status Unit :=
  checkFailReturnStatus (latest.activeBatch.any fun b => b.type = type) .invalid
    "topology active batch type does not match finalization"

def moveMembers (before after : MemberState) (members : List Member) : List Member :=
  members.map fun m => if m.state = before then { m with state := after } else m

def buildBootstrap (tokensPerMember : Nat) (latest : TopologyState) (ready : List MemberIdentity) :
    Except Status TopologyState := do
  checkFailReturnStatus (!(latest.members.any fun m => isCommittedMemberState m.state) &&
    latest.activeBatch.isNone) .invalid
    "bootstrap requires a stable topology without a committed owner"
  validateSelected latest ready .initial
  let built ← buildInitialPlacement ⟨false,0,[],none⟩ ready tokensPerMember
  let kept := latest.members.filter fun m =>
    m.identity.address ∉ ready.map address
  let next : TopologyState := { built.next with
    members := built.next.members ++ kept
    version := latest.version + 1
    clusterHasInit := latest.clusterHasInit || built.next.clusterHasInit }
  validate next
  return next

def buildScaleOutStart (tokensPerMember : Nat) (latest : TopologyState)
    (selected : List MemberIdentity) : Except Status TopologyPlan := do
  checkFailReturnStatus (latest.clusterHasInit && latest.activeBatch.isNone) .invalid
    "ScaleOut start requires a stable initialized topology"
  validateSelected latest selected .initial
  let current := removeMembers (selected.map address) latest
  let built ← planScaleOut current selected tokensPerMember
  let plan := advanceEpoch latest .scaleOut built
  validate plan.next
  return plan

def buildScaleOutReplan (tokensPerMember : Nat) (latest : TopologyState)
    (failedJoining : List MemberIdentity) : Except Status TopologyPlan := do
  validateBatch latest .scaleOut
  validateSelected latest failedJoining .joining
  let retained := removeMembers (failedJoining.map address) latest
  let joining := membersInState retained .joining
  if joining.isEmpty then
    return ⟨{ retained with version := latest.version + 1, activeBatch := none },[]⟩
  else
    let built ← planScaleOut retained joining tokensPerMember
    return advanceEpoch latest .scaleOut built

def buildScaleInStart (selected : List MemberIdentity) : Except Status TopologyPlan := do
  checkFailReturnStatus (latest.clusterHasInit && latest.activeBatch.isNone) .invalid
    "ScaleIn start requires a stable initialized topology"
  validateSelected latest selected .preLeaving
  let built ← planScaleIn latest selected
  let members := built.next.members.map fun m =>
    if m.state = .preLeaving && m.identity ∈ selected then { m with state := .leaving } else m
  return advanceEpoch latest .scaleIn { built with next := { built.next with members := members } }

/-- A member that keeps its ordinary state while others fail. -/
def preservesOrdinaryFact (failedAddresses : List Bytes) (m : Member) : Bool :=
  (m.state = .joining || m.state = .leaving) && m.identity.address ∉ failedAddresses

/-- Give the members that keep their ordinary state this state back. -/
def restoreOrdinaryFacts (failedAddresses : List Bytes) (latest : TopologyState)
    (members : List Member) : List Member :=
  members.map fun next =>
    match latest.members.find? fun m =>
      preservesOrdinaryFact failedAddresses m && m.identity = next.identity with
    | some m => { next with state := m.state }
    | none => next

def buildFailureStartOrReplan (confirmed : List MemberIdentity) : Except Status TopologyPlan := do
  checkFailReturnStatus latest.clusterHasInit .invalid "Failure requires an initialized topology"
  let planning := { latest with members := moveMembers .failed .active latest.members }
  checkFailReturnStatus (latest.members.all fun m => m.state ≠ .failed || m.identity ∈ confirmed)
    .invalid "Failure replan cannot omit an existing failed member"
  let failedAddresses := confirmed.map address
  let hasHealthyOwner := latest.members.any fun m =>
    m.state = .active && m.identity.address ∉ failedAddresses
  if !hasHealthyOwner then
    let members := setMemberStates failedAddresses .failed latest.members
    return advanceEpoch latest .failure ⟨{ latest with members := members },[]⟩
  else
    let built ← planFailure planning confirmed
    let members := restoreOrdinaryFacts failedAddresses latest built.next.members
    return advanceEpoch latest .failure { built with next := { built.next with members := members } }

def buildScaleOutFinal : Except Status TopologyState := do
  validateBatch latest .scaleOut
  checkFailReturnStatus (!(membersInState latest .joining).isEmpty) .invalid
    "ScaleOut final requires joining members"
  return { latest with
    members := moveMembers .joining .active latest.members
    version := latest.version + 1
    activeBatch := none }

def buildScaleInFinal : Except Status TopologyState := do
  validateBatch latest .scaleIn
  let leaving := membersInState latest .leaving
  checkFailReturnStatus (!leaving.isEmpty) .invalid "ScaleIn final requires leaving members"
  let built := removeMembers (leaving.map address) latest
  return { built with version := latest.version + 1, activeBatch := none }

def buildFailureFinal : Except Status TopologyState := do
  validateBatch latest .failure
  let failed := membersInState latest .failed
  checkFailReturnStatus (!failed.isEmpty) .invalid "Failure final requires failed members"
  let built := removeMembers (failed.map address) latest
  let next : TopologyState :=
    if !(built.members.any fun m => isCommittedMemberState m.state) then
      { built with members := [], activeBatch := none }
    else if !(membersInState built .joining).isEmpty then
      { built with activeBatch := some ⟨.scaleOut,latest.version + 1⟩ }
    else if !(membersInState built .leaving).isEmpty then
      { built with activeBatch := some ⟨.scaleIn,latest.version + 1⟩ }
    else { built with activeBatch := none }
  return { next with version := latest.version + 1 }

def buildClusterShutdownFinal : Except Status TopologyState := do
  checkFailReturnStatus (!latest.members.isEmpty) .invalid "cluster shutdown requires topology members"
  checkFailReturnStatus (latest.members.all fun m => m.state = .preLeaving || m.state = .leaving)
    .invalid "cluster shutdown requires every member to be exiting"
  return { latest with version := latest.version + 1, members := [], activeBatch := none }

end Datasystem.Cluster
