import Datasystem.Lib.Bytes
import Datasystem.Lib.ClosedRange

/-!
# Cluster topology

Versions and epochs are unsigned 64-bit numbers in the source; every accepted version is at most the largest
signed one, so the successor of a version never wraps and the model counts in natural numbers.
-/

namespace Datasystem.Cluster

inductive MemberState where
  | initial
  | joining
  | active
  | preLeaving
  | leaving
  | failed
deriving DecidableEq, Repr

inductive TopologyChangeType where
  | scaleOut
  | scaleIn
  | failure
deriving DecidableEq, Repr

def maxMemberAddressBytes : Nat := 1024

def maxTopologyTaskRanges : Nat := 4096

def isCommittedMemberState : MemberState → Bool
  | .active | .preLeaving | .leaving => true
  | _ => false

def isAdmittedScaleInMigrationTargetState : MemberState → Bool
  | .active | .preLeaving => true
  | _ => false

structure MemberIdentity where
  id : Bytes
  address : Bytes
deriving DecidableEq, Repr

abbrev TokenRange := ClosedRange UInt32

structure Member where
  identity : MemberIdentity
  state : MemberState
  tokens : List UInt32
deriving DecidableEq, Repr

structure ActiveBatch where
  type : TopologyChangeType
  epoch : Nat
deriving DecidableEq, Repr

structure TopologyState where
  clusterHasInit : Bool
  version : Nat
  members : List Member
  activeBatch : Option ActiveBatch
deriving DecidableEq, Repr

structure TopologyTaskRange where
  ownerAddress : Bytes
  range : TokenRange
  finished : Bool
deriving DecidableEq, Repr

structure TopologyMigrateTask where
  taskId : Bytes
  type : TopologyChangeType
  epoch : Nat
  executorAddress : Bytes
  targetAddress : Bytes
  sourceRanges : List TopologyTaskRange
deriving DecidableEq, Repr

structure TopologyDeleteTask where
  taskId : Bytes
  epoch : Nat
  executorAddress : Bytes
  failedAddress : Bytes
  recoveryRanges : List TopologyTaskRange
deriving DecidableEq, Repr

inductive TopologyTask where
  | migrate (task : TopologyMigrateTask)
  | deleteMember (task : TopologyDeleteTask)
deriving DecidableEq, Repr

namespace TopologyTask

def taskId : TopologyTask → Bytes
  | .migrate task => task.taskId
  | .deleteMember task => task.taskId

def executorAddress : TopologyTask → Bytes
  | .migrate task => task.executorAddress
  | .deleteMember task => task.executorAddress

def taskRanges : TopologyTask → List TopologyTaskRange
  | .migrate task => task.sourceRanges
  | .deleteMember task => task.recoveryRanges

def withId (taskId : Bytes) : TopologyTask → TopologyTask
  | .migrate task => .migrate { task with taskId := taskId }
  | .deleteMember task => .deleteMember { task with taskId := taskId }

def ranges (task : TopologyTask) : List TokenRange := task.taskRanges.map TopologyTaskRange.range

end TopologyTask

structure TopologyOwnerChange where
  source : Option MemberIdentity
  target : MemberIdentity
  ranges : List TokenRange
deriving DecidableEq, Repr

structure TopologyPlan where
  next : TopologyState
  ownerChanges : List TopologyOwnerChange
deriving DecidableEq, Repr

def membersInState (state : TopologyState) (selected : MemberState) : List MemberIdentity :=
  (state.members.filter fun m => m.state = selected).map Member.identity

theorem mem_membersInState {state : TopologyState} {selected : MemberState}
    {identity : MemberIdentity} : identity ∈ membersInState state selected ↔
      ∃ m ∈ state.members, m.state = selected ∧ m.identity = identity := by
  simp [membersInState,and_assoc]

def removeMembers (addresses : List Bytes) (state : TopologyState) : TopologyState :=
  { state with members := state.members.filter fun m => m.identity.address ∉ addresses }

theorem mem_removeMembers {addresses : List Bytes} {state : TopologyState} {m : Member} :
    m ∈ (removeMembers addresses state).members ↔ m ∈ state.members ∧ m.identity.address ∉ addresses := by
  simp [removeMembers]

end Datasystem.Cluster
