import Datasystem.Common.HostPort
import Datasystem.Status

/-!
# Keys of the topology

The unnamed cluster has its tables directly under the root, a named cluster under its name; names that
coincide with the first part of a table of the unnamed cluster are reserved.
-/

namespace Datasystem.Cluster

open Bytes

def maxClusterNameSize : Nat := 128

def taskDigestSize : Nat := 32

def taskKindPrefixSize : Nat := 3

def minTaskIdSize : Nat := taskKindPrefixSize + 1 + 1 + taskDigestSize

def rootPrefix : Bytes := ascii "/datasystem"

def reservedClusterNames : List Bytes :=
  ["topology","tasks","notify","probe","cluster","scale-in-metadata-done"].map ascii

/-- The membership table without its leading separator, as `coordination_keys.h` has it. -/
def coordinationClusterTable : Bytes := ascii "datasystem/cluster"

def maxSourceIdSize : Nat := 128

def slash : UInt8 := 47

def isDigit (value : UInt8) : Bool := 48 ≤ value && value ≤ 57

def isAlphaNumeric (value : UInt8) : Bool :=
  isDigit value || (65 ≤ value && value ≤ 90) || (97 ≤ value && value ≤ 122)

/-- The bytes of a cluster name: letters, digits, `.`, `_` and `-`. -/
def isClusterNameByte (value : UInt8) : Bool := isAlphaNumeric value || value = 46 || value = 95 || value = 45

def isValidClusterName (name : Bytes) : Bool :=
  !name.isEmpty && name.length ≤ maxClusterNameSize && name.head?.any isAlphaNumeric &&
    name ∉ reservedClusterNames && name.all isClusterNameByte

def isLowerHex (value : UInt8) : Bool := isDigit value || (97 ≤ value && value ≤ 102)

/-- `m-e` or `d-e`, an epoch without leading zero, `-` and a digest in hexadecimal. -/
def isValidTaskId (taskId : Bytes) : Bool :=
  let afterKind := taskId.drop taskKindPrefixSize
  let epoch := afterKind.takeWhile (· ≠ 45)
  let fromSeparator := afterKind.dropWhile (· ≠ 45)
  minTaskIdSize ≤ taskId.length &&
    ((ascii "m-e").isPrefixOf taskId || (ascii "d-e").isPrefixOf taskId) &&
    !fromSeparator.isEmpty && (epoch.head?.any fun b => 49 ≤ b && b ≤ 57) &&
    fromSeparator.length = taskDigestSize + 1 && epoch.all isDigit &&
    (fromSeparator.drop 1).all isLowerHex

def taskKey (taskId : Bytes) : Except Status Bytes := do
  checkFailReturnStatus (isValidTaskId taskId) .invalid "invalid deterministic topology task ID"
  return taskId

def validateMemberKey (address : Bytes) : Except Status Unit := do
  checkFailReturnStatus (!address.isEmpty) .invalid "empty topology member address"
  checkFailReturnStatus (HostPort.isCanonical address) .invalid
    "invalid canonical topology member address"

/-- A key that is a canonical member address. -/
def memberKey (address : Bytes) : Except Status Bytes := do
  validateMemberKey address
  return address

def notifyKey : Bytes → Except Status Bytes := memberKey

def probeKey : Bytes → Except Status Bytes := memberKey

def membershipKey : Bytes → Except Status Bytes := memberKey

def validateSourceId (sourceId : Bytes) : Except Status Unit :=
  checkFailReturnStatus (!sourceId.isEmpty && sourceId.length ≤ maxSourceIdSize) .invalid
    "invalid ScaleIn metadata source id"

def lowerHexDigit (nibble : UInt8) : UInt8 := if nibble < 10 then 48 + nibble else 87 + nibble

/-- `EncodeScaleInMetadataSourceId`: two hexadecimal digits for each byte. -/
def encodeScaleInMetadataSourceId (sourceId : Bytes) : Bytes :=
  sourceId.flatMap fun (value : UInt8) => [lowerHexDigit (value >>> 4),lowerHexDigit (value &&& 15)]

def scaleInMetadataDonePrefix (batchEpoch : UInt64) (sourceId : Bytes) : Except Status Bytes := do
  checkFailReturnStatus (0 < batchEpoch) .invalid "invalid ScaleIn metadata batch epoch"
  validateSourceId sourceId
  return ascii "e" ++ decimal batchEpoch.toNat ++ slash :: encodeScaleInMetadataSourceId sourceId ++ [slash]

def scaleInMetadataDoneKey (batchEpoch : UInt64) (sourceId taskId : Bytes) : Except Status Bytes := do
  let start ← scaleInMetadataDonePrefix batchEpoch sourceId
  let key ← taskKey taskId
  return start ++ key

inductive TopologyPhysicalKeyKind where
  | unknown
  | topology
  | localNotify
  | localProbe
  | membership
  | migrateTask
  | deleteTask
deriving DecidableEq, Repr

def matchesExactPhysicalKey (physicalKey table relativeKey : Bytes) : Bool :=
  physicalKey = table ++ slash :: relativeKey

def matchesPhysicalTablePrefix (physicalKey table : Bytes) : Bool := (table ++ [slash]).isPrefixOf physicalKey

/-- The key layout of one cluster, which is unnamed or has a valid name. -/
structure TopologyKeyHelper where
  clusterName : Bytes
  valid : clusterName = [] ∨ isValidClusterName clusterName = true

namespace TopologyKeyHelper

def create (clusterName : Bytes) : Except Status TopologyKeyHelper :=
  if h : clusterName = [] ∨ isValidClusterName clusterName = true then .ok ⟨clusterName,h⟩
  else .error ⟨.invalid,"invalid cluster name for topology keyspace"⟩

variable (keys : TopologyKeyHelper)

def root : Bytes :=
  if keys.clusterName = [] then rootPrefix else rootPrefix ++ slash :: keys.clusterName

def topologyTable : Bytes := keys.root ++ ascii "/topology"

def migrateTaskTable : Bytes := keys.root ++ ascii "/tasks/migrate"

def deleteTaskTable : Bytes := keys.root ++ ascii "/tasks/delete"

def notifyTable : Bytes := keys.root ++ ascii "/notify"

def probeTable : Bytes := keys.root ++ ascii "/probe"

def membershipTable : Bytes := keys.root ++ ascii "/cluster"

def scaleInMetadataDoneTable : Bytes := keys.root ++ ascii "/scale-in-metadata-done"

/-- Where the memberships of the cluster are in an ETCD that is shared with older versions. -/
def etcdMembershipTablePrefix : Bytes :=
  if keys.clusterName = [] then slash :: coordinationClusterTable
  else slash :: keys.clusterName ++ slash :: coordinationClusterTable

def topologyKey : Bytes := []

def classifyPhysicalKey (physicalKey localAddress : Bytes) : TopologyPhysicalKeyKind :=
  if matchesExactPhysicalKey physicalKey keys.topologyTable topologyKey then .topology
  else if matchesExactPhysicalKey physicalKey keys.notifyTable localAddress then .localNotify
  else if matchesExactPhysicalKey physicalKey keys.probeTable localAddress then .localProbe
  else if matchesPhysicalTablePrefix physicalKey keys.membershipTable ||
      matchesPhysicalTablePrefix physicalKey keys.etcdMembershipTablePrefix then .membership
  else if matchesPhysicalTablePrefix physicalKey keys.migrateTaskTable then .migrateTask
  else if matchesPhysicalTablePrefix physicalKey keys.deleteTaskTable then .deleteTask
  else .unknown

theorem ext_clusterName {keys keys' : TopologyKeyHelper} (h : keys.clusterName = keys'.clusterName) : keys = keys' := by
  cases keys
  cases keys'
  simpa using h

theorem create_clusterName : create keys.clusterName = .ok keys := dif_pos keys.valid

theorem clusterName_of_create {clusterName : Bytes} {keys : TopologyKeyHelper}
    (h : create clusterName = .ok keys) : keys.clusterName = clusterName := by
  unfold create at h
  split_ifs at h
  rw [← Except.ok.inj h]

theorem slash_notMem_clusterName : slash ∉ keys.clusterName := by
  intro hmem
  rcases keys.valid with hnil | hvalid
  · rw [hnil] at hmem
    cases hmem
  · simp only [isValidClusterName,Bool.and_eq_true,List.all_eq_true] at hvalid
    have := hvalid.2 slash hmem
    revert this
    decide

theorem clusterName_notMem_reserved (h : keys.clusterName ≠ []) : keys.clusterName ∉ reservedClusterNames := by
  rcases keys.valid with hnil | hvalid
  · exact absurd hnil h
  · simp only [isValidClusterName,Bool.and_eq_true,decide_eq_true_eq] at hvalid
    exact hvalid.1.2

end TopologyKeyHelper

end Datasystem.Cluster
