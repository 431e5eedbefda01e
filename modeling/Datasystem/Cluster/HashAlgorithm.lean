import Datasystem.Cluster.TopologySnapshot
import Datasystem.Common.Hashing
import Datasystem.Lib.Keyed

/-!
# The hash placement algorithm

A plan compares the token ring before a change with the ring after it and lists, for every pair of owners, the
ranges that move from the one to the other.
-/

namespace Datasystem.Cluster

open Keyed TopologySnapshot

def uuidSize : Nat := 16

private def maxTokenProbes : Nat := 1024

def maxTokensPerMember : Nat := 4096

def maxToken : UInt32 := 0xffffffff

private def tokenSeparator : UInt8 := 35

def makeToken (address : Bytes) (index probe : Nat) : UInt32 :=
  let seed := address ++ [tokenSeparator] ++ Bytes.decimal index
  murmurHash3_32 (if 0 < probe then seed ++ [tokenSeparator] ++ Bytes.decimal probe else seed) 0

/-- The first token of an index that is not occupied, within a number of probes. -/
def probeToken (address : Bytes) (index : Nat) (occupied : List UInt32) : Nat → Nat → Option UInt32
  | 0, _ => none
  | probes + 1, probe =>
    let token := makeToken address index probe
    if token ∈ occupied then probeToken address index occupied probes (probe + 1) else some token

/-- One token for each of `count` indexes, together with all occupied ones. -/
def probeTokens (address : Bytes) : Nat → Nat → List UInt32 → List UInt32 → Except Status (List UInt32 × List UInt32)
  | 0, _, occupied, tokens => .ok (occupied, tokens)
  | count + 1, index, occupied, tokens =>
    match probeToken address index occupied maxTokenProbes 0 with
    | some token => probeTokens address count (index + 1) (token :: occupied) (tokens ++ [token])
    | none => .error ⟨.invalid,"unique cluster token probe budget exhausted"⟩

def generateTokens (identity : MemberIdentity) (count : Nat) (occupied : List UInt32) :
    Except Status (List UInt32 × List UInt32) := do
  let (occupied, tokens) ← probeTokens identity.address count 0 occupied []
  return (occupied, tokens.insertionSort (· ≤ ·))

/-- The checks on planning identities; `seen` lists the ones before. -/
def validateIdentitiesAfter (seen : List MemberIdentity) : List MemberIdentity → Except Status Unit
  | [] => .ok ()
  | identity :: identities => do
    checkFailReturnStatus (identity.id.length = uuidSize && !identity.address.isEmpty &&
      identity.address.length ≤ maxMemberAddressBytes) .invalid "invalid planning member identity"
    checkFailReturnStatus (HostPort.isCanonical identity.address) .invalid
      "non-canonical planning member address"
    checkFailReturnStatus (seen.all fun s => s.id ≠ identity.id && s.address ≠ identity.address)
      .invalid "duplicate planning member identity"
    validateIdentitiesAfter (identity :: seen) identities

def validateIdentities (identities : List MemberIdentity) : Except Status Unit :=
  validateIdentitiesAfter [] identities

variable (current : TopologyState)

def validateSelectedMembers (selected : List MemberIdentity) : Except Status Unit :=
  checkFailReturnStatus (selected.all fun identity =>
    (current.members.find? fun m => m.identity.address = identity.address).any fun m =>
      m.identity = identity && isCommittedMemberState m.state) .invalid
    "selected member identity/state is stale"

/-- The checks on the members of a topology; `seen` lists the members before, `tokens` their
tokens. -/
def validateAfter (seen : List Member) (tokens : List UInt32) : List Member → Except Status Unit
  | [] => .ok ()
  | m :: members => do
    checkFailReturnStatus (m.identity.id.length = uuidSize && !m.identity.address.isEmpty) .invalid
      "invalid topology member identity"
    checkFailReturnStatus (seen.all fun s => s.identity.id ≠ m.identity.id &&
      s.identity.address ≠ m.identity.address) .invalid "duplicate topology member identity"
    let tokens ← insertTokens tokens m.tokens
    validateAfter (m :: seen) tokens members

def validate (state : TopologyState) : Except Status Unit := do
  validateAfter [] [] state.members
  checkFailReturnStatus (state.members.isEmpty ||
    state.members.any fun m => isCommittedMemberState m.state) .invalid
    "non-empty topology has no committed member"

/-- The members whose tokens form a ring. -/
def isEligible (includeJoining : Bool) (excluded : List Bytes) (activeOnly : Bool) (m : Member) : Bool :=
  (if activeOnly then m.state = .active
    else isCommittedMemberState m.state || (includeJoining && m.state = .joining)) &&
  m.identity.address ∉ excluded

def buildOwners (members : List Member) (includeJoining : Bool) (excluded : List Bytes)
    (activeOnly : Bool) : Except Status (List (UInt32 × MemberIdentity)) := do
  let owners := tokenPoints (isEligible includeJoining excluded activeOnly) Member.identity members
  checkFailReturnStatus (!owners.isEmpty) .notReady "cluster topology has no committed token owner"
  return TokenRing.build owners

def appendRange (ranges : List TokenRange) (range : TokenRange) : List TokenRange :=
  ClosedRange.append (fun last first => last ≠ maxToken && last + 1 = first) ranges range

variable (fromOwners toOwners : List (UInt32 × MemberIdentity))

/-- The tokens at which one of two rings may change its owner. -/
def boundaries : List UInt32 :=
  ((0 :: (((fromOwners ++ toOwners).filter fun o => o.1 ≠ maxToken).map fun o =>
    o.1 + 1)).insertionSort (· ≤ ·)).dedup

def boundaryRanges : List UInt32 → List TokenRange
  | [] => []
  | [boundary] => [⟨boundary,maxToken⟩]
  | boundary :: next :: rest => ⟨boundary,next - 1⟩ :: boundaryRanges (next :: rest)

def changeKey (change : TopologyOwnerChange) : Lex (Bytes × Bytes) :=
  toLex ((change.source.map MemberIdentity.address).getD [], change.target.address)

def recordChange (source target : MemberIdentity) (range : TokenRange)
    (grouped : List TopologyOwnerChange) : List TopologyOwnerChange :=
  let change := lookup changeKey (toLex (source.address, target.address)) grouped
  upsert changeKey ⟨some source,target,
    appendRange ((change.map TopologyOwnerChange.ranges).getD []) range⟩ grouped

def diffOwners : List TopologyOwnerChange :=
  (boundaryRanges (boundaries fromOwners toOwners)).foldl (fun grouped range =>
    match TokenRing.find fromOwners range.first, TokenRing.find toOwners range.first with
    | some (_, source), some (_, target) =>
      if source = target then grouped else recordChange source target range grouped
    | _, _ => grouped) []

def sortIdentities (identities : List MemberIdentity) : List MemberIdentity :=
  identities.insertionSort fun a b => a.address ≤ b.address

def allocateOrdered (tokensPerMember : Nat) (occupied : List UInt32) :
    List MemberIdentity → Except Status (List (Bytes × List UInt32))
  | [] => .ok []
  | identity :: identities => do
    let (occupied, tokens) ← generateTokens identity tokensPerMember occupied
    let rest ← allocateOrdered tokensPerMember occupied identities
    return (identity.address, tokens) :: rest

def allocateTokens (members : List MemberIdentity) (tokensPerMember : Nat) :
    Except Status (List (Bytes × List UInt32)) := do
  checkFailReturnStatus (0 < tokensPerMember && tokensPerMember ≤ maxTokensPerMember) .invalid
    "tokens per member is outside the supported range"
  validateIdentities members
  allocateOrdered tokensPerMember [] (sortIdentities members)

def buildInitialPlacement (joining : List MemberIdentity) (tokensPerMember : Nat) : Except Status TopologyPlan := do
  checkFailReturnStatus (current.members.isEmpty && !joining.isEmpty) .invalid
    "bootstrap requires an empty topology and members"
  let tokens ← allocateTokens joining tokensPerMember
  let placed := (sortIdentities joining).map fun identity =>
    (⟨identity,.active,(tokens.lookup identity.address).getD []⟩ : Member)
  return ⟨{ current with clusterHasInit := true, members := current.members ++ placed },[]⟩

/-- The members of a scale-out: those already joining are kept, the others get tokens. -/
def addJoining (tokensPerMember : Nat) (occupied : List UInt32) (members : List Member) :
    List MemberIdentity → Except Status (List Member)
  | [] => .ok members
  | identity :: identities =>
    match members.find? fun m => m.identity.address = identity.address with
    | some m => do
      checkFailReturnStatus (m.identity = identity && m.state = .joining) .invalid
        "retained ScaleOut identity/state mismatch"
      addJoining tokensPerMember occupied members identities
    | none => do
      checkFailReturnStatus (members.all fun m => m.identity.id ≠ identity.id) .invalid
        "new ScaleOut member id collides with current topology"
      let (occupied, tokens) ← generateTokens identity tokensPerMember occupied
      addJoining tokensPerMember occupied (members ++ [⟨identity,.joining,tokens⟩]) identities

def planScaleOut (joining : List MemberIdentity) (tokensPerMember : Nat) : Except Status TopologyPlan := do
  validate current
  validateIdentities joining
  checkFailReturnStatus (!joining.isEmpty && 0 < tokensPerMember &&
    tokensPerMember ≤ maxTokensPerMember) .invalid "ScaleOut requires joining members and tokens"
  let members ← addJoining tokensPerMember (current.members.flatMap Member.tokens) current.members
    (sortIdentities joining)
  let fromOwners ← buildOwners current.members false [] false
  let toOwners ← buildOwners members true [] false
  return ⟨{ current with members := members },diffOwners fromOwners toOwners⟩

def setMemberStates (addresses : List Bytes) (state : MemberState) (members : List Member) : List Member :=
  members.map fun m => if m.identity.address ∈ addresses then { m with state := state } else m

def planScaleIn (leaving : List MemberIdentity) : Except Status TopologyPlan := do
  validate current
  validateIdentities leaving
  validateSelectedMembers current leaving
  checkFailReturnStatus (!leaving.isEmpty) .invalid "ScaleIn requires leaving members"
  let excluded := leaving.map MemberIdentity.address
  let fromOwners ← buildOwners current.members false [] false
  let toOwners ← buildOwners current.members false excluded false
  return ⟨{ current with members := setMemberStates excluded .preLeaving current.members },
    diffOwners fromOwners toOwners⟩

def planFailure (failed : List MemberIdentity) : Except Status TopologyPlan := do
  validate current
  validateIdentities failed
  validateSelectedMembers current failed
  checkFailReturnStatus (!failed.isEmpty) .invalid "Failure planning requires failed members"
  let excluded := failed.map MemberIdentity.address
  let fromOwners ← buildOwners current.members false [] false
  let toOwners ← buildOwners current.members false excluded true
  return ⟨{ current with members := setMemberStates excluded .failed current.members },
    (diffOwners fromOwners toOwners).filter fun change =>
      change.source.any fun source => source.address ∈ excluded⟩

end Datasystem.Cluster
