import Datasystem.Cluster.TopologyTypes
import Datasystem.Common.HostPort
import Datasystem.Lib.TokenRing
import Datasystem.Status

/-!
# Validated topologies

A topology is validated and brought into canonical order before it is stored and again when it is read, so
every snapshot satisfies `Valid`.
-/

namespace Datasystem.Cluster

open List

private def memberIdSize : Nat := 16

private def int64Max : Nat := 2 ^ 63 - 1

def isProspective (state : MemberState) (batch : Option ActiveBatch) : Bool :=
  match batch.map ActiveBatch.type with
  | none => false
  | some .scaleOut => isCommittedMemberState state || state = .joining
  | some .scaleIn => isCommittedMemberState state && state ≠ .leaving
  | some .failure => false

def matchesBatch (state : MemberState) : TopologyChangeType → Bool
  | .scaleOut => state ≠ .leaving && state ≠ .failed
  | .scaleIn => state ≠ .joining && state ≠ .failed
  | .failure => true

def isTransitional : MemberState → Bool
  | .joining | .leaving | .failed => true
  | _ => false

def participantState : TopologyChangeType → MemberState
  | .scaleOut => .joining
  | .scaleIn => .leaving
  | .failure => .failed

def validateBatchStates (state : TopologyState) : Except Status Unit :=
  match state.activeBatch with
  | none =>
    checkFailReturnStatus (state.members.all fun m => !isTransitional m.state) .invalid
      "stable topology contains transitional member"
  | some batch => do
    checkFailReturnStatus (state.members.all fun m => matchesBatch m.state batch.type) .invalid
      "member state does not match active batch"
    checkFailReturnStatus (state.members.any fun m => m.state = participantState batch.type) .invalid
      "active batch has no participant"

def isValidAddress (address : Bytes) : Bool :=
  !address.isEmpty && address.length ≤ maxMemberAddressBytes && HostPort.isCanonical address

def validateAddress (address : Bytes) : Except Status Unit :=
  checkFailReturnStatus (isValidAddress address) .invalid "invalid canonical member address"

def insertTokens (set : List UInt32) : List UInt32 → Except Status (List UInt32)
  | [] => .ok set
  | t :: tokens => do
    checkFailReturnStatus (t ∉ set) .invalid "duplicate topology token"
    insertTokens (t :: set) tokens

/-- The checks on the members in the order of their addresses: `previous` is the address before,
`ids` and `tokens` are the sets of those seen so far. -/
def validateMembers (previous : Option Bytes) (ids : List Bytes) (tokens : List UInt32) :
    List Member → Except Status Unit
  | [] => .ok ()
  | m :: members => do
    validateAddress m.identity.address
    checkFailReturnStatus (m.identity.id.length = memberIdSize) .invalid "invalid member id"
    checkFailReturnStatus (previous ≠ some m.identity.address) .invalid "duplicate member address"
    checkFailReturnStatus (m.identity.id ∉ ids) .invalid "duplicate member id"
    let tokens ← insertTokens tokens m.tokens
    validateMembers (some m.identity.address) (m.identity.id :: ids) tokens members

def Member.sortTokens (m : Member) : Member := { m with tokens := m.tokens.insertionSort (· ≤ ·) }

def canonicalMembers (members : List Member) : List Member :=
  (members.insertionSort fun a b => a.identity.address ≤ b.identity.address).map Member.sortTokens

def validateAndCanonicalizeTopologyState (state : TopologyState) : Except Status TopologyState := do
  checkFailReturnStatus (0 < state.version && state.version ≤ int64Max) .invalid
    "invalid topology version"
  checkFailReturnStatus (state.activeBatch.all fun b => 0 < b.epoch && b.epoch ≤ state.version)
    .invalid "invalid active batch epoch"
  validateBatchStates state
  let members := canonicalMembers state.members
  validateMembers none [] [] members
  checkFailReturnStatus (!(members.any fun m => isCommittedMemberState m.state) ||
    members.any fun m => isCommittedMemberState m.state && !m.tokens.isEmpty) .invalid
    "committed topology members have no token owner"
  return { state with members := members }

structure BatchStates (members : List Member) (batch : Option ActiveBatch) : Prop where
  stable : batch = none → ∀ m ∈ members, isTransitional m.state = false
  matching : ∀ b, batch = some b → ∀ m ∈ members, matchesBatch m.state b.type = true
  participant : ∀ b, batch = some b → ∃ m ∈ members, m.state = participantState b.type

/-- Only which states occur matters. -/
theorem BatchStates.of_states {members members' : List Member} {batch : Option ActiveBatch}
    (hsub : ∀ m ∈ members', ∃ x ∈ members, x.state = m.state) (hsup : ∀ m ∈ members, ∃ x ∈ members', x.state = m.state)
    (h : BatchStates members batch) : BatchStates members' batch := by
  refine ⟨?_,?_,?_⟩
  · intro hnone m hm
    obtain ⟨x,hx,heq⟩ := hsub m hm
    exact heq ▸ h.stable hnone x hx
  · intro b hb m hm
    obtain ⟨x,hx,heq⟩ := hsub m hm
    exact heq ▸ h.matching b hb x hx
  · intro b hb
    obtain ⟨m,hm,hstate⟩ := h.participant b hb
    obtain ⟨x,hx,heq⟩ := hsup m hm
    exact ⟨x,hx,heq.trans hstate⟩

/-- What the validation accepts, in canonical order. -/
structure Valid (state : TopologyState) : Prop where
  version_pos : 0 < state.version
  version_le : state.version ≤ int64Max
  epoch : ∀ b, state.activeBatch = some b → 0 < b.epoch ∧ b.epoch ≤ state.version
  batchStates : BatchStates state.members state.activeBatch
  address : ∀ m ∈ state.members, isValidAddress m.identity.address = true
  id : ∀ m ∈ state.members, m.identity.id.length = memberIdSize
  addresses_sorted : state.members.Pairwise fun a b => a.identity.address < b.identity.address
  ids_nodup : (state.members.map fun m => m.identity.id).Nodup
  tokens_nodup : (state.members.flatMap Member.tokens).Nodup
  tokens_sorted : ∀ m ∈ state.members, m.tokens.Pairwise (· ≤ ·)
  owner : (∃ m ∈ state.members, isCommittedMemberState m.state = true) →
    ∃ m ∈ state.members, isCommittedMemberState m.state = true ∧ m.tokens ≠ []

variable {state : TopologyState}

theorem validateBatchStates_eq_ok {u : Unit} :
    validateBatchStates state = .ok u ↔ BatchStates state.members state.activeBatch := by
  unfold validateBatchStates
  cases hb : state.activeBatch with
  | none =>
    rw [checkFailReturnStatus_eq_ok,all_eq_true]
    constructor
    · intro h
      exact ⟨fun _ m hm => by simpa using h m hm,(fun b hb => by cases hb),(fun b hb => by cases hb)⟩
    · intro h m hm
      simpa using h.stable rfl m hm
  | some batch =>
    rw [Except.bind_eq_ok]
    simp only [checkFailReturnStatus_eq_ok,all_eq_true,any_eq_true,decide_eq_true_eq,exists_const]
    constructor
    · rintro ⟨hmatch,hpart⟩
      refine ⟨(fun hnone => by cases hnone),?_,?_⟩
      · rintro b hb
        cases hb
        exact hmatch
      · rintro b hb
        cases hb
        exact hpart
    · intro h
      exact ⟨h.matching batch rfl,h.participant batch rfl⟩

private theorem fresh_cons {α : Type*} {x : α} {ys seen : List α} :
    ((x :: ys).Nodup ∧ ∀ t ∈ x :: ys, t ∉ seen) ↔ x ∉ seen ∧ ys.Nodup ∧ ∀ t ∈ ys, t ∉ x :: seen := by
  grind

/-- New and distinct elements, in two parts. -/
theorem fresh_append {α : Type*} {xs ys seen : List α} : ((xs ++ ys).Nodup ∧ ∀ t ∈ xs ++ ys, t ∉ seen) ↔
    (xs.Nodup ∧ ∀ t ∈ xs, t ∉ seen) ∧ ys.Nodup ∧ ∀ t ∈ ys, t ∉ xs.reverse ++ seen := by
  grind

theorem insertTokens_eq_ok {set tokens set' : List UInt32} : insertTokens set tokens = .ok set' ↔
      set' = tokens.reverse ++ set ∧ tokens.Nodup ∧ ∀ t ∈ tokens, t ∉ set := by
  induction tokens generalizing set with
  | nil => simp [insertTokens,eq_comm]
  | cons t tokens ih =>
    rw [fresh_cons]
    simp only [insertTokens,Except.bind_eq_ok,checkFailReturnStatus_eq_ok,decide_eq_true_eq,
      exists_const,ih,reverse_cons,append_assoc,singleton_append]
    exact and_left_comm

variable {members : List Member}

theorem validateMembers_eq_ok {previous : Option Bytes} {ids : List Bytes} {tokens : List UInt32} {u : Unit} :
    validateMembers previous ids tokens members = .ok u ↔ (∀ m ∈ members, isValidAddress m.identity.address = true ∧
        m.identity.id.length = memberIdSize) ∧
      (previous.toList ++ members.map fun m => m.identity.address).IsChain (· ≠ ·) ∧
      (members.map fun m => m.identity.id).Nodup ∧ (∀ m ∈ members, m.identity.id ∉ ids) ∧
      (members.flatMap Member.tokens).Nodup ∧ ∀ t ∈ members.flatMap Member.tokens, t ∉ tokens := by
  simp only [← forall_mem_map (f := fun m : Member => m.identity.id) (P := (· ∉ ids))]
  induction members generalizing previous ids tokens with
  | nil =>
    cases previous <;> simp [validateMembers]
  | cons m members ih =>
    have hchain : (previous.toList ++ (m :: members).map fun m => m.identity.address).IsChain
        (· ≠ ·) ↔ previous ≠ some m.identity.address ∧
          ((some m.identity.address).toList ++ members.map fun m => m.identity.address).IsChain (· ≠ ·) := by
      cases previous with
      | none => simp
      | some a => simp [isChain_cons_cons]
    rw [hchain,flatMap_cons,fresh_append,map_cons,← and_assoc (a := Nodup _),fresh_cons,forall_mem_cons]
    simp only [validateMembers,validateAddress,Except.bind_eq_ok,checkFailReturnStatus_eq_ok,
      decide_eq_true_eq,exists_const,insertTokens_eq_ok,ih,and_assoc,exists_eq_left]
    tauto

private theorem address_sorted (members : List Member) :
    (canonicalMembers members).Pairwise fun a b => a.identity.address ≤ b.identity.address := by
  have : Std.Total fun a b : Member => a.identity.address ≤ b.identity.address :=
    ⟨fun a b => le_total a.identity.address b.identity.address⟩
  have : IsTrans Member fun a b => a.identity.address ≤ b.identity.address := ⟨fun _ _ _ => le_trans⟩
  rw [canonicalMembers,pairwise_map]
  exact pairwise_insertionSort _ members

/-- Sorting changes neither who is a member nor in which state, nor the set of tokens. -/
theorem mem_canonicalMembers {m : Member} : m ∈ canonicalMembers members ↔ ∃ m' ∈ members, m = m'.sortTokens := by
  simp only [canonicalMembers,mem_map,(perm_insertionSort _ members).mem_iff,eq_comm]

theorem sortTokens_ne_nil {m : Member} (h : m.tokens ≠ []) : m.sortTokens.tokens ≠ [] := by
  intro hnil
  have hlen := length_insertionSort (· ≤ ·) m.tokens
  rw [show m.tokens.insertionSort (· ≤ ·) = [] from hnil] at hlen
  exact h (length_eq_zero_iff.mp hlen.symm)

/-- Members in canonical order. -/
structure Canonical (members : List Member) : Prop where
  addresses : members.Pairwise fun a b => a.identity.address < b.identity.address
  tokens : ∀ m ∈ members, m.tokens.Pairwise (· ≤ ·)

theorem Canonical.canonicalMembers_eq (h : Canonical members) : canonicalMembers members = members := by
  have hsort : members.insertionSort (fun a b => a.identity.address ≤ b.identity.address) =
      members := List.Pairwise.insertionSort_eq (h.addresses.imp fun hlt => hlt.le)
  have hmap : ∀ m ∈ members, m.sortTokens = m := by
    intro m hm
    rw [Member.sortTokens,List.Pairwise.insertionSort_eq (h.tokens m hm)]
  rw [canonicalMembers,hsort,map_congr_left hmap,map_id']

theorem Canonical.filter (h : Canonical members) (p : Member → Bool) : Canonical (members.filter p) :=
  ⟨h.addresses.filter p,fun m hm => h.tokens m (mem_filter.mp hm).1⟩

theorem Canonical.map (h : Canonical members) {f : Member → Member}
    (hf : ∀ m, (f m).identity = m.identity ∧ (f m).tokens = m.tokens) :
    Canonical (members.map f) where
  addresses := by
    rw [pairwise_map]
    simp only [hf]
    exact h.addresses
  tokens m hm := by
    obtain ⟨x,hx,rfl⟩ := mem_map.mp hm
    rw [(hf x).2]
    exact h.tokens x hx

theorem Valid.version_lt (h : Valid state) : state.version < 2 ^ 64 := lt_of_le_of_lt h.version_le (by decide)

theorem Valid.canonical (h : Valid state) : Canonical state.members := ⟨h.addresses_sorted,h.tokens_sorted⟩

private theorem isChain_lt {l : List Bytes} (hle : l.Pairwise (· ≤ ·)) (hne : l.IsChain (· ≠ ·)) :
    l.IsChain (· < ·) := by
  induction l with
  | nil => simp
  | cons a l ih =>
    cases l with
    | nil => simp
    | cons b l =>
      obtain ⟨ha,hrest⟩ := pairwise_cons.mp hle
      rw [isChain_cons_cons] at hne ⊢
      exact ⟨lt_of_le_of_ne (ha b mem_cons_self) hne.1,ih hrest hne.2⟩

private theorem chain_address_iff (h : members.Pairwise fun a b => a.identity.address ≤ b.identity.address) :
    (members.map fun m => m.identity.address).IsChain (· ≠ ·) ↔
      members.Pairwise fun a b => a.identity.address < b.identity.address := by
  have hsorted : (members.map fun m => m.identity.address).Pairwise (· ≤ ·) := by
    rw [pairwise_map]
    exact h
  rw [← pairwise_map (f := fun m : Member => m.identity.address) (R := (· < ·)),← isChain_iff_pairwise]
  constructor
  · intro hne
    exact isChain_lt hsorted hne
  · intro hlt
    exact hlt.imp fun _ _ hab => hab.ne

/-- The validation accepts exactly the states whose canonical form is valid. -/
theorem validateAndCanonicalizeTopologyState_eq_ok {state state' : TopologyState} :
    validateAndCanonicalizeTopologyState state = .ok state' ↔
      state' = { state with members := canonicalMembers state.members } ∧ Valid state' := by
  have hstate : ∀ m ∈ canonicalMembers state.members, ∃ x ∈ state.members, x.state = m.state := by
    intro m hm
    obtain ⟨x,hx,rfl⟩ := mem_canonicalMembers.mp hm
    exact ⟨x,hx,rfl⟩
  have hstate' : ∀ m ∈ state.members, ∃ x ∈ canonicalMembers state.members, x.state = m.state :=
    fun m hm => ⟨m.sortTokens,mem_canonicalMembers.mpr ⟨m,hm,rfl⟩,rfl⟩
  have hbatch : BatchStates (canonicalMembers state.members) state.activeBatch ↔
      BatchStates state.members state.activeBatch := ⟨.of_states hstate' hstate,.of_states hstate hstate'⟩
  simp only [validateAndCanonicalizeTopologyState,Except.bind_eq_ok,checkFailReturnStatus_eq_ok,
    validateBatchStates_eq_ok,validateMembers_eq_ok,exists_const,← hbatch,
    Option.toList_none,nil_append,chain_address_iff (address_sorted state.members)]
  constructor
  · rintro ⟨hversion,hepoch,hstates,⟨hmem,hchain,hids,_,htokens,_⟩,howner,hret⟩
    cases hret
    simp only [Bool.and_eq_true,decide_eq_true_eq] at hversion
    refine ⟨rfl,hversion.1,hversion.2,?_,hstates,fun m hm => (hmem m hm).1,
      fun m hm => (hmem m hm).2,hchain,hids,htokens,?_,?_⟩
    · intro b hb
      have hbatch' : state.activeBatch = some b := hb
      rw [hbatch'] at hepoch
      simpa using hepoch
    · intro m hm
      obtain ⟨m',_,rfl⟩ := mem_canonicalMembers.mp hm
      exact pairwise_insertionSort _ m'.tokens
    · rintro ⟨m,hm,hc⟩
      have hany : (canonicalMembers state.members).any (fun m => isCommittedMemberState m.state) =
          true := any_eq_true.mpr ⟨m,hm,hc⟩
      rw [hany] at howner
      simpa using howner
  · rintro ⟨rfl,h⟩
    refine ⟨by simp [h.version_pos,h.version_le],?_,h.batchStates,
      ⟨fun m hm => ⟨h.address m hm,h.id m hm⟩,h.addresses_sorted,h.ids_nodup,by simp, h.tokens_nodup,by simp⟩,?_,rfl⟩
    · cases hb : state.activeBatch with
      | none => rfl
      | some b => simpa using h.epoch b hb
    · cases hany : (canonicalMembers state.members).any (fun m => isCommittedMemberState m.state) with
      | false => rfl
      | true => simpa using h.owner (by simpa using hany)

theorem Valid.validate (h : Valid state) : validateAndCanonicalizeTopologyState state = .ok state := by
  rw [validateAndCanonicalizeTopologyState_eq_ok,h.canonical.canonicalMembers_eq]
  exact ⟨rfl,h⟩

theorem valid_of_validate (h : validateAndCanonicalizeTopologyState state = .ok state) : Valid state :=
  (validateAndCanonicalizeTopologyState_eq_ok.mp h).2

/-- The member with a number below ten: its address is `127.0.0.1:<n>` and its identifier repeats the
number. -/
def sampleMember (n : UInt8) (state : MemberState) (tokens : List UInt32) : Member :=
  ⟨⟨List.replicate 16 n,[49,50,55,46,48,46,48,46,49,58,48 + n]⟩,state,tokens⟩

structure TopologySnapshot where
  state : TopologyState
  valid : Valid state

namespace TopologySnapshot

def create (state : TopologyState) : Except Status TopologySnapshot :=
  match h : validateAndCanonicalizeTopologyState state with
  | .ok state' => .ok ⟨state',(validateAndCanonicalizeTopologyState_eq_ok.mp h).2⟩
  | .error status => .error status

variable {snapshot : TopologySnapshot} {state : TopologyState}

theorem create_eq_ok : create state = .ok snapshot ↔
      validateAndCanonicalizeTopologyState state = .ok snapshot.state := by
  unfold create
  split
  · rename_i state' h
    constructor
    · intro heq
      rw [← Except.ok.inj heq]
      exact h
    · intro heq
      cases snapshot
      obtain rfl := Except.ok.inj (h.symm.trans heq)
      rfl
  · exact ⟨(fun h => by cases h),fun h => by simp_all⟩

theorem state_of_create (h : create state = .ok snapshot) :
    snapshot.state = { state with members := canonicalMembers state.members } :=
  (validateAndCanonicalizeTopologyState_eq_ok.mp (create_eq_ok.mp h)).1

theorem state_of_create_canonical (h : create state = .ok snapshot) (hc : Canonical state.members) :
    snapshot.state = state := by
  rw [state_of_create h,hc.canonicalMembers_eq]

def tokenPoints {β : Type} (eligible : Member → Bool) (value : Member → β)
    (members : List Member) : List (UInt32 × β) :=
  (members.filter eligible).flatMap fun m => m.tokens.map fun t => (t, value m)

variable (snapshot)

def committedTokenOwners : List (UInt32 × Member) :=
  TokenRing.build (tokenPoints (fun m => isCommittedMemberState m.state) id snapshot.state.members)

def prospectiveTokenOwners : List (UInt32 × Member) :=
  TokenRing.build (tokenPoints (fun m => isProspective m.state snapshot.state.activeBatch) id
    snapshot.state.members)

def locateIndexedOwner (owners : List (UInt32 × Member)) (token : UInt32) : Except Status Member :=
  match TokenRing.find owners token with
  | some (_, owner) => .ok owner
  | none => .error ⟨.notReady,"cluster topology has no token owner"⟩

def locateOwner (token : UInt32) : Except Status Member := locateIndexedOwner snapshot.committedTokenOwners token

def locateProspectiveOwner (token : UInt32) : Except Status Member :=
  let owners := if snapshot.prospectiveTokenOwners.isEmpty then snapshot.committedTokenOwners
    else snapshot.prospectiveTokenOwners
  locateIndexedOwner owners token

def findMemberByAddress (address : Bytes) : Except Status Member :=
  match snapshot.state.members.find? fun m => m.identity.address = address with
  | some m => .ok m
  | none => .error ⟨.notFound,"member address not found"⟩

end TopologySnapshot

end Datasystem.Cluster
