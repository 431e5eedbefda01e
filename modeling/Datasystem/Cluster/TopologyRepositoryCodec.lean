import Datasystem.Cluster.TopologyPb
import Datasystem.Cluster.TopologySnapshot

/-!
# Stored form of the topology

The limits on the number of members and tokens stand on the reading side only.
-/

namespace Datasystem.Cluster

open Keyed ClusterTopologyPb Except UInt64
open List hiding lookup

def maxValueBytes : Nat := 4 * 1024 * 1024

def maxTopologyMembers : Nat := 10000

def maxTopologyTokens : Nat := 40000

private def schemaVersion : Bytes := [49]

def serializeCanonical (pb : Protobuf) (message : ClusterTopologyPb) : Except Status Bytes :=
  match pb.serializeToString message with
  | none => .error ⟨.runtimeError,"serialize repository value failed"⟩
  | some encoded => do
    checkFailReturnStatus (encoded.length ≤ maxValueBytes) .invalid "repository value exceeds limit"
    return encoded

def toPbType : TopologyChangeType → Int32
  | .scaleOut => 0
  | .scaleIn => 1
  | .failure => 2

def fromPbType (type : Int32) : Except Status TopologyChangeType :=
  if type = 0 then .ok .scaleOut
  else if type = 1 then .ok .scaleIn
  else if type = 2 then .ok .failure
  else .error ⟨.invalid,"invalid topology change type"⟩

def MemberState.toInt32 : MemberState → Int32
  | .initial => 0
  | .joining => 1
  | .active => 2
  | .preLeaving => 3
  | .leaving => 4
  | .failed => 5

/-- The cast from the number of an enumerator, for numbers in range. -/
def MemberState.ofInt32 (value : Int32) : MemberState :=
  if value = 0 then .initial
  else if value = 1 then .joining
  else if value = 2 then .active
  else if value = 3 then .preLeaving
  else if value = 4 then .leaving
  else .failed

def ClusterTopologyPb.addMember (message : ClusterTopologyPb) (m : Member) : ClusterTopologyPb :=
  message.setMember m.identity.address fun found =>
    { tokens := found.tokens ++ m.tokens, id := m.identity.id, state := m.state.toInt32 }

def TopologyState.toPb (canonical : TopologyState) : ClusterTopologyPb :=
  canonical.members.foldl ClusterTopologyPb.addMember
    { clusterHasInit := canonical.clusterHasInit
      version := ofNat canonical.version
      schemaVersion := schemaVersion
      activeBatch := canonical.activeBatch.map fun b => ⟨toPbType b.type,ofNat b.epoch⟩ }

def encodeTopology (pb : Protobuf) (state : TopologyState) : Except Status Bytes := do
  let canonical ← validateAndCanonicalizeTopologyState state
  serializeCanonical pb canonical.toPb

def checkTokenCount (tokenCount : Nat) : List (Bytes × MembershipPb) → Except Status Unit
  | [] => .ok ()
  | (_, memberPb) :: members => do
    checkFailReturnStatus (tokenCount + memberPb.tokens.length ≤ maxTopologyTokens) .invalid
      "topology token count exceeds limit"
    checkTokenCount (tokenCount + memberPb.tokens.length) members

def decodeMember (entry : Bytes × MembershipPb) : Except Status Member := do
  checkFailReturnStatus (0 ≤ entry.2.state && entry.2.state ≤ 5) .invalid "invalid member state"
  return ⟨⟨entry.2.id,entry.1⟩,.ofInt32 entry.2.state,entry.2.tokens⟩

def decodeActiveBatch : Option ChangeBatchPb → Except Status (Option ActiveBatch)
  | none => .ok none
  | some c => do
    let type ← fromPbType c.type
    return some ⟨type,c.epoch.toNat⟩

/-- The checks on a parsed message and the topology it stands for. -/
def decodeMessage (message : ClusterTopologyPb) : Except Status TopologyState := do
  checkFailReturnStatus (message.schemaVersion = schemaVersion) .invalid "invalid topology value"
  checkFailReturnStatus (message.members.length ≤ maxTopologyMembers) .invalid
    "topology member count exceeds limit"
  checkTokenCount 0 message.members
  let members ← message.members.mapM decodeMember
  let activeBatch ← decodeActiveBatch message.activeBatch
  validateAndCanonicalizeTopologyState
    ⟨message.clusterHasInit,message.version.toNat,members,activeBatch⟩

def decodeTopology (pb : Protobuf) (value : Bytes) : Except Status TopologyState := do
  checkFailReturnStatus (value.length ≤ maxValueBytes) .invalid "topology value exceeds limit"
  match pb.parseFromString value with
  | none => .error ⟨.invalid,"invalid topology value"⟩
  | some message => decodeMessage message

def tokenCount (members : List Member) : Nat := (members.map fun m => m.tokens.length).sum

def memberElement (m : Member) : Bytes × MembershipPb :=
  (m.identity.address, { tokens := m.tokens, id := m.identity.id, state := m.state.toInt32 })

section Message

theorem fromPbType_toPbType (type : TopologyChangeType) : fromPbType (toPbType type) = .ok type := by
  cases type <;> rfl

theorem decodeMember_memberElement (m : Member) : decodeMember (memberElement m) = .ok m := by
  obtain ⟨identity,state,tokens⟩ := m
  cases state <;> rfl

private theorem members_foldl_addMember {members : List Member} {message : ClusterTopologyPb}
    (h : members.Pairwise fun a b => a.identity.address < b.identity.address)
    (hlt : ∀ e ∈ message.members, ∀ m ∈ members, e.1 < m.identity.address) :
    (members.foldl addMember message).members = message.members ++ members.map memberElement := by
  induction members generalizing message with
  | nil => simp
  | cons m members ih =>
    obtain ⟨hm,hrest⟩ := pairwise_cons.mp h
    have habsent : lookup Prod.fst m.identity.address message.members = none := by
      rw [lookup_eq_none]
      intro e he
      exact ne_of_lt (hlt e he m mem_cons_self)
    have hset : (message.addMember m).members = message.members ++ [memberElement m] := by
      simp only [addMember,setMember,habsent]
      exact upsert_eq_append fun e he => hlt e he m mem_cons_self
    rw [foldl_cons,ih hrest,hset]
    · simp
    · intro e he x hx
      rw [hset] at he
      rcases mem_append.mp he with he | he
      · exact hlt e he x (mem_cons_of_mem _ hx)
      · rw [mem_singleton.mp he]
        exact hm x hx

private theorem foldl_addMember_rest (members : List Member) (message : ClusterTopologyPb) :
    (members.foldl addMember message).clusterHasInit = message.clusterHasInit ∧
    (members.foldl addMember message).version = message.version ∧
    (members.foldl addMember message).schemaVersion = message.schemaVersion ∧
    (members.foldl addMember message).activeBatch = message.activeBatch := by
  induction members generalizing message with
  | nil => simp
  | cons m members ih => exact ih (message.addMember m)

variable {c : TopologyState}

theorem toPb_members (h : Valid c) : c.toPb.members = c.members.map memberElement := by
  rw [TopologyState.toPb,members_foldl_addMember h.addresses_sorted (by simp)]
  simp

theorem toPb_version (c : TopologyState) : c.toPb.version = ofNat c.version := (foldl_addMember_rest c.members _).2.1

theorem checkTokenCount_eq_ok {n : Nat} {entries : List (Bytes × MembershipPb)} {u : Unit}
    (hn : n ≤ maxTopologyTokens) : checkTokenCount n entries = .ok u ↔
      n + (entries.map fun e => e.2.tokens.length).sum ≤ maxTopologyTokens := by
  induction entries generalizing n with
  | nil => simpa [checkTokenCount] using hn
  | cons e entries ih =>
    simp only [checkTokenCount,bind_eq_ok,checkFailReturnStatus_eq_ok,decide_eq_true_eq,exists_const,map_cons,sum_cons]
    constructor
    · rintro ⟨hle,hrest⟩
      have := (ih hle).mp hrest
      omega
    · intro hle
      exact ⟨by omega,(ih (by omega)).mpr (by omega)⟩

theorem decodeActiveBatch_toPb (h : Valid c) : decodeActiveBatch c.toPb.activeBatch = .ok c.activeBatch := by
  have hbatch : c.toPb.activeBatch = c.activeBatch.map fun b => ⟨toPbType b.type,ofNat b.epoch⟩ :=
    (foldl_addMember_rest c.members _).2.2.2
  rw [hbatch]
  cases hb : c.activeBatch with
  | none => rfl
  | some b =>
    have hepoch : (ofNat b.epoch).toNat = b.epoch := by
      have := (h.epoch b hb).2
      have := h.version_lt
      rw [toNat_ofNat']
      exact Nat.mod_eq_of_lt (by omega)
    simp only [Option.map_some,decodeActiveBatch,fromPbType_toPbType,hepoch]
    rfl

theorem mapM_eq_ok {ε α β : Type} {f : α → Except ε β} {l : List α} {l' : List β} :
    l.mapM f = .ok l' ↔ List.Forall₂ (fun a b => f a = .ok b) l l' := by
  induction l generalizing l' with
  | nil =>
    rw [forall₂_nil_left_iff,mapM_nil]
    constructor
    · intro h
      exact (Except.ok.inj h).symm
    · rintro rfl
      rfl
  | cons a l ih =>
    rw [mapM_cons,forall₂_cons_left_iff]
    simp only [bind_eq_ok,ih]
    constructor
    · rintro ⟨b,hb,bs,hbs,heq⟩
      exact ⟨b,bs,hb,hbs,(Except.ok.inj heq).symm⟩
    · rintro ⟨b,bs,hb,hbs,rfl⟩
      exact ⟨b,hb,bs,hbs,rfl⟩

theorem mapM_decodeMember (members : List Member) : (members.map memberElement).mapM decodeMember = .ok members := by
  rw [mapM_eq_ok,forall₂_map_left_iff,forall₂_same]
  intro m _
  exact decodeMember_memberElement m

variable {s : TopologyState}

/-- The reader takes the message of a topology back to the topology, within its own limits. -/
theorem decodeMessage_toPb (h : Valid c) :
    decodeMessage c.toPb = .ok s ↔
      s = c ∧ c.members.length ≤ maxTopologyMembers ∧ tokenCount c.members ≤ maxTopologyTokens := by
  obtain ⟨hinit,hversion,hschema,_⟩ := foldl_addMember_rest c.members
    { clusterHasInit := c.clusterHasInit
      version := ofNat c.version
      schemaVersion := schemaVersion
      activeBatch := c.activeBatch.map fun b => ⟨toPbType b.type,ofNat b.epoch⟩ }
  have hinit : c.toPb.clusterHasInit = c.clusterHasInit := hinit
  have hversion : c.toPb.version = ofNat c.version := hversion
  have hschema : c.toPb.schemaVersion = schemaVersion := hschema
  have hnat : (ofNat c.version).toNat = c.version := by
    rw [toNat_ofNat']
    exact Nat.mod_eq_of_lt h.version_lt
  have hlen : (c.toPb.members.map fun e => e.2.tokens.length).sum = tokenCount c.members := by
    rw [toPb_members h,map_map]
    rfl
  have hstate : (⟨c.clusterHasInit,c.version,c.members,c.activeBatch⟩ : TopologyState) = c := rfl
  simp only [decodeMessage,bind_eq_ok,checkFailReturnStatus_eq_ok,hschema,hinit,hversion,
    hnat,checkTokenCount_eq_ok (Nat.zero_le _),hlen,decodeActiveBatch_toPb h,decide_true,
    decide_eq_true_eq,exists_const,Nat.zero_add,true_and]
  rw [toPb_members h,mapM_decodeMember,length_map]
  simp only [Except.ok.injEq,hstate,h.validate,exists_eq_left']
  constructor
  · rintro ⟨hmembers,htokens,rfl⟩
    exact ⟨rfl,hmembers,htokens⟩
  · rintro ⟨rfl,hmembers,htokens⟩
    exact ⟨hmembers,htokens,rfl⟩

end Message

/-- The same topology up to the order of the members and of the tokens of each. -/
structure SameTopology (s c : TopologyState) : Prop where
  clusterHasInit : c.clusterHasInit = s.clusterHasInit
  version : c.version = s.version
  activeBatch : c.activeBatch = s.activeBatch
  members : ∃ l : List Member, l.Perm s.members ∧ List.Forall₂ (fun m m' =>
    m'.identity = m.identity ∧ m'.state = m.state ∧ m'.tokens.Perm m.tokens) l c.members

variable {s c : TopologyState}

theorem sameTopology_of_validate (h : validateAndCanonicalizeTopologyState s = .ok c) : SameTopology s c := by
  obtain ⟨rfl,_⟩ := validateAndCanonicalizeTopologyState_eq_ok.mp h
  refine ⟨rfl,rfl,rfl,_,perm_insertionSort (fun a b => a.identity.address ≤ b.identity.address) s.members,?_⟩
  rw [canonicalMembers,forall₂_map_right_iff,forall₂_same]
  intro m _
  exact ⟨rfl,rfl,perm_insertionSort _ m.tokens⟩

theorem SameTopology.length_eq (h : SameTopology s c) : c.members.length = s.members.length := by
  obtain ⟨l,hperm,hall⟩ := h.members
  rw [← hall.length_eq,hperm.length_eq]

theorem SameTopology.tokenCount_eq (h : SameTopology s c) : tokenCount c.members = tokenCount s.members := by
  obtain ⟨l,hperm,hall⟩ := h.members
  have hlengths : l.map (fun m => m.tokens.length) = c.members.map fun m => m.tokens.length := by
    rw [← forall₂_eq_eq_eq,forall₂_map_left_iff,forall₂_map_right_iff]
    exact hall.imp fun _ _ hm => hm.2.2.length_eq.symm
  rw [tokenCount,← hlengths]
  exact (hperm.map _).sum_eq

theorem tokens_of_decodeMember {entry : Bytes × MembershipPb} {m : Member}
    (h : decodeMember entry = .ok m) : m.tokens.length = entry.2.tokens.length := by
  simp only [decodeMember,bind_eq_ok,checkFailReturnStatus_eq_ok,exists_const] at h
  rw [← Except.ok.inj h.2]

variable {pb : Protobuf} {v : Bytes}

theorem serializeCanonical_eq_ok {message : ClusterTopologyPb} : serializeCanonical pb message = .ok v ↔
      pb.serializeToString message = some v ∧ v.length ≤ maxValueBytes := by
  unfold serializeCanonical
  cases pb.serializeToString message with
  | none => simp
  | some encoded =>
    simp only [bind_eq_ok,checkFailReturnStatus_eq_ok,decide_eq_true_eq,exists_const,Option.some.injEq]
    constructor
    · rintro ⟨hle,hv⟩
      cases hv
      exact ⟨rfl,hle⟩
    · rintro ⟨rfl,hle⟩
      exact ⟨hle,rfl⟩

theorem encodeTopology_eq_ok : encodeTopology pb s = .ok v ↔ ∃ c, validateAndCanonicalizeTopologyState s = .ok c ∧
      pb.serializeToString c.toPb = some v ∧ v.length ≤ maxValueBytes := by
  simp only [encodeTopology,bind_eq_ok,serializeCanonical_eq_ok]

theorem valid_of_decodeTopology (h : decodeTopology pb v = .ok s) : Valid s := by
  simp only [decodeTopology,bind_eq_ok] at h
  obtain ⟨_,_,h⟩ := h
  split at h
  · cases h
  · simp only [decodeMessage,bind_eq_ok] at h
    obtain ⟨_,_,_,_,_,_,_,_,_,_,hvalid⟩ := h
    exact (validateAndCanonicalizeTopologyState_eq_ok.mp hvalid).2

theorem decodeTopology_serialized (hpb : pb.RoundTrips) {c s : TopologyState} (hc : Valid c)
    (hv : pb.serializeToString c.toPb = some v) (hle : v.length ≤ maxValueBytes) :
    decodeTopology pb v = .ok s ↔ s = c ∧ c.members.length ≤ maxTopologyMembers ∧
      tokenCount c.members ≤ maxTopologyTokens := by
  simp only [decodeTopology,bind_eq_ok,checkFailReturnStatus_eq_ok,decide_eq_true_eq,
    exists_const,hpb _ _ hv,hle,true_and]
  exact decodeMessage_toPb hc

theorem limits_of_decodeTopology (h : decodeTopology pb v = .ok s) :
    s.members.length ≤ maxTopologyMembers ∧ tokenCount s.members ≤ maxTopologyTokens := by
  simp only [decodeTopology,bind_eq_ok] at h
  obtain ⟨_,_,h⟩ := h
  split at h
  · cases h
  · rename_i message _
    simp only [decodeMessage,bind_eq_ok,checkFailReturnStatus_eq_ok,decide_eq_true_eq,
      checkTokenCount_eq_ok (Nat.zero_le _),Nat.zero_add,exists_const] at h
    obtain ⟨_,hlen,htokens,members,hmembers,_,_,hvalid⟩ := h
    have hsame := sameTopology_of_validate hvalid
    have hlengths : members.map (fun m => m.tokens.length) = message.members.map fun e => e.2.tokens.length := by
      rw [← forall₂_eq_eq_eq,forall₂_map_left_iff,forall₂_map_right_iff]
      exact (mapM_eq_ok.mp hmembers).flip.imp fun _ _ he => tokens_of_decodeMember he
    rw [hsame.length_eq,hsame.tokenCount_eq,tokenCount,hlengths]
    exact ⟨(mapM_eq_ok.mp hmembers).length_eq ▸ hlen,htokens⟩

/-- Reading an encoded topology gives its canonical form exactly when the topology is within the
limits of the reader. Whatever was read encodes and reads back to itself exactly when its own
serialization is within the size limit. -/
theorem decode_encode_topology_iff (pb : Protobuf) (hpb : pb.RoundTrips) : (∀ s v, encodeTopology pb s = .ok v →
      ((∃ c, decodeTopology pb v = .ok c ∧ validateAndCanonicalizeTopologyState s = .ok c ∧ SameTopology s c) ↔
        s.members.length ≤ maxTopologyMembers ∧ tokenCount s.members ≤ maxTopologyTokens)) ∧
    (∀ v s, decodeTopology pb v = .ok s → ((∃ v', encodeTopology pb s = .ok v' ∧ decodeTopology pb v' = .ok s) ↔
        ∃ v', pb.serializeToString s.toPb = some v' ∧ v'.length ≤ maxValueBytes)) := by
  constructor
  · intro s v hencode
    obtain ⟨c,hc,hv,hle⟩ := encodeTopology_eq_ok.mp hencode
    have hvalid := (validateAndCanonicalizeTopologyState_eq_ok.mp hc).2
    have hsame := sameTopology_of_validate hc
    rw [← hsame.length_eq,← hsame.tokenCount_eq]
    constructor
    · rintro ⟨c',hdecode,_,_⟩
      exact ((decodeTopology_serialized hpb hvalid hv hle).mp hdecode).2
    · intro hlimits
      exact ⟨c,(decodeTopology_serialized hpb hvalid hv hle).mpr ⟨rfl,hlimits⟩,hc,hsame⟩
  · intro v s hdecode
    have hvalid := valid_of_decodeTopology hdecode
    constructor
    · rintro ⟨v',hencode,_⟩
      obtain ⟨c,hc,hv',hle⟩ := encodeTopology_eq_ok.mp hencode
      obtain rfl := Except.ok.inj (hvalid.validate.symm.trans hc)
      exact ⟨v',hv',hle⟩
    · rintro ⟨v',hv',hle⟩
      exact ⟨v',encodeTopology_eq_ok.mpr ⟨s,hvalid.validate,hv',hle⟩,
        (decodeTopology_serialized hpb hvalid hv' hle).mpr ⟨rfl,limits_of_decodeTopology hdecode⟩⟩

def denseTopology (n : Nat) : TopologyState :=
  ⟨true,1,[sampleMember 1 .active ((List.range n).map UInt32.ofNat)],none⟩

theorem denseTopology_valid {n : Nat} (hpos : 0 < n) (h : n ≤ 2 ^ 32) : Valid (denseTopology n) := by
  have hlt : ((List.range n).map UInt32.ofNat).Pairwise (· < ·) := by
    rw [pairwise_map]
    refine pairwise_lt_range.imp_of_mem ?_
    intro a b ha hb hab
    have ha := mem_range.mp ha
    have hb := mem_range.mp hb
    rw [UInt32.lt_iff_toNat_lt,UInt32.toNat_ofNat',UInt32.toNat_ofNat',
      Nat.mod_eq_of_lt (by omega),Nat.mod_eq_of_lt (by omega)]
    exact hab
  have hne : (List.range n).map UInt32.ofNat ≠ [] := by
    intro hnil
    have := congrArg List.length hnil
    simp at this
    omega
  have hone : ∀ m ∈ (denseTopology n).members, m = sampleMember 1 .active ((List.range n).map UInt32.ofNat) := by
    intro m hm
    exact mem_singleton.mp hm
  constructor
  case version_pos => exact Nat.one_pos
  case version_le =>
    change 1 ≤ _
    decide
  case epoch => intro b hb; cases hb
  case batchStates =>
    refine ⟨?_,(fun b hb => by cases hb),(fun b hb => by cases hb)⟩
    intro _ m hm
    rw [hone m hm]
    rfl
  case address =>
    intro m hm
    rw [hone m hm]
    change isValidAddress (sampleMember 1 .active []).identity.address = true
    decide +kernel
  case id =>
    intro m hm
    rw [hone m hm]
    rfl
  case addresses_sorted => exact pairwise_singleton _ _
  case ids_nodup => exact nodup_singleton _
  case tokens_nodup =>
    have : (denseTopology n).members.flatMap Member.tokens = (List.range n).map UInt32.ofNat := append_nil _
    rw [this]
    exact hlt.imp fun hab => hab.ne
  case tokens_sorted =>
    intro m hm
    rw [hone m hm]
    exact hlt.imp fun hab => hab.le
  case owner =>
    intro _
    exact ⟨_,mem_singleton.mpr rfl,rfl,hne⟩

theorem denseTopology_serialized {n : Nat} (hpos : 0 < n) (h : n ≤ 100000) :
    ∃ v, protobufWire.serializeToString (denseTopology n).toPb = some v ∧ v.length ≤ maxValueBytes := by
  have hvalid := denseTopology_valid hpos (by omega)
  have hsize := (denseTopology n).toPb.length_encode_fields_le
  have hschema : (denseTopology n).toPb.schemaVersion.length = 1 := by
    rw [TopologyState.toPb,(foldl_addMember_rest _ _).2.2.1]
    rfl
  have hmembers : ((denseTopology n).toPb.members.map fun e =>
      120 + e.1.length + e.2.id.length + 10 * e.2.tokens.length).sum = 147 + 10 * n := by
    rw [toPb_members hvalid]
    simp [denseTopology,memberElement,sampleMember]
  rw [hschema,hmembers] at hsize
  refine ⟨_,protobufWire_serialize ?_,?_⟩
  · rw [maxMessageBytes]
    omega
  · rw [maxValueBytes]
    omega

/-- A topology within the limits is read back in the wire format. -/
theorem decode_encode_topology_iff_wire : ∃ v c,
    encodeTopology protobufWire (denseTopology 4) = .ok v ∧ decodeTopology protobufWire v = .ok c ∧
      SameTopology (denseTopology 4) c := by
  have hvalid := denseTopology_valid (n := 4) (by decide) (by decide)
  obtain ⟨v,hv,hle⟩ := denseTopology_serialized (n := 4) (by decide) (by decide)
  have hencode := encodeTopology_eq_ok.mpr ⟨_,hvalid.validate,hv,hle⟩
  obtain ⟨c,hdecode,_,hsame⟩ :=
    ((decode_encode_topology_iff protobufWire protobufWire_roundTrips).1 _ v hencode).mpr (by decide)
  exact ⟨v,c,hencode,hdecode,hsame⟩

/-- The encoder writes a topology with one token more than the decoder takes. -/
theorem dense_topology_written_not_read : ∃ v,
    encodeTopology protobufWire (denseTopology (maxTopologyTokens + 1)) = .ok v ∧
      ∀ s, decodeTopology protobufWire v ≠ .ok s := by
  have hvalid := denseTopology_valid (n := maxTopologyTokens + 1) (by decide) (by decide)
  obtain ⟨v,hv,hle⟩ := denseTopology_serialized (n := maxTopologyTokens + 1) (by decide) (by decide)
  refine ⟨v,encodeTopology_eq_ok.mpr ⟨_,hvalid.validate,hv,hle⟩,?_⟩
  intro s hs
  have hlimit := ((decodeTopology_serialized protobufWire_roundTrips hvalid hv hle).mp hs).2.2
  have hcount : tokenCount (denseTopology (maxTopologyTokens + 1)).members = maxTopologyTokens + 1 := by
    simp [tokenCount,denseTopology,sampleMember]
  omega

end Datasystem.Cluster
