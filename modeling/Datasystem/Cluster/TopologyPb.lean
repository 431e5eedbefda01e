import Datasystem.Lib.Keyed
import Datasystem.Lib.Wire

/-!
# Topology messages

Parsing takes fields in any order, the last value of a field wins and repeated fields accumulate.
-/

namespace Datasystem.Cluster

open Keyed Wire
open List hiding lookup

structure MembershipPb where
  tokens : List UInt32 := []
  id : Bytes := []
  state : Int32 := 0
deriving DecidableEq, Repr

structure ChangeBatchPb where
  type : Int32 := 0
  epoch : UInt64 := 0
deriving DecidableEq, Repr

theorem MembershipPb.sorted_nil : Sorted Prod.fst ([] : List (Bytes × MembershipPb)) := List.Pairwise.nil

structure ClusterTopologyPb where
  clusterHasInit : Bool := false
  members : List (Bytes × MembershipPb) := []
  version : UInt64 := 0
  schemaVersion : Bytes := []
  activeBatch : Option ChangeBatchPb := none
  sorted : Sorted Prod.fst members := by exact MembershipPb.sorted_nil
deriving DecidableEq

/-- What the serialization library offers for topology messages. Serialization fails on messages
beyond the size limit of the library. -/
structure Protobuf where
  serializeToString : ClusterTopologyPb → Option Bytes
  parseFromString : Bytes → Option ClusterTopologyPb

/-- Whatever the library serializes parses to the same message. -/
def Protobuf.RoundTrips (pb : Protobuf) : Prop :=
  ∀ message value, pb.serializeToString message = some value →
    pb.parseFromString value = some message

section Fields

open Wire

/-- Enumerators are written as sign-extended 64-bit numbers. -/
def enumNumber (value : Int32) : UInt64 := value.toInt64.toUInt64

def numberEnum (n : UInt64) : Int32 := n.toUInt32.toInt32

theorem numberEnum_enumNumber (value : Int32) : numberEnum (enumNumber value) = value := by
  apply Int32.toBitVec_inj.mp
  simp only [numberEnum,enumNumber]
  apply BitVec.eq_of_getLsbD_eq
  intro i hi
  simp [hi,BitVec.getLsbD_signExtend]
  omega

def MembershipPb.fields (m : MembershipPb) : List Field :=
  bytesField 1 (pack (m.tokens.map UInt32.toUInt64)) ++ bytesField 2 m.id ++
    numberField 3 (enumNumber m.state)

def MembershipPb.mergeField (m : MembershipPb) (f : Field) : Option MembershipPb :=
  match f with
  | ⟨1,.bytes b⟩ =>
    (unpack b).map fun ns => { m with tokens := m.tokens ++ ns.map UInt64.toUInt32 }
  | ⟨1,.number n⟩ => some { m with tokens := m.tokens ++ [n.toUInt32] }
  | ⟨2,.bytes b⟩ => some { m with id := b }
  | ⟨3,.number n⟩ => some { m with state := numberEnum n }
  | _ => some m

def MembershipPb.parse (b : Bytes) : Option MembershipPb :=
  (decode b).bind fun fields => fields.foldlM MembershipPb.mergeField {}

def ChangeBatchPb.fields (c : ChangeBatchPb) : List Field :=
  numberField 1 (enumNumber c.type) ++ numberField 2 c.epoch

def ChangeBatchPb.mergeField (c : ChangeBatchPb) (f : Field) : ChangeBatchPb :=
  match f with
  | ⟨1,.number n⟩ => { c with type := numberEnum n }
  | ⟨2,.number n⟩ => { c with epoch := n }
  | _ => c

/-- An entry of the member map; both parts are always written. -/
def memberEntry (address : Bytes) (m : MembershipPb) : List Field := [⟨1,.bytes address⟩,⟨2,.bytes (encode m.fields)⟩]

def mergeEntryField (entry : Bytes × MembershipPb) (f : Field) : Option (Bytes × MembershipPb) :=
  match f with
  | ⟨1,.bytes b⟩ => some (b, entry.2)
  | ⟨2,.bytes b⟩ => (MembershipPb.parse b).map fun m => (entry.1, m)
  | _ => some entry

def parseEntry (b : Bytes) : Option (Bytes × MembershipPb) :=
  (decode b).bind fun fields => fields.foldlM mergeEntryField ([], {})

namespace ClusterTopologyPb

def memberField (entry : Bytes × MembershipPb) : Field := ⟨2,.bytes (encode (memberEntry entry.1 entry.2))⟩

def batchFields (batch : Option ChangeBatchPb) : List Field := batch.toList.map fun c => ⟨5,.bytes (encode c.fields)⟩

def fields (m : ClusterTopologyPb) : List Field :=
  numberField 1 m.clusterHasInit.toUInt64 ++ m.members.map memberField ++ numberField 3 m.version ++
    bytesField 4 m.schemaVersion ++ batchFields m.activeBatch

/-- The element of the map at an address, created when it is not there, replaced by `f` of it. -/
def setMember (m : ClusterTopologyPb) (address : Bytes) (f : MembershipPb → MembershipPb) : ClusterTopologyPb :=
  let found := ((lookup Prod.fst address m.members).map Prod.snd).getD {}
  { m with
    members := upsert Prod.fst (address, f found) m.members
    sorted := m.sorted.upsert _ }

def mergeField (m : ClusterTopologyPb) (f : Field) : Option ClusterTopologyPb :=
  match f with
  | ⟨1,.number n⟩ => some { m with clusterHasInit := n ≠ 0 }
  | ⟨2,.bytes b⟩ => (parseEntry b).map fun entry => m.setMember entry.1 fun _ => entry.2
  | ⟨3,.number n⟩ => some { m with version := n }
  | ⟨4,.bytes b⟩ => some { m with schemaVersion := b }
  | ⟨5,.bytes b⟩ =>
    (decode b).map fun fields =>
      { m with activeBatch := some (fields.foldl ChangeBatchPb.mergeField (m.activeBatch.getD {})) }
  | _ => some m

end ClusterTopologyPb

/-- Messages of 2 GiB and more are not serialized. -/
def maxMessageBytes : Nat := 2 ^ 31

/-- The library on the wire format. -/
def protobufWire : Protobuf where
  serializeToString m :=
    let bytes := encode m.fields
    if bytes.length < maxMessageBytes then some bytes else none
  parseFromString b := (decode b).bind fun fields => fields.foldlM ClusterTopologyPb.mergeField {}

variable {m : ClusterTopologyPb}

theorem protobufWire_serialize (h : (encode m.fields).length < maxMessageBytes) :
    protobufWire.serializeToString m = some (encode m.fields) :=
  if_pos h

theorem MembershipPb.parse_encode {m : MembershipPb} (h : (encode m.fields).length < maxMessageBytes) :
    MembershipPb.parse (encode m.fields) = some m := by
  have hid : ∀ f ∈ m.fields, f.id < maxFieldId := by
    intro f hf
    simp only [MembershipPb.fields,mem_append] at hf
    rcases hf with (hf | hf) | hf
    · simp [id_of_mem_bytesField hf,maxFieldId]
    · simp [id_of_mem_bytesField hf,maxFieldId]
    · simp [id_of_mem_numberField hf,maxFieldId]
  have htokens : (bytesField 1 (pack (m.tokens.map UInt32.toUInt64))).foldlM
      MembershipPb.mergeField {} = some { tokens := m.tokens } := by
    apply foldlM_bytesField
    · intro hnil
      have hunpack := unpack_pack (m.tokens.map UInt32.toUInt64)
      rw [hnil] at hunpack
      have : m.tokens = [] := by simpa [unpack,takeVarints] using hunpack
      rw [this]
    · have hback : m.tokens.map (UInt64.toUInt32 ∘ UInt32.toUInt64) = m.tokens := by
        simp [Function.comp_def]
      simp [MembershipPb.mergeField,unpack_pack,hback]
  have hids : (bytesField 2 m.id).foldlM MembershipPb.mergeField { tokens := m.tokens } =
      some { tokens := m.tokens, id := m.id } :=
    foldlM_bytesField (fun hnil => by rw [hnil]) rfl
  have hstate : (numberField 3 (enumNumber m.state)).foldlM MembershipPb.mergeField
      { tokens := m.tokens, id := m.id } = some m := by
    apply foldlM_numberField
    · intro hzero
      have : m.state = 0 := by
        rw [← numberEnum_enumNumber m.state,hzero]
        rfl
      cases m
      simp_all
    · simp [MembershipPb.mergeField,numberEnum_enumNumber]
  rw [MembershipPb.parse,decode_encode hid h,Option.bind_some,MembershipPb.fields,foldlM_append,foldlM_append,htokens]
  simp [hids,hstate]

theorem parseEntry_encode {address : Bytes} {m : MembershipPb}
    (h : (encode (memberEntry address m)).length < maxMessageBytes) :
    parseEntry (encode (memberEntry address m)) = some (address, m) := by
  have hid : ∀ f ∈ memberEntry address m, f.id < maxFieldId := by
    simp [memberEntry,maxFieldId]
  have hm : (encode m.fields).length < maxMessageBytes := by
    have hlt : (encode m.fields).length < (encode (memberEntry address m)).length :=
      length_bytes_lt_encode (mem_cons_of_mem _ mem_cons_self)
    exact lt_trans hlt h
  rw [parseEntry,decode_encode hid h,Option.bind_some]
  simp [memberEntry,mergeEntryField,MembershipPb.parse_encode hm]

theorem ChangeBatchPb.foldl_fields (c : ChangeBatchPb) : c.fields.foldl ChangeBatchPb.mergeField {} = c := by
  obtain ⟨type,epoch⟩ := c
  have hzero : enumNumber type = 0 → type = 0 := by
    intro h
    rw [← numberEnum_enumNumber type,h]
    rfl
  by_cases ht : enumNumber type = 0 <;> by_cases he : epoch = 0 <;>
    simp_all [ChangeBatchPb.fields,numberField,ChangeBatchPb.mergeField,numberEnum_enumNumber]

namespace ClusterTopologyPb

theorem id_lt_maxFieldId {f : Field} (hf : f ∈ m.fields) : f.id < maxFieldId := by
  simp only [fields,mem_append,mem_map,batchFields] at hf
  rcases hf with (((hf | ⟨entry,_,rfl⟩) | hf) | hf) | ⟨c,_,rfl⟩
  · simp [id_of_mem_numberField hf,maxFieldId]
  · simp [memberField,maxFieldId]
  · simp [id_of_mem_numberField hf,maxFieldId]
  · simp [id_of_mem_bytesField hf,maxFieldId]
  · simp [maxFieldId]

theorem foldlM_members {m m' : ClusterTopologyPb} {entries : List (Bytes × MembershipPb)}
    (hsorted : Sorted Prod.fst (m.members ++ entries))
    (hlen : ∀ e ∈ entries, (encode (memberEntry e.1 e.2)).length < maxMessageBytes)
    (hm' : m' = { m with members := m.members ++ entries, sorted := hsorted }) :
    (entries.map memberField).foldlM mergeField m = some m' := by
  induction entries generalizing m with
  | nil =>
    cases m
    simp_all
  | cons e entries ih =>
    have hlt : ∀ a ∈ m.members, a.1 < e.1 := by
      intro a ha
      exact (pairwise_append.mp hsorted).2.2 a ha e mem_cons_self
    have happend : m.members ++ e :: entries = (m.members ++ [e]) ++ entries := by simp
    have hset : (m.setMember e.1 fun _ => e.2).members = m.members ++ [e] := upsert_eq_append hlt
    rw [map_cons,foldlM_cons]
    simp only [memberField,mergeField,parseEntry_encode (hlen e mem_cons_self),
      Option.map_some,Option.bind_eq_bind,Option.bind_some]
    apply ih
    · intro x hx
      exact hlen x (mem_cons_of_mem _ hx)
    · rw [hm']
      simp only [hset,happend,mk.injEq]
      exact ⟨rfl,trivial,rfl,rfl,rfl⟩
    · rw [hset,← happend]
      exact hsorted

theorem foldlM_batch (hlen : (encode m.fields).length < maxMessageBytes) :
    (batchFields m.activeBatch).foldlM mergeField { m with activeBatch := none } = some m := by
  obtain ⟨init,members,version,schema,batch,sorted⟩ := m
  cases batch with
  | none => rfl
  | some c =>
    have hmem : (⟨5,.bytes (encode c.fields)⟩ : Field) ∈ fields ⟨init,members,version,schema,some c,sorted⟩ := by
      simp [fields,batchFields]
    have hid : ∀ f ∈ c.fields, f.id < maxFieldId := by
      intro f hf
      rcases mem_append.mp hf with hf | hf <;> simp [id_of_mem_numberField hf,maxFieldId]
    have hc := decode_encode hid (lt_trans (length_bytes_lt_encode hmem) hlen)
    simp [batchFields,mergeField,hc,ChangeBatchPb.foldl_fields]

end ClusterTopologyPb

theorem protobufWire_roundTrips : protobufWire.RoundTrips := by
  intro m value hvalue
  have hlen : (encode m.fields).length < maxMessageBytes := by
    by_contra hlen
    simp [protobufWire,hlen] at hvalue
  obtain rfl : encode m.fields = value := by simpa [protobufWire,hlen] using hvalue
  have hentry : ∀ e ∈ m.members, (encode (memberEntry e.1 e.2)).length < maxMessageBytes := by
    intro e he
    have hmem : ClusterTopologyPb.memberField e ∈ m.fields := by
      simp only [ClusterTopologyPb.fields,mem_append,mem_map]
      exact Or.inl (Or.inl (Or.inl (Or.inr ⟨e,he,rfl⟩)))
    exact lt_trans (length_bytes_lt_encode hmem) hlen
  have hinit : (numberField 1 m.clusterHasInit.toUInt64).foldlM ClusterTopologyPb.mergeField {} =
      some { clusterHasInit := m.clusterHasInit } := by
    cases m.clusterHasInit <;> rfl
  have hmembers : (m.members.map ClusterTopologyPb.memberField).foldlM ClusterTopologyPb.mergeField
      { clusterHasInit := m.clusterHasInit } =
      some { clusterHasInit := m.clusterHasInit, members := m.members, sorted := m.sorted } :=
    ClusterTopologyPb.foldlM_members m.sorted hentry rfl
  have hversion : (numberField 3 m.version).foldlM ClusterTopologyPb.mergeField
      { clusterHasInit := m.clusterHasInit, members := m.members, sorted := m.sorted } =
      some { clusterHasInit := m.clusterHasInit, members := m.members, sorted := m.sorted,
             version := m.version } :=
    foldlM_numberField (fun hzero => by rw [hzero]) rfl
  have hschema : (bytesField 4 m.schemaVersion).foldlM ClusterTopologyPb.mergeField
      { clusterHasInit := m.clusterHasInit, members := m.members, sorted := m.sorted,
        version := m.version } =
      some { m with activeBatch := none } :=
    foldlM_bytesField (fun hnil => by rw [hnil]) rfl
  change (decode (encode m.fields)).bind _ = _
  rw [decode_encode (fun f hf => ClusterTopologyPb.id_lt_maxFieldId hf) hlen,Option.bind_some,ClusterTopologyPb.fields]
  simp only [foldlM_append,hinit,Option.bind_eq_bind,Option.bind_some]
  rw [hmembers]
  simp [hversion,hschema,ClusterTopologyPb.foldlM_batch hlen]

theorem length_encode_memberEntry_le (address : Bytes) (m : MembershipPb) :
    (encode (memberEntry address m)).length ≤ 100 + address.length + m.id.length + 10 * m.tokens.length := by
  have htokens := length_encode_bytesField_le 1 (pack (m.tokens.map UInt32.toUInt64))
  have hpack := length_pack_le (m.tokens.map UInt32.toUInt64)
  have hids := length_encode_bytesField_le 2 m.id
  have hstate := length_encode_numberField_le 3 (enumNumber m.state)
  have hkey := length_encode_bytes_le 1 address
  have hvalue := length_encode_bytes_le 2 (encode m.fields)
  rw [length_map] at hpack
  simp only [MembershipPb.fields,encode_append,length_append] at hvalue
  have hentry : (encode (memberEntry address m)).length = (Field.encode ⟨1,.bytes address⟩).length +
        (Field.encode ⟨2,.bytes (encode m.fields)⟩).length := by
    simp [encode,memberEntry]
  rw [hentry]
  simp only [MembershipPb.fields,encode_append]
  omega

theorem ClusterTopologyPb.length_encode_fields_le (m : ClusterTopologyPb) :
    (encode m.fields).length ≤ 120 + m.schemaVersion.length +
      (m.members.map fun e => 120 + e.1.length + e.2.id.length + 10 * e.2.tokens.length).sum := by
  have hinit := length_encode_numberField_le 1 m.clusterHasInit.toUInt64
  have hversion := length_encode_numberField_le 3 m.version
  have hschema := length_encode_bytesField_le 4 m.schemaVersion
  have hbatch : (encode (batchFields m.activeBatch)).length ≤ 60 := by
    cases m.activeBatch with
    | none => simp [batchFields,encode]
    | some c =>
      have htype := length_encode_numberField_le 1 (enumNumber c.type)
      have hepoch := length_encode_numberField_le 2 c.epoch
      have hc : (encode c.fields).length ≤ 40 := by
        rw [ChangeBatchPb.fields,encode_append,length_append]
        omega
      have hfield := length_encode_bytes_le 5 (encode c.fields)
      have hsplit : encode (batchFields (some c)) = Field.encode ⟨5,.bytes (encode c.fields)⟩ := by
        simp [batchFields,encode]
      rw [hsplit]
      omega
  have hmembers : ∀ entries : List (Bytes × MembershipPb), (encode (entries.map memberField)).length ≤
        (entries.map fun e => 120 + e.1.length + e.2.id.length + 10 * e.2.tokens.length).sum := by
    intro entries
    induction entries with
    | nil => simp [encode]
    | cons e entries ih =>
      have hentry := length_encode_memberEntry_le e.1 e.2
      have hfield := length_encode_bytes_le 2 (encode (memberEntry e.1 e.2))
      have hsplit : encode ((e :: entries).map memberField) =
          Field.encode (memberField e) ++ encode (entries.map memberField) := by
        simp [encode]
      rw [hsplit,length_append,map_cons,sum_cons,memberField]
      omega
  have hall := hmembers m.members
  simp only [fields,encode_append,length_append]
  omega

end Fields

end Datasystem.Cluster
