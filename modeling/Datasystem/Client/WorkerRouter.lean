import Datasystem.Cluster.ScaleBatch

/-!
# Where a client sends a request for a key

A client walks over the tokens of the active and the leaving members from the hash of the key on; the state filter
passes only the active ones. A worker stands for its address, which a valid topology has in the form it prints in.
-/

namespace Datasystem.Client

open Cluster TokenRing List MemberIdentity

def isRoutable (m : Member) : Bool :=
  (m.state = .active || m.state = .leaving) && (HostPort.parseString m.identity.address).isSome

variable (members : List Member) (healthy : Bytes → Bool) (exclude : List Bytes) (key : Bytes)

def buildTokenIndex : List (UInt32 × MemberIdentity) := memberRing isRoutable members

def getRingState (address : Bytes) : Option MemberState :=
  (members.find? fun m => m.identity.address = address).map Member.state

/-- The state filter, and all the others. -/
def isWorkerAvailable (address : Bytes) : Bool := getRingState members address = some .active && healthy address

def isSelectable (worker : MemberIdentity) : Bool :=
  worker.address ∉ exclude && isWorkerAvailable members healthy worker.address

/-- `SelectWorkerFromView` for the policy that prefers the owner of the metadata. -/
def selectMetaOwner : Except Status Bytes :=
  let index := buildTokenIndex members
  if index.isEmpty then .error ⟨.notFound,"Hash ring is empty, no routable workers"⟩
  else
    match (walk index (murmurHash3_32 key 0)).find? fun slot => isSelectable members healthy exclude slot.2 with
    | some slot => .ok slot.2.address
    | none => .error ⟨.noAvailableWorker,"All workers filtered or excluded"⟩

/-- The members that a client may send to. -/
def accepts (m : Member) : Bool := m.state = .active && healthy m.identity.address && m.identity.address ∉ exclude

variable {members}

theorem getRingState_of_mem (h : WellFormed members) {m : Member} (hm : m ∈ members) :
    getRingState members m.identity.address = some m.state := by
  rw [getRingState,h.find?_address hm]
  rfl

variable (snapshot : TopologySnapshot) (healthy : Bytes → Bool) (exclude : List Bytes) (key : Bytes)

theorem mem_accepted {p : UInt32 × MemberIdentity} : p ∈ (buildTokenIndex snapshot.state.members).filter (fun slot =>
    isSelectable snapshot.state.members healthy exclude slot.2) ↔
      p ∈ memberRing (accepts healthy exclude) snapshot.state.members := by
  simp only [mem_filter,buildTokenIndex,mem_memberRing]
  constructor
  · rintro ⟨⟨m,hm,_,ht,hp⟩,havailable⟩
    rw [hp,isSelectable,isWorkerAvailable,getRingState_of_mem snapshot.valid.wellFormed hm] at havailable
    exact ⟨m,hm,by simp_all [accepts],ht,hp⟩
  · rintro ⟨m,hm,haccepts,ht,hp⟩
    have hparse := snapshot.valid.address m hm
    refine ⟨⟨m,hm,?_,ht,hp⟩,?_⟩
    · simp only [isValidAddress,HostPort.isCanonical,Bool.and_eq_true,Option.any_eq_true] at hparse
      obtain ⟨_,hp,hparse,_⟩ := hparse
      simp_all [accepts,isRoutable]
    · rw [hp,isSelectable,isWorkerAvailable,getRingState_of_mem snapshot.valid.wellFormed hm]
      simp_all [accepts]

theorem toOption_selectMetaOwner : (selectMetaOwner snapshot.state.members healthy exclude key).toOption =
    (ownerOf (memberRing (accepts healthy exclude) snapshot.state.members) (murmurHash3_32 key 0)).map address := by
  have hwf := snapshot.valid.wellFormed
  have hindex := hwf.memberRing_ordered isRoutable
  have hfind : (walk (buildTokenIndex snapshot.state.members) (murmurHash3_32 key 0)).find? (fun slot =>
      isSelectable snapshot.state.members healthy exclude slot.2) =
        find (memberRing (accepts healthy exclude) snapshot.state.members) (murmurHash3_32 key 0) := by
    rw [buildTokenIndex,hindex.find?_walk]
    ext p
    rw [Ordered.find_eq_some (Pairwise.filter _ hindex),(hwf.memberRing_ordered _).find_eq_some]
    have hmem := fun p => mem_accepted snapshot healthy exclude (p := p)
    exact ⟨fun h => h.congr hmem,fun h => h.congr fun p => (hmem p).symm⟩
  rw [ownerOf,Option.map_map,← hfind,selectMetaOwner]
  split
  · rename_i hempty
    rw [isEmpty_iff.mp hempty]
    rfl
  · cases (walk (buildTokenIndex snapshot.state.members) (murmurHash3_32 key 0)).find? _ <;> rfl

variable {snapshot healthy exclude} in
theorem ownerOf_accepted {t : UInt32} {owner : Member} (hlocate : snapshot.locateOwner t = .ok owner)
    (haccepts : accepts healthy exclude owner = true) :
    ownerOf (memberRing (accepts healthy exclude) snapshot.state.members) t = some owner.identity := by
  have hwf := snapshot.valid.wellFormed
  have hcommitted : ∀ m, accepts healthy exclude m = true → isCommittedMemberState m.state = true := by
    intro m hm
    simp only [accepts,Bool.and_eq_true,decide_eq_true_eq] at hm
    rw [hm.1.1]
    rfl
  have hmem : owner ∈ snapshot.state.members := by
    simp only [TopologySnapshot.locateOwner,TopologySnapshot.locateIndexedOwner] at hlocate
    split at hlocate
    · rename_i k owner' hfind
      cases hlocate
      have howns := (build_ordered (hwf.tokenPoints_nodup _ _)).find_eq_some.mp hfind
      obtain ⟨m,hm,_,_,rfl⟩ := mem_tokenPoints.mp (mem_build.mp howns.1)
      exact hm
    · cases hlocate
  obtain ⟨m,hm,_,hid,k,hk,howns⟩ := hwf.ownerOf_eq_some (locateOwner_iff.mp ⟨owner,hlocate,hmem,hcommitted owner haccepts,rfl⟩)
  obtain rfl := hwf.eq_of_address hm hmem (congrArg address hid)
  have howns' : Owns (memberRing (accepts healthy exclude) snapshot.state.members) t (k, m.identity) := by
    refine howns.of_subset ?_ (mem_memberRing.mpr ⟨m,hm,haccepts,hk,rfl⟩)
    intro p hp
    obtain ⟨m',hm',haccepts',hp⟩ := mem_memberRing.mp hp
    exact mem_memberRing.mpr ⟨m',hm',hcommitted m' haccepts',hp⟩
  rw [ownerOf,(hwf.memberRing_ordered _).find_eq_some.mpr howns']
  rfl

end Datasystem.Client
