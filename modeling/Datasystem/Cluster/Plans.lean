import Datasystem.Cluster.OwnerChanges

/-!
# Plans over well-formed members

The members of a valid topology have distinct identifiers, addresses and tokens, so the rings of any of its
members are ordered and their comparison is determined by who owns which token.
-/

namespace Datasystem.Cluster

open TopologySnapshot List TokenRing Member

/-- Members with proper and distinct identifiers and addresses, and distinct tokens. -/
structure WellFormed (members : List Member) : Prop where
  identity : ∀ m ∈ members, m.identity.id.length = uuidSize ∧ m.identity.address ≠ []
  ids : (members.map fun m => m.identity.id).Nodup
  addresses : (members.map fun m => m.identity.address).Nodup
  tokens : (members.flatMap tokens).Nodup

variable {state : TopologyState}

theorem Valid.wellFormed (h : Valid state) : WellFormed state.members where
  identity m hm := by
    refine ⟨h.id m hm,?_⟩
    have haddr := h.address m hm
    simp only [isValidAddress,Bool.and_eq_true,Bool.not_eq_true',isEmpty_eq_false_iff] at haddr
    exact haddr.1.1
  ids := h.ids_nodup
  addresses := by
    rw [List.Nodup,pairwise_map]
    exact h.addresses_sorted.imp fun hlt => hlt.ne
  tokens := h.tokens_nodup

variable {members : List Member}

theorem WellFormed.eq_of_address (h : WellFormed members) {m m' : Member} (hm : m ∈ members) (hm' : m' ∈ members)
    (heq : m.identity.address = m'.identity.address) : m = m' :=
  inj_on_of_nodup_map h.addresses hm hm' heq

theorem WellFormed.find?_address (h : WellFormed members) {m : Member} (hm : m ∈ members) :
    members.find? (fun x => x.identity.address = m.identity.address) = some m :=
  Keyed.find?_of_nodup h.addresses hm

variable {u : Unit}

private theorem pairwise_seen_cons {α : Type*} {R : α → α → Prop} {a : α} {l seen : List α} :
    ((a :: l).Pairwise R ∧ ∀ x ∈ a :: l, ∀ s ∈ seen, R s x) ↔
      (∀ s ∈ seen, R s a) ∧ l.Pairwise R ∧ ∀ x ∈ l, ∀ s ∈ a :: seen, R s x := by
  simp only [pairwise_cons,forall_mem_cons,forall_and]
  tauto

private theorem nodup_identities {α : Type*} {i : α → MemberIdentity} {l : List α} :
    l.Pairwise (fun s m => (i s).id ≠ (i m).id ∧ (i s).address ≠ (i m).address) ↔
      (l.map fun m => (i m).id).Nodup ∧ (l.map fun m => (i m).address).Nodup := by
  simp only [List.Nodup,pairwise_map,pairwise_and_iff]

theorem validateAfter_eq_ok {seen members : List Member} {tokens : List UInt32} :
    validateAfter seen tokens members = .ok u ↔ WellFormed members ∧
      (∀ m ∈ members, ∀ s ∈ seen, s.identity.id ≠ m.identity.id ∧ s.identity.address ≠ m.identity.address) ∧
      ∀ t ∈ members.flatMap Member.tokens, t ∉ tokens := by
  have hiff : ∀ members, WellFormed members ↔ (∀ m ∈ members, m.identity.id.length = uuidSize ∧
      m.identity.address ≠ []) ∧ members.Pairwise (fun s m => s.identity.id ≠ m.identity.id ∧
        s.identity.address ≠ m.identity.address) ∧ (members.flatMap Member.tokens).Nodup := by
    intro members
    rw [nodup_identities]
    exact ⟨fun h => ⟨h.identity,⟨h.ids,h.addresses⟩,h.tokens⟩,fun h => ⟨h.1,h.2.1.1,h.2.1.2,h.2.2⟩⟩
  simp only [hiff,and_assoc]
  induction members generalizing seen tokens with
  | nil => simp [validateAfter]
  | cons m members ih =>
    rw [and_left_comm (a := Nodup _),← and_assoc (a := List.Pairwise _ _),pairwise_seen_cons,flatMap_cons,
      fresh_append,forall_mem_cons]
    simp only [validateAfter,Except.bind_eq_ok,checkFailReturnStatus_eq_ok,exists_const,
      insertTokens_eq_ok,ih,Bool.and_eq_true,decide_eq_true_eq,Bool.not_eq_true',
      isEmpty_eq_false_iff,all_eq_true,and_assoc,exists_eq_left]
    tauto

theorem validate_eq_ok : validate state = .ok u ↔ WellFormed state.members ∧
      (state.members = [] ∨ ∃ m ∈ state.members, isCommittedMemberState m.state = true) := by
  simp only [validate,Except.bind_eq_ok,exists_const,validateAfter_eq_ok,
    checkFailReturnStatus_eq_ok,Bool.or_eq_true,List.isEmpty_iff,any_eq_true]
  simp

structure PlanningIdentities (identities : List MemberIdentity) : Prop where
  proper : ∀ identity ∈ identities, identity.id.length = uuidSize ∧
    isValidAddress identity.address = true
  ids : (identities.map MemberIdentity.id).Nodup
  addresses : (identities.map MemberIdentity.address).Nodup

theorem validateIdentitiesAfter_eq_ok {seen identities : List MemberIdentity} :
    validateIdentitiesAfter seen identities = .ok u ↔ PlanningIdentities identities ∧
      ∀ i ∈ identities, ∀ s ∈ seen, s.id ≠ i.id ∧ s.address ≠ i.address := by
  have hiff : ∀ identities, PlanningIdentities identities ↔ (∀ i ∈ identities, i.id.length = uuidSize ∧
      isValidAddress i.address = true) ∧ identities.Pairwise fun s i => s.id ≠ i.id ∧ s.address ≠ i.address := by
    intro identities
    rw [nodup_identities (i := fun i => i)]
    exact ⟨fun h => ⟨h.proper,h.ids,h.addresses⟩,fun h => ⟨h.1,h.2.1,h.2.2⟩⟩
  simp only [hiff,and_assoc]
  induction identities generalizing seen with
  | nil => simp [validateIdentitiesAfter]
  | cons i identities ih =>
    rw [pairwise_seen_cons,forall_mem_cons]
    simp only [validateIdentitiesAfter,Except.bind_eq_ok,checkFailReturnStatus_eq_ok,exists_const,
      ih,Bool.and_eq_true,decide_eq_true_eq,Bool.not_eq_true',all_eq_true,isValidAddress]
    tauto

theorem validateIdentities_eq_ok {identities : List MemberIdentity} :
    validateIdentities identities = .ok u ↔ PlanningIdentities identities := by
  rw [validateIdentities,validateIdentitiesAfter_eq_ok]
  simp

theorem validateSelectedMembers_eq_ok {current : TopologyState} (h : WellFormed current.members)
    {selected : List MemberIdentity} :
    validateSelectedMembers current selected = .ok u ↔ ∀ i ∈ selected,
      ∃ m ∈ current.members, m.identity = i ∧ isCommittedMemberState m.state = true := by
  simp only [validateSelectedMembers,checkFailReturnStatus_eq_ok,all_eq_true,
    Option.any_eq_true,Bool.and_eq_true,decide_eq_true_eq]
  constructor
  · intro hsel i hi
    obtain ⟨m,hfind,heq,hc⟩ := hsel i hi
    exact ⟨m,mem_of_find?_eq_some hfind,heq,hc⟩
  · intro hsel i hi
    obtain ⟨m,hm,rfl,hc⟩ := hsel i hi
    exact ⟨m,h.find?_address hm,rfl,hc⟩

theorem Valid.planningIdentities (h : Valid state) (p : Member → Bool) :
    PlanningIdentities ((state.members.filter p).map identity) where
  proper i hi := by
    obtain ⟨m,hm,rfl⟩ := mem_map.mp hi
    have hmem := (mem_filter.mp hm).1
    exact ⟨h.id m hmem,h.address m hmem⟩
  ids := by
    rw [map_map]
    exact h.ids_nodup.sublist (filter_sublist.map _)
  addresses := by
    rw [map_map]
    exact h.wellFormed.addresses.sublist (filter_sublist.map _)

def memberRing (eligible : Member → Bool) (members : List Member) : List (UInt32 × MemberIdentity) :=
  build (tokenPoints eligible identity members)

variable {eligible : Member → Bool}

theorem mem_tokenPoints {β : Type} {value : Member → β} {p : UInt32 × β} : p ∈ tokenPoints eligible value members ↔
      ∃ m ∈ members, eligible m = true ∧ p.1 ∈ m.tokens ∧ p.2 = value m := by
  simp only [tokenPoints,mem_flatMap,mem_filter,mem_map]
  constructor
  · rintro ⟨m,⟨hm,he⟩,t,ht,rfl⟩
    exact ⟨m,hm,he,ht,rfl⟩
  · rintro ⟨m,hm,he,ht,hp⟩
    exact ⟨m,⟨hm,he⟩,p.1,ht,by rw [← hp]⟩

theorem mem_memberRing {p : UInt32 × MemberIdentity} : p ∈ memberRing eligible members ↔
      ∃ m ∈ members, eligible m = true ∧ p.1 ∈ m.tokens ∧ p.2 = m.identity :=
  mem_build.trans mem_tokenPoints

variable (h : WellFormed members)

include h

theorem WellFormed.tokenPoints_nodup {β : Type} (eligible : Member → Bool)
    (value : Member → β) : ((tokenPoints eligible value members).map Prod.fst).Nodup := by
  have hmap : (tokenPoints eligible value members).map Prod.fst = (members.filter eligible).flatMap Member.tokens := by
    simp [tokenPoints,map_flatMap,Function.comp_def]
  rw [hmap]
  exact h.tokens.sublist (filter_sublist.flatMap _)

theorem WellFormed.memberRing_ordered (eligible : Member → Bool) : Ordered (memberRing eligible members) :=
  build_ordered (h.tokenPoints_nodup eligible Member.identity)

theorem WellFormed.sameByAddress (p q : Member → Bool) :
    SameByAddress (memberRing p members ++ memberRing q members) := by
  have hmem : ∀ o ∈ memberRing p members ++ memberRing q members, ∃ m ∈ members, o.2 = m.identity := by
    intro o ho
    rcases mem_append.mp ho with ho | ho
    · obtain ⟨m,hm,_,_,heq⟩ := mem_memberRing.mp ho
      exact ⟨m,hm,heq⟩
    · obtain ⟨m,hm,_,_,heq⟩ := mem_memberRing.mp ho
      exact ⟨m,hm,heq⟩
  intro o ho o' ho' haddr
  obtain ⟨m,hm,heq⟩ := hmem o ho
  obtain ⟨m',hm',heq'⟩ := hmem o' ho'
  rw [heq,heq'] at haddr ⊢
  rw [h.eq_of_address hm hm' haddr]

theorem WellFormed.diff_spec (p q : Member → Bool) : ChangeSpec (Moves (memberRing p members) (memberRing q members))
      (diffOwners (memberRing p members) (memberRing q members)) :=
  diffOwners_spec (h.memberRing_ordered p) (h.memberRing_ordered q) (h.sameByAddress p q)

omit h

theorem buildOwners_eq_ok {includeJoining : Bool} {excluded : List Bytes} {activeOnly : Bool}
    {owners : List (UInt32 × MemberIdentity)} :
    buildOwners members includeJoining excluded activeOnly = .ok owners ↔
      (∃ m ∈ members, isEligible includeJoining excluded activeOnly m = true ∧ m.tokens ≠ []) ∧
        owners = memberRing (isEligible includeJoining excluded activeOnly) members := by
  simp only [buildOwners,Except.bind_eq_ok,checkFailReturnStatus_eq_ok,exists_const,
    Bool.not_eq_true',isEmpty_eq_false_iff]
  refine and_congr ?_ ?_
  · constructor
    · intro hne
      obtain ⟨p,hp⟩ := exists_mem_of_ne_nil _ hne
      obtain ⟨m,hm,he,ht,_⟩ := mem_tokenPoints.mp hp
      exact ⟨m,hm,he,ne_nil_of_mem ht⟩
    · rintro ⟨m,hm,he,hne⟩
      obtain ⟨t,ht⟩ := exists_mem_of_ne_nil _ hne
      exact ne_nil_of_mem (mem_tokenPoints.mpr ⟨m,hm,he,ht,rfl⟩ : (t, m.identity) ∈ _)
  · constructor
    · intro heq
      exact (Except.ok.inj heq).symm
    · rintro rfl
      rfl

theorem WellFormed.ownerOf_eq_some (h : WellFormed members) {t : UInt32} {identity : MemberIdentity}
    (ho : ownerOf (memberRing eligible members) t = some identity) :
    ∃ m ∈ members, eligible m = true ∧ m.identity = identity ∧
      ∃ k ∈ m.tokens, Owns (memberRing eligible members) t (k, identity) := by
  obtain ⟨p,hp,rfl⟩ := Option.map_eq_some_iff.mp ho
  have howns := (h.memberRing_ordered eligible).find_eq_some.mp hp
  obtain ⟨m,hm,he,ht,heq⟩ := mem_memberRing.mp howns.1
  exact ⟨m,hm,he,heq.symm,p.1,ht,howns⟩

theorem exists_ownerOf (h : ∃ m ∈ members, eligible m = true ∧ m.tokens ≠ []) (t : UInt32) :
    ∃ identity, ownerOf (memberRing eligible members) t = some identity := by
  obtain ⟨m,hm,he,hne⟩ := h
  obtain ⟨k,hk⟩ := exists_mem_of_ne_nil _ hne
  have hmem : (k, m.identity) ∈ memberRing eligible members := mem_memberRing.mpr ⟨m,hm,he,hk,rfl⟩
  cases hfind : find (memberRing eligible members) t with
  | none =>
    rw [find_eq_none.mp hfind] at hmem
    cases hmem
  | some p => exact ⟨p.2,by simp [ownerOf,hfind]⟩

/-- Rings depend only on the members that satisfy the condition. -/
theorem memberRing_congr {p q : Member → Bool} (h : ∀ m ∈ members, p m = q m) :
    memberRing p members = memberRing q members := by
  unfold memberRing tokenPoints
  rw [filter_congr h]

theorem memberRing_filter (p q : Member → Bool) (members : List Member) :
    memberRing p (members.filter q) = memberRing (fun m => p m && q m) members := by
  unfold memberRing tokenPoints
  rw [filter_filter]

/-- A change of states does not move the points of a ring. -/
theorem memberRing_map {p : Member → Bool} {f : Member → Member}
    (hf : ∀ m, (f m).identity = m.identity ∧ (f m).tokens = m.tokens) (members : List Member) :
    memberRing p (members.map f) = memberRing (fun m => p (f m)) members := by
  simp only [memberRing,tokenPoints,filter_map,flatMap_map,hf,Function.comp_def]

/-- When the owner in the larger of two rings also belongs to the smaller one, it owns the token
there too. -/
theorem WellFormed.ownerOf_subring (h : WellFormed members) {p q : Member → Bool}
    (hpq : ∀ m ∈ members, p m = true → q m = true) {t : UInt32} {m : Member} (hm : m ∈ members) (hp : p m = true)
    (ho : ownerOf (memberRing q members) t = some m.identity) : ownerOf (memberRing p members) t = some m.identity := by
  obtain ⟨m',hm',_,heq,k,hk,howns⟩ := h.ownerOf_eq_some ho
  obtain rfl : m' = m := h.eq_of_address hm' hm (by rw [heq])
  have hsub : ∀ o ∈ memberRing p members, o ∈ memberRing q members := by
    intro o ho
    obtain ⟨x,hx,hpx,hox,hid⟩ := mem_memberRing.mp ho
    exact mem_memberRing.mpr ⟨x,hx,hpq x hx hpx,hox,hid⟩
  have hkeep := howns.of_subset hsub (mem_memberRing.mpr ⟨m',hm',hp,hk,rfl⟩)
  rw [ownerOf,(h.memberRing_ordered p).find_eq_some.mpr hkeep]
  rfl

/-- Rings depend only on the identities and tokens of their members. -/
theorem ownerOf_congr {members members' : List Member} (h : WellFormed members)
    (h' : WellFormed members') {p p' : Member → Bool}
    (hsame : ∀ identity tokens, (∃ m ∈ members, p m = true ∧ m.identity = identity ∧
        m.tokens = tokens) ↔ ∃ m ∈ members', p' m = true ∧ m.identity = identity ∧
        m.tokens = tokens) (t : UInt32) :
    ownerOf (memberRing p members) t = ownerOf (memberRing p' members') t := by
  have hmem : ∀ o, o ∈ memberRing p members ↔ o ∈ memberRing p' members' := by
    intro o
    rw [mem_memberRing,mem_memberRing]
    constructor
    · rintro ⟨m,hm,hp,ht,heq⟩
      obtain ⟨m',hm',hp',hid,htok⟩ := (hsame m.identity m.tokens).mp ⟨m,hm,hp,rfl,rfl⟩
      exact ⟨m',hm',hp',htok ▸ ht,heq.trans hid.symm⟩
    · rintro ⟨m,hm,hp,ht,heq⟩
      obtain ⟨m',hm',hp',hid,htok⟩ := (hsame m.identity m.tokens).mpr ⟨m,hm,hp,rfl,rfl⟩
      exact ⟨m',hm',hp',htok ▸ ht,heq.trans hid.symm⟩
  unfold ownerOf
  congr 1
  ext o
  rw [(h.memberRing_ordered p).find_eq_some,(h'.memberRing_ordered p').find_eq_some]
  exact ⟨fun ho => ho.congr hmem,fun ho => ho.congr fun o => (hmem o).symm⟩

theorem tokenPoints_identity (eligible : Member → Bool) (members : List Member) :
    tokenPoints eligible identity members = (tokenPoints eligible id members).map (Prod.map id identity) := by
  simp [tokenPoints,map_flatMap,Function.comp_def]

theorem locateIndexedOwner_eq_ok (snapshot : TopologySnapshot) (eligible : Member → Bool)
    {t : UInt32} {identity : MemberIdentity} :
    (∃ m, locateIndexedOwner (build (tokenPoints eligible id snapshot.state.members)) t =
        .ok m ∧ m ∈ snapshot.state.members ∧ eligible m = true ∧ m.identity = identity) ↔
      ownerOf (memberRing eligible snapshot.state.members) t = some identity := by
  have hord := build_ordered (snapshot.valid.wellFormed.tokenPoints_nodup eligible (id : Member → Member))
  rw [locateIndexedOwner,ownerOf,memberRing,tokenPoints_identity,build_map,find_map,Option.map_map]
  cases hfind : find (build (tokenPoints eligible id snapshot.state.members)) t with
  | none => simp
  | some o =>
    obtain ⟨m,hm,he,_,heq⟩ := mem_tokenPoints.mp (mem_build.mp (hord.find_eq_some.mp hfind).1)
    have ho : o.2 = m := heq
    simp only [Option.map_some,Function.comp_apply,Prod.map_snd,Option.some.injEq]
    constructor
    · rintro ⟨m',hm',_,_,rfl⟩
      rw [Except.ok.inj hm']
    · intro hid
      refine ⟨o.2,rfl,?_,?_,hid⟩
      · rw [ho]
        exact hm
      · rw [ho]
        exact he

end Datasystem.Cluster
