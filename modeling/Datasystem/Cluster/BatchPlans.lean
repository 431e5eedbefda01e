import Datasystem.Cluster.Plans
import Datasystem.Cluster.TopologyTaskMaterializer

/-!
# The plan of an active batch

The plan of a batch is computed again from the latest snapshot. `BatchMoves` says which tokens a batch moves,
and every plan of the batch lists exactly these.
-/

namespace Datasystem.Cluster

open TopologySnapshot List MemberIdentity

variable (state : TopologyState)

def committedRing : List (UInt32 × MemberIdentity) :=
  memberRing (fun m => isCommittedMemberState m.state) state.members

def prospectiveRing : List (UInt32 × MemberIdentity) :=
  memberRing (fun m => isProspective m.state state.activeBatch) state.members

/-- The owners before any of the failures that are being handled. -/
def unfailedRing : List (UInt32 × MemberIdentity) :=
  memberRing (fun m => isCommittedMemberState m.state || m.state = .failed) state.members

def activeRing : List (UInt32 × MemberIdentity) := memberRing (fun m => m.state = .active) state.members

/-- The tokens that the active batch moves, with their owners before and after. -/
def BatchMoves (type : TopologyChangeType) (t : UInt32) (source target : MemberIdentity) : Prop :=
  match type with
  | .failure => Moves (unfailedRing state) (activeRing state) t source target ∧
      source ∈ membersInState state .failed
  | _ => Moves (committedRing state) (prospectiveRing state) t source target

/-- The members from which the plan of a batch can be computed. -/
def Plannable (tokensPerMember : Nat) (state : TopologyState) (type : TopologyChangeType) : Prop :=
  match type with
  | .scaleOut => 0 < tokensPerMember ∧ tokensPerMember ≤ maxTokensPerMember ∧
      ∃ m ∈ state.members, isCommittedMemberState m.state = true
  | .scaleIn => ∃ m ∈ state.members, isAdmittedScaleInMigrationTargetState m.state = true ∧
      m.tokens ≠ []
  | .failure => ∀ m ∈ state.members, m.state = .active →
      ∃ m ∈ state.members, m.state = .active ∧ m.tokens ≠ []

/-! ## What the planner accepts

A plan needs a topology that passes the checks, proper identities, and an owner in both rings. -/

variable {tokensPerMember : Nat} {plan : TopologyPlan} {current : TopologyState}

theorem planScaleOut_eq_ok {joining : List MemberIdentity} :
    planScaleOut current joining tokensPerMember = .ok plan ↔ validate current = .ok () ∧
      PlanningIdentities joining ∧ joining ≠ [] ∧
      (0 < tokensPerMember ∧ tokensPerMember ≤ maxTokensPerMember) ∧
      ∃ members, addJoining tokensPerMember (current.members.flatMap Member.tokens) current.members
          (sortIdentities joining) = .ok members ∧
        (∃ m ∈ current.members, isEligible false [] false m = true ∧ m.tokens ≠ []) ∧
        (∃ m ∈ members, isEligible true [] false m = true ∧ m.tokens ≠ []) ∧
        plan = ⟨{ current with members := members },diffOwners (memberRing (isEligible false [] false) current.members)
            (memberRing (isEligible true [] false) members)⟩ := by
  simp only [planScaleOut,Except.bind_eq_ok,exists_const,validateIdentities_eq_ok,
    checkFailReturnStatus_eq_ok,buildOwners_eq_ok,Bool.and_eq_true,Bool.not_eq_true',
    isEmpty_eq_false_iff,decide_eq_true_eq]
  constructor
  · rintro ⟨_,hv,hids,⟨⟨hne,hpos⟩,hle⟩,members,hadd,_,⟨hfrom,rfl⟩,_,⟨hto,rfl⟩,hret⟩
    exact ⟨hv,hids,hne,⟨hpos,hle⟩,members,hadd,hfrom,hto,(Except.ok.inj hret).symm⟩
  · rintro ⟨hv,hids,hne,⟨hpos,hle⟩,members,hadd,hfrom,hto,rfl⟩
    exact ⟨(),hv,hids,⟨⟨hne,hpos⟩,hle⟩,members,hadd,_,⟨hfrom,rfl⟩,_,⟨hto,rfl⟩,rfl⟩

theorem planScaleIn_eq_ok {leaving : List MemberIdentity} : planScaleIn current leaving = .ok plan ↔
      validate current = .ok () ∧ PlanningIdentities leaving ∧ validateSelectedMembers current leaving = .ok () ∧
      leaving ≠ [] ∧
      (∃ m ∈ current.members, isEligible false [] false m = true ∧ m.tokens ≠ []) ∧
      (∃ m ∈ current.members, isEligible false (leaving.map address) false m = true ∧ m.tokens ≠ []) ∧
      plan = ⟨{ current with
          members := setMemberStates (leaving.map address) .preLeaving current.members },
        diffOwners (memberRing (isEligible false [] false) current.members)
          (memberRing (isEligible false (leaving.map address) false) current.members)⟩ := by
  simp only [planScaleIn,Except.bind_eq_ok,exists_const,validateIdentities_eq_ok,
    checkFailReturnStatus_eq_ok,buildOwners_eq_ok,Bool.not_eq_true',isEmpty_eq_false_iff]
  constructor
  · rintro ⟨_,hv,hids,_,hsel,hne,_,⟨hfrom,rfl⟩,_,⟨hto,rfl⟩,hret⟩
    exact ⟨hv,hids,hsel,hne,hfrom,hto,(Except.ok.inj hret).symm⟩
  · rintro ⟨hv,hids,hsel,hne,hfrom,hto,rfl⟩
    exact ⟨(),hv,hids,(),hsel,hne,_,⟨hfrom,rfl⟩,_,⟨hto,rfl⟩,rfl⟩

theorem planFailure_eq_ok {failed : List MemberIdentity} : planFailure current failed = .ok plan ↔
      validate current = .ok () ∧ PlanningIdentities failed ∧ validateSelectedMembers current failed = .ok () ∧
      failed ≠ [] ∧
      (∃ m ∈ current.members, isEligible false [] false m = true ∧ m.tokens ≠ []) ∧
      (∃ m ∈ current.members, isEligible false (failed.map address) true m = true ∧ m.tokens ≠ []) ∧
      plan = ⟨{ current with
          members := setMemberStates (failed.map address) .failed current.members },
        (diffOwners (memberRing (isEligible false [] false) current.members)
          (memberRing (isEligible false (failed.map address) true) current.members)).filter fun change =>
              change.source.any fun source => source.address ∈ failed.map address⟩ := by
  simp only [planFailure,Except.bind_eq_ok,exists_const,validateIdentities_eq_ok,
    checkFailReturnStatus_eq_ok,buildOwners_eq_ok,Bool.not_eq_true',isEmpty_eq_false_iff]
  constructor
  · rintro ⟨_,hv,hids,_,hsel,hne,_,⟨hfrom,rfl⟩,_,⟨hto,rfl⟩,hret⟩
    exact ⟨hv,hids,hsel,hne,hfrom,hto,(Except.ok.inj hret).symm⟩
  · rintro ⟨hv,hids,hsel,hne,hfrom,hto,rfl⟩
    exact ⟨(),hv,hids,(),hsel,hne,_,⟨hfrom,rfl⟩,_,⟨hto,rfl⟩,rfl⟩

variable {identities : List MemberIdentity}

theorem mem_sortIdentities {i : MemberIdentity} : i ∈ sortIdentities identities ↔ i ∈ identities :=
  (perm_insertionSort _ identities).mem_iff

variable {members : List Member}

theorem addJoining_retained (h : WellFormed members) (tokensPerMember : Nat) (occupied : List UInt32)
    (hret : ∀ i ∈ identities, ∃ m ∈ members, m.state = .joining ∧ m.identity = i) :
    addJoining tokensPerMember occupied members identities = .ok members := by
  induction identities with
  | nil => rfl
  | cons i identities ih =>
    obtain ⟨m,hm,hstate,rfl⟩ := hret i mem_cons_self
    have htail := ih fun i hi => hret i (mem_cons_of_mem _ hi)
    simp [addJoining,h.find?_address hm,hstate,checkFailReturnStatus,htail,bind,Except.bind]

theorem mem_addJoining {occupied : List UInt32} {members members' : List Member}
    (h : addJoining tokensPerMember occupied members identities = .ok members') {m : Member} (hm : m ∈ members) :
    m ∈ members' := by
  induction identities generalizing occupied members with
  | nil => exact Except.ok.inj h ▸ hm
  | cons i identities ih =>
    unfold addJoining at h
    split at h
    · obtain ⟨_,_,h⟩ := Except.bind_eq_ok.mp h
      exact ih h hm
    · obtain ⟨_,_,h⟩ := Except.bind_eq_ok.mp h
      obtain ⟨⟨occupied',tokens⟩,_,h⟩ := Except.bind_eq_ok.mp h
      exact ih h (mem_append_left _ hm)

variable {state} {b : ActiveBatch}

theorem Valid.participants_ne_nil (h : Valid state) (hb : state.activeBatch = some b) :
    membersInState state (participantState b.type) ≠ [] := by
  obtain ⟨m,hm,hstate⟩ := h.batchStates.participant b hb
  exact ne_nil_of_mem (mem_membersInState.mpr ⟨m,hm,hstate,rfl⟩)

theorem committedRing_eq : memberRing (isEligible false [] false) state.members = committedRing state := by
  apply memberRing_congr
  simp [isEligible]

theorem planScaleOut_retained (h : Valid state) (hb : state.activeBatch = some b) (htype : b.type = .scaleOut)
    (hplan : Plannable tokensPerMember state .scaleOut) :
    planScaleOut state (membersInState state .joining) tokensPerMember =
      .ok ⟨state,diffOwners (committedRing state) (prospectiveRing state)⟩ := by
  obtain ⟨hpos,hle,hc⟩ := hplan
  have hne : membersInState state .joining ≠ [] := by
    have hpart := h.participants_ne_nil hb
    rwa [htype] at hpart
  have hprospective : memberRing (isEligible true [] false) state.members = prospectiveRing state := by
    apply memberRing_congr
    simp [isEligible,isProspective,hb,htype]
  obtain ⟨m,hm,hcm,htok⟩ := h.owner hc
  apply planScaleOut_eq_ok.mpr
  refine ⟨validate_eq_ok.mpr ⟨h.wellFormed,Or.inr hc⟩,h.planningIdentities _,hne,⟨hpos,hle⟩,state.members,?_,
    ⟨m,hm,by simp [isEligible,hcm],htok⟩,⟨m,hm,by simp [isEligible,hcm],htok⟩,?_⟩
  · apply addJoining_retained h.wellFormed
    intro i hi
    exact mem_membersInState.mp (mem_sortIdentities.mp hi)
  · rw [committedRing_eq,hprospective]

theorem Valid.mem_addresses (h : Valid state) {selected : MemberState} {m : Member} (hm : m ∈ state.members) :
    m.identity.address ∈ (membersInState state selected).map MemberIdentity.address ↔ m.state = selected := by
  rw [mem_map]
  constructor
  · rintro ⟨i,hi,haddr⟩
    obtain ⟨x,hx,hstate,rfl⟩ := mem_membersInState.mp hi
    rw [← h.wellFormed.eq_of_address hx hm haddr]
    exact hstate
  · intro hstate
    exact ⟨m.identity,mem_membersInState.mpr ⟨m,hm,hstate,rfl⟩,rfl⟩

theorem isCommitted_of_admitted {s : MemberState}
    (h : isAdmittedScaleInMigrationTargetState s = true) : isCommittedMemberState s = true := by
  cases s <;> first | rfl | cases h

theorem planScaleIn_leaving (h : Valid state) (hb : state.activeBatch = some b) (htype : b.type = .scaleIn)
    (hplan : Plannable tokensPerMember state .scaleIn) :
    ∃ plan, planScaleIn state (membersInState state .leaving) = .ok plan ∧
      plan.ownerChanges = diffOwners (committedRing state) (prospectiveRing state) := by
  obtain ⟨m,hm,hadmitted,htok⟩ := hplan
  have hcm := isCommitted_of_admitted hadmitted
  have hne : membersInState state .leaving ≠ [] := by
    have hpart := h.participants_ne_nil hb
    rwa [htype] at hpart
  have hsel : validateSelectedMembers state (membersInState state .leaving) = .ok () := by
    apply (validateSelectedMembers_eq_ok h.wellFormed).mpr
    intro i hi
    obtain ⟨x,hx,hstate,heq⟩ := mem_membersInState.mp hi
    exact ⟨x,hx,heq,by rw [hstate]; rfl⟩
  have heligible : ∀ x ∈ state.members, isEligible false ((membersInState state .leaving).map address) false x =
        isProspective x.state state.activeBatch := by
    intro x hx
    simp [isEligible,h.mem_addresses hx,isProspective,hb,htype]
  have hsurvives : isProspective m.state state.activeBatch = true := by
    rw [hb]
    cases hs : m.state <;> simp_all [isProspective,isAdmittedScaleInMigrationTargetState]
  refine ⟨_,planScaleIn_eq_ok.mpr ⟨validate_eq_ok.mpr ⟨h.wellFormed,Or.inr ⟨m,hm,hcm⟩⟩,h.planningIdentities _,hsel,
    hne,⟨m,hm,by simp [isEligible,hcm],htok⟩,⟨m,hm,?_,htok⟩,rfl⟩,?_⟩
  · rw [heligible m hm]
    exact hsurvives
  · change diffOwners _ _ = _
    rw [committedRing_eq,memberRing_congr heligible]
    rfl

theorem memberRing_eq_nil {p : Member → Bool} (h : ∀ m ∈ members, p m = false) : memberRing p members = [] := by
  apply eq_nil_iff_forall_not_mem.mpr
  intro o ho
  obtain ⟨m,hm,hp,_⟩ := mem_memberRing.mp ho
  rw [h m hm] at hp
  cases hp

theorem WellFormed.map (h : WellFormed members) {f : Member → Member}
    (hf : ∀ m, (f m).identity = m.identity ∧ (f m).tokens = m.tokens) :
    WellFormed (members.map f) where
  identity m hm := by
    obtain ⟨x,hx,rfl⟩ := mem_map.mp hm
    rw [(hf x).1]
    exact h.identity x hx
  ids := by
    rw [map_map,map_congr_left fun m _ => by rw [Function.comp_apply,(hf m).1]]
    exact h.ids
  addresses := by
    rw [map_map,map_congr_left fun m _ => by rw [Function.comp_apply,(hf m).1]]
    exact h.addresses
  tokens := by
    simp only [flatMap_map,hf]
    exact h.tokens

theorem moveMembers_same (before after : MemberState) (m : Member) :
    (if m.state = before then { m with state := after } else m).identity = m.identity ∧
      (if m.state = before then { m with state := after } else m).tokens = m.tokens := by
  split_ifs <;> exact ⟨rfl,rfl⟩

theorem planFailure_failed (h : Valid state) (hb : state.activeBatch = some b) (htype : b.type = .failure)
    {m : Member} (hm : m ∈ state.members) (hactive : m.state = .active) (htok : m.tokens ≠ []) :
    ∃ plan, planFailure { state with members := moveMembers .failed .active state.members }
        (membersInState state .failed) = .ok plan ∧
      plan.ownerChanges = (diffOwners (unfailedRing state) (activeRing state)).filter fun change =>
        change.source.any fun source =>
          source.address ∈ (membersInState state .failed).map address := by
  have hwf : WellFormed (moveMembers .failed .active state.members) :=
    h.wellFormed.map (moveMembers_same .failed .active)
  have hmem : m ∈ moveMembers .failed .active state.members := mem_map.mpr ⟨m,hm,by simp [hactive]⟩
  have hne : membersInState state .failed ≠ [] := by
    have hpart := h.participants_ne_nil hb
    rwa [htype] at hpart
  have hsel : validateSelectedMembers { state with members := moveMembers .failed .active state.members }
      (membersInState state .failed) = .ok () := by
    apply (validateSelectedMembers_eq_ok hwf).mpr
    intro i hi
    obtain ⟨x,hx,hstate,heq⟩ := mem_membersInState.mp hi
    exact ⟨{ x with state := .active },mem_map.mpr ⟨x,hx,by simp [hstate]⟩,heq,rfl⟩
  have hfrom : memberRing (isEligible false [] false) (moveMembers .failed .active state.members) =
      unfailedRing state := by
    rw [moveMembers,memberRing_map (moveMembers_same .failed .active)]
    apply memberRing_congr
    intro x hx
    by_cases hf : x.state = .failed <;> simp [isEligible,hf,isCommittedMemberState]
  have hto : memberRing (isEligible false ((membersInState state .failed).map address) true)
      (moveMembers .failed .active state.members) = activeRing state := by
    rw [moveMembers,memberRing_map (moveMembers_same .failed .active)]
    apply memberRing_congr
    intro x hx
    by_cases hf : x.state = .failed <;> simp [isEligible,hf,h.mem_addresses hx]
  refine ⟨_,planFailure_eq_ok.mpr ⟨validate_eq_ok.mpr ⟨hwf,Or.inr ⟨m,hmem,by rw [hactive]; rfl⟩⟩,
    h.planningIdentities _,hsel,hne,⟨m,hmem,by simp [isEligible,hactive,isCommittedMemberState],
      htok⟩,⟨m,hmem,?_,htok⟩,rfl⟩,?_⟩
  · simp [isEligible,hactive,h.mem_addresses hm]
  · change (diffOwners _ _).filter _ = _
    rw [hfrom,hto]

theorem BatchMoves.of_filter (h : Valid state) {t : UInt32} {source target : MemberIdentity} :
    (Moves (unfailedRing state) (activeRing state) t source target ∧
      decide (source.address ∈ (membersInState state .failed).map address) = true) ↔
      BatchMoves state .failure t source target := by
  apply and_congr_right
  rintro ⟨hsource,_⟩
  obtain ⟨m,hm,_,rfl,_⟩ := h.wellFormed.ownerOf_eq_some hsource
  rw [decide_eq_true_eq,h.mem_addresses hm,mem_membersInState]
  constructor
  · intro hstate
    exact ⟨m,hm,hstate,rfl⟩
  · rintro ⟨x,hx,hstate,heq⟩
    rw [← h.wellFormed.eq_of_address hx hm (by rw [heq])]
    exact hstate

theorem rebuildPlan_spec {snapshot : TopologySnapshot} (hb : snapshot.state.activeBatch = some b)
    (hplan : Plannable tokensPerMember snapshot.state b.type) :
    ∃ changes, rebuildPlan tokensPerMember snapshot = .ok ⟨snapshot.state,changes⟩ ∧
      ChangeSpec (BatchMoves snapshot.state b.type) changes := by
  have h := snapshot.valid
  have hne := h.participants_ne_nil hb
  obtain ⟨type,epoch⟩ := b
  cases type with
  | scaleOut =>
    refine ⟨diffOwners (committedRing snapshot.state) (prospectiveRing snapshot.state),?_,h.wellFormed.diff_spec _ _⟩
    simp only [participantState] at hne
    simp [rebuildPlan,hb,participantState,hne,checkFailReturnStatus,
      planScaleOut_retained h hb rfl hplan,bind,Except.bind,pure,Except.pure]
  | scaleIn =>
    obtain ⟨plan,heq,hchanges⟩ := planScaleIn_leaving h hb rfl hplan
    refine ⟨plan.ownerChanges,?_,?_⟩
    · simp only [participantState] at hne
      simp [rebuildPlan,hb,participantState,hne,checkFailReturnStatus,heq,bind,Except.bind,pure,Except.pure]
    · rw [hchanges]
      exact h.wellFormed.diff_spec _ _
  | failure =>
    simp only [participantState] at hne
    by_cases hactive : ∃ m ∈ snapshot.state.members, m.state = .active
    · obtain ⟨m,hm,hstate⟩ := hactive
      obtain ⟨owner,howner,hostate,htok⟩ := hplan m hm hstate
      obtain ⟨plan,heq,hchanges⟩ := planFailure_failed h hb rfl howner hostate htok
      refine ⟨plan.ownerChanges,?_,?_⟩
      · have hany : snapshot.state.members.any (fun m => m.state = .active) = true :=
          any_eq_true.mpr ⟨m,hm,by simpa using hstate⟩
        rw [hb] at heq
        simp [rebuildPlan,hb,participantState,hne,checkFailReturnStatus,heq,hany,bind,Except.bind,pure,Except.pure]
      · rw [hchanges]
        exact ((h.wellFormed.diff_spec _ _).filter _).congr fun _ _ _ => BatchMoves.of_filter h
    · have hnone : ∀ m ∈ snapshot.state.members, decide (m.state = .active) = false := by
        intro m hm
        simpa using fun hstate => hactive ⟨m,hm,hstate⟩
      refine ⟨[],?_,List.Pairwise.nil,(fun c hc => by cases hc),?_⟩
      · have hany : snapshot.state.members.any (fun m => m.state = .active) = false :=
          any_eq_false.mpr fun m hm => by simpa using hnone m hm
        simp [rebuildPlan,hb,participantState,hne,checkFailReturnStatus,hany,bind,Except.bind,pure,Except.pure]
      · rintro t source target ⟨⟨_,htarget,_⟩,_⟩
        rw [activeRing,memberRing_eq_nil hnone] at htarget
        cases htarget

theorem isAdmitted_of_committed {s : MemberState} (h : isCommittedMemberState s = true)
    (hleaving : s ≠ .leaving) : isAdmittedScaleInMigrationTargetState s = true := by
  cases s <;> simp_all [isCommittedMemberState,isAdmittedScaleInMigrationTargetState]

/-- A plan exists only for members from which it can be computed. -/
theorem plannable_of_rebuildPlan {snapshot : TopologySnapshot} (hb : snapshot.state.activeBatch = some b)
    (h : rebuildPlan tokensPerMember snapshot = .ok plan) : Plannable tokensPerMember snapshot.state b.type := by
  have hvalid := snapshot.valid
  obtain ⟨type,epoch⟩ := b
  simp only [rebuildPlan,hb,Except.bind_eq_ok] at h
  obtain ⟨_,_,h⟩ := h
  cases type with
  | scaleOut =>
    obtain ⟨built,hbuilt,_⟩ := Except.bind_eq_ok.mp h
    obtain ⟨_,_,_,⟨hpos,hle⟩,_,_,⟨m,hm,he,_⟩,_⟩ := planScaleOut_eq_ok.mp hbuilt
    exact ⟨hpos,hle,m,hm,by simpa [isEligible] using he⟩
  | scaleIn =>
    obtain ⟨built,hbuilt,_⟩ := Except.bind_eq_ok.mp h
    obtain ⟨_,_,_,_,_,⟨m,hm,he,htok⟩,_⟩ := planScaleIn_eq_ok.mp hbuilt
    simp only [isEligible,participantState,hvalid.mem_addresses hm,Bool.and_eq_true,decide_eq_true_eq] at he
    exact ⟨m,hm,isAdmitted_of_committed (by simpa using he.1) he.2,htok⟩
  | failure =>
    intro x hx hactive
    dsimp only at h
    split at h
    · rename_i hnone
      simp only [Bool.not_eq_true',any_eq_false,decide_eq_true_eq] at hnone
      exact absurd hactive (hnone x hx)
    · obtain ⟨built,hbuilt,_⟩ := Except.bind_eq_ok.mp h
      obtain ⟨_,_,_,_,_,⟨y,hy,he,htok⟩,_⟩ := planFailure_eq_ok.mp hbuilt
      obtain ⟨m,hm,rfl⟩ := mem_map.mp hy
      simp only [isEligible,participantState,(moveMembers_same .failed .active m).1,
        (moveMembers_same .failed .active m).2,hvalid.mem_addresses hm,Bool.and_eq_true,
        if_true,decide_eq_true_eq] at he htok
      rw [if_neg he.2] at he
      exact ⟨m,hm,he.1,htok⟩

/-- The states that the materializer requires of the source and the target of a change. -/
def Admissible (type : TopologyChangeType) (source target : MemberState) : Prop :=
  match type with
  | .scaleOut => isCommittedMemberState source = true ∧ target = .joining
  | .scaleIn => source = .leaving ∧ isAdmittedScaleInMigrationTargetState target = true
  | .failure => source = .failed ∧ target = .active

/-- Every token that a batch moves has a source and a target in the states of the batch: an owner
that is in both rings keeps its tokens. -/
theorem BatchMoves.admissible (h : Valid state) (hb : state.activeBatch = some b) {t : UInt32}
    {source target : MemberIdentity} (hmoves : BatchMoves state b.type t source target) :
    ∃ m ∈ state.members, ∃ m' ∈ state.members, m.identity = source ∧ m'.identity = target ∧
      Admissible b.type m.state m'.state := by
  obtain ⟨type,epoch⟩ := b
  cases type with
  | scaleOut =>
    obtain ⟨hsource,htarget,hne⟩ := hmoves
    obtain ⟨m,hm,hc,rfl,_⟩ := h.wellFormed.ownerOf_eq_some hsource
    obtain ⟨m',hm',hp,rfl,_⟩ := h.wellFormed.ownerOf_eq_some htarget
    refine ⟨m,hm,m',hm',rfl,rfl,hc,?_⟩
    have hsub : ∀ x ∈ state.members, isCommittedMemberState x.state = true →
        isProspective x.state state.activeBatch = true := by
      intro x _ hx
      simp [isProspective,hb,hx]
    have hnot : isCommittedMemberState m'.state ≠ true := by
      intro hc'
      have howner := h.wellFormed.ownerOf_subring hsub hm' hc' htarget
      exact hne (Option.some.inj (hsource.symm.trans howner))
    simpa [isProspective,hb,hnot] using hp
  | scaleIn =>
    obtain ⟨hsource,htarget,hne⟩ := hmoves
    obtain ⟨m,hm,hc,rfl,_⟩ := h.wellFormed.ownerOf_eq_some hsource
    obtain ⟨m',hm',hp,rfl,_⟩ := h.wellFormed.ownerOf_eq_some htarget
    have hsub : ∀ x ∈ state.members, isProspective x.state state.activeBatch = true →
        isCommittedMemberState x.state = true := by
      intro x _ hx
      simp only [isProspective,hb,Option.map_some,Bool.and_eq_true] at hx
      exact hx.1
    have hnot : isProspective m.state state.activeBatch ≠ true := by
      intro hp'
      have howner := h.wellFormed.ownerOf_subring hsub hm hp' hsource
      exact hne (Option.some.inj (howner.symm.trans htarget))
    refine ⟨m,hm,m',hm',rfl,rfl,?_,?_⟩
    · simpa [isProspective,hb,hc] using hnot
    · rw [hb] at hp
      cases hs : m'.state <;>
        simp_all [isProspective,isCommittedMemberState,isAdmittedScaleInMigrationTargetState]
  | failure =>
    obtain ⟨⟨_,htarget,_⟩,hfailed⟩ := hmoves
    obtain ⟨m,hm,hstate,rfl⟩ := mem_membersInState.mp hfailed
    obtain ⟨m',hm',hactive,rfl,_⟩ := h.wellFormed.ownerOf_eq_some htarget
    exact ⟨m,hm,m',hm',rfl,rfl,hstate,by simpa using hactive⟩

end Datasystem.Cluster
