import Datasystem.Cluster.ScaleBatch
import Datasystem.Cluster.TopologyController

/-!
# What a commit of the controller can do

Every topology that a controller wants to commit either edits the membership of the current batch or is fresh:
it has no batch or one whose epoch is its own version.
-/

namespace Datasystem.Cluster

open TopologySnapshot List Except MemberIdentity

def TopologyState.batchType (state : TopologyState) : Option TopologyChangeType :=
  state.activeBatch.map ActiveBatch.type

/-- Where a member of a new topology comes from. -/
inductive MemberOrigin (tokensPerMember : Nat) (latest next : TopologyState) (m' : Member) : Prop where
  | waiting (hstate : m'.state = .initial)
  | placed (hstate : m'.state = .active) (htokens : m'.tokens ≠ [])
  | joined (hstate : m'.state = .joining) (htokens : m'.tokens ≠ [])
      (hcount : 0 < tokensPerMember ∧ tokensPerMember ≤ maxTokensPerMember)
      (hbatch : next.batchType = some .scaleOut)
  | moved (m : Member) (hm : m ∈ latest.members) (hinit : m.state ≠ .initial)
      (htokens : m'.tokens = m.tokens) (hjoining : m'.state = .joining → m.state = .joining)
      (hleaving : m'.state = .leaving → m.state = .leaving ∨ next.batchType = some .scaleIn)

/-- A topology without a batch or with a new one. -/
structure Fresh (tokensPerMember : Nat) (latest next : TopologyState) : Prop where
  version : next.version = latest.version + 1
  batch : next.activeBatch = none ∨ ∃ type, next.activeBatch = some ⟨type,next.version⟩
  origin : ∀ m' ∈ next.members, MemberOrigin tokensPerMember latest next m'
  committed : next.batchType = some .scaleOut →
    ∃ m ∈ next.members, isCommittedMemberState m.state = true

/-- What a commit of the controller can do. -/
inductive Transition (tokensPerMember : Nat) (latest next : TopologyState) : Prop where
  | edit (hversion : next.version = latest.version + 1) (hedited : Edited latest next)
  | fresh (h : Fresh tokensPerMember latest next)

section

variable {tokensPerMember : Nat} {latest next : TopologyState}

theorem MemberOrigin.same {m : Member} (hm : m ∈ latest.members) : MemberOrigin tokensPerMember latest next m := by
  by_cases hinit : m.state = .initial
  · exact .waiting hinit
  · exact .moved m hm hinit rfl id Or.inl

theorem Fresh.epoch (h : Fresh tokensPerMember latest next) {b : ActiveBatch}
    (hb : next.activeBatch = some b) : b.epoch = latest.version + 1 := by
  rcases h.batch with hnone | ⟨type,hsome⟩
  · cases hnone.symm.trans hb
  · obtain rfl := Option.some.inj (hsome.symm.trans hb)
    exact h.version

theorem Fresh.removeMembers (h : Fresh tokensPerMember latest next) (addresses : List Bytes)
    (hcommitted : next.batchType = some .scaleOut →
      ∃ m ∈ next.members, m.identity.address ∉ addresses ∧ isCommittedMemberState m.state = true) :
    Fresh tokensPerMember latest (removeMembers addresses next) where
  version := h.version
  batch := h.batch
  origin m' hm' := by
    cases h.origin m' (mem_removeMembers.mp hm').1 with
    | waiting hstate => exact .waiting hstate
    | placed hstate htokens => exact .placed hstate htokens
    | joined hstate htokens hcount hbatch => exact .joined hstate htokens hcount hbatch
    | moved m hm hinit htokens hjoining hleaving => exact .moved m hm hinit htokens hjoining hleaving
  committed hbatch := by
    obtain ⟨m,hm,haddr,hc⟩ := hcommitted hbatch
    exact ⟨m,mem_removeMembers.mpr ⟨hm,haddr⟩,hc⟩

theorem removeMembers_subset {addresses : List Bytes} : (removeMembers addresses latest).members ⊆ latest.members :=
  fun _ hm => (mem_removeMembers.mp hm).1

/-- A topology that keeps members as they are, without a scale-out. -/
theorem Fresh.of_subset (hversion : next.version = latest.version + 1)
    (hbatch : next.activeBatch = none ∨ ∃ type, next.activeBatch = some ⟨type,next.version⟩)
    (hscale : next.batchType ≠ some .scaleOut) (hsub : next.members ⊆ latest.members) :
    Fresh tokensPerMember latest next :=
  ⟨hversion,hbatch,fun _ hm => .same (hsub hm),fun h => absurd h hscale⟩

theorem length_probeTokens {address : Bytes} {count index : Nat} {occupied tokens occupied' tokens' : List UInt32}
    (h : probeTokens address count index occupied tokens = .ok (occupied', tokens')) :
    tokens'.length = tokens.length + count := by
  induction count generalizing index occupied tokens with
  | zero =>
    cases h
    rfl
  | succ count ih =>
    unfold probeTokens at h
    split at h
    · have hlen := ih h
      simp only [length_append,length_cons,length_nil] at hlen
      omega
    · cases h

theorem generateTokens_ne_nil {identity : MemberIdentity} {count : Nat}
    {occupied occupied' tokens : List UInt32} (hcount : 0 < count)
    (h : generateTokens identity count occupied = .ok (occupied', tokens)) : tokens ≠ [] := by
  obtain ⟨⟨raw,probed⟩,hprobe,hret⟩ := bind_eq_ok.mp h
  cases hret
  have hlen := length_probeTokens hprobe
  rw [← length_pos_iff,length_insertionSort,hlen]
  simp only [length_nil]
  omega

theorem origin_addJoining {occupied : List UInt32} {members members' : List Member}
    {identities : List MemberIdentity} (hcount : 0 < tokensPerMember)
    (h : addJoining tokensPerMember occupied members identities = .ok members') {m : Member}
    (hm : m ∈ members') : m ∈ members ∨ (m.state = .joining ∧ m.tokens ≠ []) := by
  induction identities generalizing occupied members with
  | nil =>
    cases h
    exact Or.inl hm
  | cons i identities ih =>
    unfold addJoining at h
    split at h
    · obtain ⟨_,_,h⟩ := bind_eq_ok.mp h
      exact ih h
    · obtain ⟨_,_,h⟩ := bind_eq_ok.mp h
      obtain ⟨⟨occupied',tokens⟩,hgen,h⟩ := bind_eq_ok.mp h
      rcases ih h with hm | hnew
      · rcases mem_append.mp hm with hm | hm
        · exact Or.inl hm
        · rw [mem_singleton.mp hm]
          exact Or.inr ⟨rfl,generateTokens_ne_nil hcount hgen⟩
      · exact Or.inr hnew

theorem allocateOrdered_spec {occupied : List UInt32} {identities : List MemberIdentity}
    {tokens : List (Bytes × List UInt32)} (hcount : 0 < tokensPerMember)
    (h : allocateOrdered tokensPerMember occupied identities = .ok tokens) :
    tokens.map Prod.fst = identities.map address ∧ ∀ p ∈ tokens, p.2 ≠ [] := by
  induction identities generalizing occupied tokens with
  | nil =>
    cases h
    exact ⟨rfl,by simp⟩
  | cons i identities ih =>
    obtain ⟨⟨occupied',own⟩,hgen,h⟩ := bind_eq_ok.mp h
    obtain ⟨rest,hrest,hret⟩ := bind_eq_ok.mp h
    cases hret
    obtain ⟨hkeys,htokens⟩ := ih hrest
    refine ⟨by simp [hkeys],?_⟩
    intro p hp
    rcases mem_cons.mp hp with rfl | hp
    · exact generateTokens_ne_nil hcount hgen
    · exact htokens p hp

variable {plan : TopologyPlan}

theorem buildInitialPlacement_placed {current : TopologyState} {joining : List MemberIdentity}
    (h : buildInitialPlacement current joining tokensPerMember = .ok plan) :
    plan.next.activeBatch = current.activeBatch ∧ ∀ m ∈ plan.next.members, m.state = .active ∧ m.tokens ≠ [] := by
  simp only [buildInitialPlacement,bind_eq_ok,checkFailReturnStatus_eq_ok,Bool.and_eq_true,List.isEmpty_iff] at h
  obtain ⟨_,⟨hempty,_⟩,tokens,halloc,hret⟩ := h
  cases hret
  refine ⟨rfl,?_⟩
  simp only [allocateTokens,bind_eq_ok,checkFailReturnStatus_eq_ok,Bool.and_eq_true,decide_eq_true_eq] at halloc
  obtain ⟨_,⟨hcount,_⟩,_,_,horder⟩ := halloc
  obtain ⟨hkeys,htokens⟩ := allocateOrdered_spec hcount horder
  intro m hm
  rw [hempty,nil_append] at hm
  obtain ⟨identity,hidentity,rfl⟩ := mem_map.mp hm
  refine ⟨rfl,?_⟩
  have hkey : identity.address ∈ tokens.map Prod.fst := by
    rw [hkeys]
    exact mem_map.mpr ⟨identity,hidentity,rfl⟩
  cases hlookup : tokens.lookup identity.address with
  | none =>
    obtain ⟨p,hp,hpkey⟩ := mem_map.mp hkey
    have hne := lookup_eq_none_iff.mp hlookup p hp
    rw [hpkey] at hne
    simp at hne
  | some own =>
    obtain ⟨p,hp,hpkey,hown⟩ : ∃ p ∈ tokens, p.1 = identity.address ∧ p.2 = own := by
      obtain ⟨before,after,heq,_⟩ := lookup_eq_some_iff.mp hlookup
      exact ⟨(identity.address, own),by simp [heq],rfl,rfl⟩
    have hne := htokens p hp
    simpa [hown] using hne

theorem fresh_bootstrap {state : TopologyState} {ready : List MemberIdentity}
    (hversion : state.version = latest.version) (hinitial : ∀ m ∈ state.members, m.state = .initial)
    (h : buildBootstrap tokensPerMember state ready = .ok next) :
    Fresh tokensPerMember latest next := by
  simp only [buildBootstrap,bind_eq_ok] at h
  obtain ⟨_,_,_,_,built,hbuilt,_,_,hret⟩ := h
  cases hret
  obtain ⟨hbatch,hplaced⟩ := buildInitialPlacement_placed hbuilt
  refine ⟨by simp [hversion],Or.inl hbatch,?_,?_⟩
  · intro m' hm'
    rcases mem_append.mp hm' with hm' | hm'
    · obtain ⟨hstate,htokens⟩ := hplaced m' hm'
      exact .placed hstate htokens
    · exact .waiting (hinitial m' (mem_filter.mp hm').1)
  · intro hscale
    have hnone : built.next.activeBatch = none := hbatch
    simp [TopologyState.batchType,hnone] at hscale

theorem fresh_scaleOut {current : TopologyState} {joining : List MemberIdentity}
    (hsub : ∀ m ∈ current.members, m ∈ latest.members) (h : planScaleOut current joining tokensPerMember = .ok plan) :
    Fresh tokensPerMember latest (advanceEpoch latest .scaleOut plan).next := by
  obtain ⟨_,_,_,hcount,members,hadd,⟨m,hm,he,_⟩,_,rfl⟩ := planScaleOut_eq_ok.mp h
  refine ⟨rfl,Or.inr ⟨_,rfl⟩,?_,?_⟩
  · intro m' hm'
    rcases origin_addJoining hcount.1 hadd hm' with hold | ⟨hstate,htokens⟩
    · exact .same (hsub m' hold)
    · exact .joined hstate htokens hcount rfl
  · intro _
    exact ⟨m,mem_addJoining hadd hm,by simpa [isEligible] using he⟩

variable {selected : List MemberIdentity}

theorem fresh_scaleOutStart (h : buildScaleOutStart tokensPerMember latest selected = .ok plan) :
    Fresh tokensPerMember latest plan.next := by
  simp only [buildScaleOutStart,bind_eq_ok] at h
  obtain ⟨_,_,_,_,built,hbuilt,_,_,hret⟩ := h
  cases hret
  exact fresh_scaleOut (fun _ hm => removeMembers_subset hm) hbuilt

theorem mem_of_validateSelected {state : MemberState} {u : Unit} (h : validateSelected latest selected state = .ok u) :
    ∀ i ∈ selected, ∃ m ∈ latest.members, m.identity = i ∧ m.state = state := by
  have hafter : ∀ (seen : List Bytes) (selected : List MemberIdentity),
      validateSelectedAfter latest state seen selected = .ok u →
        ∀ i ∈ selected, ∃ m ∈ latest.members, m.identity = i ∧ m.state = state := by
    intro seen selected
    induction selected generalizing seen with
    | nil =>
      intro _ i hi
      cases hi
    | cons i selected ih =>
      intro h
      simp only [validateSelectedAfter,bind_eq_ok,checkFailReturnStatus_eq_ok,
        Option.any_eq_true,decide_eq_true_eq] at h
      obtain ⟨_,⟨m,hfind,hstate⟩,_,_,hrest⟩ := h
      intro j hj
      rcases mem_cons.mp hj with rfl | hj
      · exact ⟨m,mem_of_find?_eq_some hfind,by simpa using find?_some hfind,hstate⟩
      · exact ih _ hrest j hj
  obtain ⟨_,_,hrest⟩ := bind_eq_ok.mp h
  exact hafter [] selected hrest

end

section

variable {tokensPerMember : Nat} {latest : TopologySnapshot} {next : TopologyState} {plan : TopologyPlan}
  {selected : List MemberIdentity}

theorem fresh_scaleOutReplan {failedJoining : List MemberIdentity}
    (h : buildScaleOutReplan tokensPerMember latest.state failedJoining = .ok plan) :
    Fresh tokensPerMember latest.state plan.next ∧ ∀ m ∈ plan.next.members, m ∈ latest.state.members := by
  simp only [buildScaleOutReplan,bind_eq_ok] at h
  obtain ⟨_,_,_,_,h⟩ := h
  split at h
  · cases h
    exact ⟨.of_subset rfl (Or.inl rfl) (fun hscale => by cases hscale) removeMembers_subset,fun _ hm => removeMembers_subset hm⟩
  · obtain ⟨built,hbuilt,hret⟩ := bind_eq_ok.mp h
    cases hret
    refine ⟨fresh_scaleOut (fun _ hm => removeMembers_subset hm) hbuilt,?_⟩
    -- all joining members are in the topology already, so none is added
    obtain ⟨hvalid,_,_,_,members,hadd,_,_,rfl⟩ := planScaleOut_eq_ok.mp hbuilt
    rw [addJoining_retained (validate_eq_ok.mp hvalid).1] at hadd
    · cases hadd
      exact fun _ hm => removeMembers_subset hm
    · intro i hi
      exact mem_membersInState.mp (mem_sortIdentities.mp hi)

theorem fresh_scaleInStart (h : buildScaleInStart latest.state selected = .ok plan) :
    Fresh tokensPerMember latest.state plan.next := by
  simp only [buildScaleInStart,bind_eq_ok] at h
  obtain ⟨_,_,_,hsel,built,hbuilt,hret⟩ := h
  cases hret
  obtain ⟨_,_,_,_,_,_,rfl⟩ := planScaleIn_eq_ok.mp hbuilt
  refine ⟨rfl,Or.inr ⟨_,rfl⟩,?_,(fun hbatch => by cases hbatch)⟩
  intro m' hm'
  obtain ⟨x,hx,rfl⟩ := mem_map.mp hm'
  obtain ⟨m,hm,rfl⟩ := mem_map.mp hx
  by_cases haddr : m.identity.address ∈ selected.map address
  · -- a selected member was about to leave
    obtain ⟨i,hi,hieq⟩ := mem_map.mp haddr
    obtain ⟨y,hy,rfl,hstate⟩ := mem_of_validateSelected hsel i hi
    obtain rfl := latest.valid.wellFormed.eq_of_address hy hm hieq
    rw [if_pos haddr]
    refine .moved y hm (by simp [hstate]) ?_ ?_ (fun _ => Or.inr rfl)
    · split_ifs <;> rfl
    · split_ifs <;> exact (fun hj => by cases hj)
  · have hnot : m.identity ∉ selected := fun hmem => haddr (mem_map.mpr ⟨_,hmem,rfl⟩)
    rw [if_neg haddr,if_neg (by simp [hnot])]
    exact .same hm

theorem restoreOrdinaryFacts_eq {addresses : List Bytes}
    (hfailed : ∀ m ∈ latest.state.members, m.state = .failed → m.identity.address ∈ addresses) :
    restoreOrdinaryFacts addresses latest.state (setMemberStates addresses .failed
      (moveMembers .failed .active latest.state.members)) = setMemberStates addresses .failed latest.state.members := by
  simp only [restoreOrdinaryFacts,setMemberStates,moveMembers,map_map]
  apply map_congr_left
  intro m hm
  by_cases haddr : m.identity.address ∈ addresses
  · have hnone : latest.state.members.find? (fun x => preservesOrdinaryFact addresses x &&
        decide (x.identity = m.identity)) = none := by
      apply find?_eq_none.mpr
      intro x _ hx
      simp only [preservesOrdinaryFact,Bool.and_eq_true,decide_eq_true_eq] at hx
      exact hx.1.2 (hx.2 ▸ haddr)
    by_cases hf : m.state = .failed <;> simp [hf,haddr,hnone]
  · have hf : m.state ≠ .failed := fun hf => haddr (hfailed m hm hf)
    simp only [Function.comp_apply,if_neg hf,if_neg haddr]
    split
    · rename_i x hfind
      have hx := find?_some hfind
      simp only [Bool.and_eq_true,decide_eq_true_eq] at hx
      rw [latest.valid.wellFormed.eq_of_address (mem_of_find?_eq_some hfind) hm (by rw [hx.2])]
    · rfl

/-- A failure marks the confirmed members and nothing else. When active members survive, one of
them has tokens. -/
theorem buildFailureStartOrReplan_next {confirmed : List MemberIdentity}
    (h : buildFailureStartOrReplan latest.state confirmed = .ok plan) :
    plan.next = { latest.state with
      version := latest.state.version + 1
      members := setMemberStates (confirmed.map address) .failed latest.state.members
      activeBatch := some ⟨.failure,latest.state.version + 1⟩ } ∧
      ∀ m ∈ plan.next.members, m.state = .active →
        ∃ m ∈ plan.next.members, m.state = .active ∧ m.tokens ≠ [] := by
  simp only [buildFailureStartOrReplan,bind_eq_ok,checkFailReturnStatus_eq_ok,
    all_eq_true] at h
  obtain ⟨_,_,_,hfailed,h⟩ := h
  split at h
  · rename_i hnone
    cases h
    refine ⟨rfl,?_⟩
    intro m' hm' hactive
    obtain ⟨m,hm,rfl⟩ := mem_map.mp hm'
    simp only [Bool.not_eq_true',any_eq_false] at hnone
    split_ifs at hactive with haddr
    exact absurd (by simp [hactive,haddr]) (hnone m hm)
  · obtain ⟨built,hbuilt,hret⟩ := bind_eq_ok.mp h
    cases hret
    have hretained : ∀ m ∈ latest.state.members, m.state = .failed →
        m.identity.address ∈ confirmed.map address := by
      intro m hm hf
      have hmem := hfailed m hm
      simp only [hf,ne_eq,not_true_eq_false,decide_false,Bool.false_or,decide_eq_true_eq] at hmem
      exact mem_map.mpr ⟨m.identity,hmem,rfl⟩
    obtain ⟨_,_,_,_,_,⟨owner,howner,he,htok⟩,rfl⟩ := planFailure_eq_ok.mp hbuilt
    have hnext : (advanceEpoch latest.state .failure
        { next := { latest.state with
            members := restoreOrdinaryFacts (confirmed.map address) latest.state
              (setMemberStates (confirmed.map address) .failed
                (moveMembers .failed .active latest.state.members)) },
          ownerChanges := [] }).next = { latest.state with
        version := latest.state.version + 1
        members := setMemberStates (confirmed.map address) .failed latest.state.members
        activeBatch := some ⟨.failure,latest.state.version + 1⟩ } := by
      rw [restoreOrdinaryFacts_eq hretained]
      rfl
    refine ⟨hnext,fun _ _ _ => ?_⟩
    -- the owner that the plan has found was active before and is not confirmed
    obtain ⟨m,hm,rfl⟩ := mem_map.mp howner
    simp only [isEligible,(moveMembers_same .failed .active m).1,
      (moveMembers_same .failed .active m).2,Bool.and_eq_true,if_true,decide_eq_true_eq] at he htok
    have hnotfailed : m.state ≠ .failed := fun hf => he.2 (hretained m hm hf)
    rw [if_neg hnotfailed] at he
    refine ⟨m,?_,he.1,htok⟩
    change m ∈ restoreOrdinaryFacts _ _ _
    rw [restoreOrdinaryFacts_eq hretained]
    exact mem_map.mpr ⟨m,hm,by rw [if_neg he.2]⟩

theorem fresh_failure {confirmed : List MemberIdentity}
    (h : buildFailureStartOrReplan latest.state confirmed = .ok plan) (hconfirmed : ∀ m ∈ latest.state.members,
      m.identity.address ∈ confirmed.map address → m.state ≠ .initial) :
    Fresh tokensPerMember latest.state plan.next := by
  rw [(buildFailureStartOrReplan_next h).1]
  refine ⟨rfl,Or.inr ⟨_,rfl⟩,?_,(fun hbatch => by cases hbatch)⟩
  intro m' hm'
  obtain ⟨m,hm,rfl⟩ := mem_map.mp hm'
  by_cases haddr : m.identity.address ∈ confirmed.map address
  · rw [if_pos haddr]
    exact .moved m hm (hconfirmed m hm haddr) rfl (fun hj => by cases hj) (fun hl => by cases hl)
  · rw [if_neg haddr]
    exact .same hm

theorem fresh_batchFinal {type : TopologyChangeType} (h : commitBatchFinal latest type = .ok next) : Fresh tokensPerMember latest.state next := by
  cases type with
  | scaleOut =>
    simp only [commitBatchFinal,buildScaleOutFinal,bind_eq_ok] at h
    obtain ⟨_,_,_,_,hret⟩ := h
    cases hret
    refine ⟨rfl,Or.inl rfl,?_,(fun hbatch => by cases hbatch)⟩
    intro m' hm'
    obtain ⟨m,hm,rfl⟩ := mem_map.mp hm'
    by_cases hj : m.state = .joining
    · rw [if_pos hj]
      exact .moved m hm (by simp [hj]) rfl (fun _ => hj) (fun hl => by cases hl)
    · rw [if_neg hj]
      exact .same hm
  | scaleIn =>
    simp only [commitBatchFinal,buildScaleInFinal,bind_eq_ok] at h
    obtain ⟨_,_,_,_,hret⟩ := h
    cases hret
    exact .of_subset rfl (Or.inl rfl) (fun hscale => by cases hscale) removeMembers_subset
  | failure =>
    simp only [commitBatchFinal,buildFailureFinal,bind_eq_ok] at h
    obtain ⟨_,_,_,_,hret⟩ := h
    cases hret
    split_ifs with hnone hjoining hleaving
    · exact .of_subset rfl (Or.inl rfl) (fun hscale => by cases hscale) (nil_subset _)
    · refine ⟨rfl,Or.inr ⟨_,rfl⟩,fun _ hm => .same (removeMembers_subset hm),?_⟩
      intro _
      simpa using hnone
    · exact .of_subset rfl (Or.inr ⟨_,rfl⟩) (fun hscale => by cases hscale) removeMembers_subset
    · exact .of_subset rfl (Or.inl rfl) (fun hscale => by cases hscale) removeMembers_subset

theorem fresh_clusterShutdown (h : commitClusterShutdown latest = .ok next) : Fresh tokensPerMember latest.state next := by
  simp only [commitClusterShutdown,buildClusterShutdownFinal,bind_eq_ok] at h
  obtain ⟨_,_,_,_,hret⟩ := h
  cases hret
  exact .of_subset rfl (Or.inl rfl) (fun hscale => by cases hscale) (nil_subset _)

/-- Members may be dropped as well when a failure is handled. -/
theorem fresh_failure_removed {confirmed : List MemberIdentity} (addresses addresses' : List Bytes)
    (h : buildFailureStartOrReplan latest.state confirmed = .ok plan) (hconfirmed : ∀ m ∈ latest.state.members,
      ∀ i ∈ confirmed, m.identity.address = i.address → m.state ≠ .initial) :
    Fresh tokensPerMember latest.state (removeMembers addresses (removeMembers addresses' plan.next)) := by
  have hbatch : plan.next.batchType ≠ some .scaleOut := by
    rw [(buildFailureStartOrReplan_next h).1]
    intro hscale
    cases hscale
  refine ((fresh_failure h ?_).removeMembers _ fun hscale => absurd hscale hbatch).removeMembers _ fun hscale =>
    absurd hscale hbatch
  intro m hm haddr
  obtain ⟨i,hi,heq⟩ := mem_map.mp haddr
  exact hconfirmed m hm i hi heq.symm

/-- Only members that own tokens count as failed, and only waiting ones are dropped as such. -/
structure Classified (latest : TopologyState) (c : FailureClassification) : Prop where
  failure : ∀ i ∈ c.confirmedFailure, ∀ m ∈ latest.members, m.identity.address = i.address →
    m.state ≠ .initial
  initial : ∀ i ∈ c.removeInitial, ∃ m ∈ latest.members, m.identity = i ∧ m.state = .initial

variable {obs : Observation}

theorem classified {observed : FailureClassification} (h : observe obs.timedOut latest obs.memberships = .ok observed) :
    Classified latest.state (confirmWithProbes latest obs observed) := by
  obtain ⟨_,_,hret⟩ := bind_eq_ok.mp h
  cases hret
  have huniq : ∀ {x m : Member}, x ∈ latest.state.members → m ∈ latest.state.members →
      m.identity.address = x.identity.address → m = x := fun hx hm haddr =>
    latest.valid.wellFormed.eq_of_address hm hx haddr
  constructor
  · intro i hi m hm haddr hinit
    rcases mem_append.mp hi with hi | hi
    · have hmem := (mem_filter.mp hi).1
      dsimp only at hmem
      split_ifs at hmem with hempty
      · cases hmem
      · rcases mem_append.mp (mem_sortIdentities.mp hmem) with hmem | hmem
        · obtain ⟨x,hx,rfl⟩ := mem_map.mp hmem
          simp only [mem_filter,Bool.and_eq_true] at hx
          rw [huniq hx.1.1 hm haddr] at hinit
          rw [hinit] at hx
          cases hx.2.1
        · obtain ⟨x,hx,hstate,rfl⟩ := mem_membersInState.mp hmem
          rw [huniq hx hm haddr,hstate] at hinit
          cases hinit
    · have hcand := (mem_filter.mp hi).2
      simp only [Bool.and_eq_true,isSummaryCandidate,Option.any_eq_true,decide_eq_true_eq] at hcand
      obtain ⟨⟨x,hfind,hstate,_⟩,_⟩ := hcand
      have hx : x.identity.address = i.address := by simpa using find?_some hfind
      rw [huniq (mem_of_find?_eq_some hfind) hm (haddr.trans hx.symm),hstate] at hinit
      cases hinit
  · intro i hi
    obtain ⟨x,hx,rfl⟩ := mem_map.mp hi
    simp only [mem_filter,decide_eq_true_eq] at hx
    exact ⟨x,hx.1.1,rfl,hx.2⟩

variable {c : FailureClassification}

/-- The addresses of dropped waiting members belong to no other member. -/
theorem Classified.not_mem_removeInitial (h : Classified latest.state c) {m : Member}
    (hm : m ∈ latest.state.members) (hstate : m.state ≠ .initial) :
    m.identity.address ∉ c.removeInitial.map address := by
  intro hmem
  obtain ⟨i,hi,haddr⟩ := mem_map.mp hmem
  obtain ⟨x,hx,rfl,hinit⟩ := h.initial i hi
  rw [latest.valid.wellFormed.eq_of_address hx hm haddr] at hinit
  exact hstate hinit

theorem mem_foldl_addConfirmed {limit : Nat} {confirmed found : List MemberIdentity}
    {i : MemberIdentity} (h : i ∈ found.foldl (addConfirmed limit) confirmed) :
    i ∈ confirmed ∨ i ∈ found := by
  induction found generalizing confirmed with
  | nil => exact Or.inl h
  | cons j found ih =>
    rcases ih h with hmem | hmem
    · unfold addConfirmed at hmem
      split_ifs at hmem
      · exact Or.inl hmem
      · rcases mem_append.mp hmem with hmem | hmem
        · exact Or.inl hmem
        · rw [mem_singleton.mp hmem]
          exact Or.inr mem_cons_self
    · exact Or.inr (mem_cons_of_mem _ hmem)

theorem not_initial_of_failed {m : Member} (hm : m ∈ latest.state.members) {i : MemberIdentity}
    (hi : i ∈ membersInState latest.state .failed) (haddr : m.identity.address = i.address) :
    m.state ≠ .initial := by
  obtain ⟨x,hx,hstate,rfl⟩ := mem_membersInState.mp hi
  rw [latest.valid.wellFormed.eq_of_address hm hx haddr,hstate]
  exact fun hinit => by cases hinit

variable {options : TopologyControllerOptions}

theorem fresh_confirmedFailures (hc : Classified latest.state c)
    (h : commitConfirmedFailures options latest c = .ok (some next)) : Fresh tokensPerMember latest.state next := by
  unfold commitConfirmedFailures at h
  dsimp only at h
  split_ifs at h
  · cases h
  · obtain ⟨plan,hplan,hret⟩ := bind_eq_ok.mp h
    cases hret
    apply fresh_failure_removed _ _ hplan
    intro m hm i hi haddr
    rcases mem_foldl_addConfirmed hi with hi | hi
    · exact not_initial_of_failed hm hi haddr
    · exact hc.failure i hi m hm haddr

/-- Dropping waiting members edits the membership. -/
theorem edited_removeInitial (hc : Classified latest.state c) (version : Nat) :
    Edited latest.state (eraseMembers c.removeInitial { latest.state with version := version }) where
  activeBatch := rfl
  kept m hm hinit := ⟨m,mem_removeMembers.mpr ⟨hm,hc.not_mem_removeInitial hm hinit⟩,KeptAs.refl m⟩
  origin m hm _ := ⟨m,(mem_removeMembers.mp hm).1,KeptAs.refl m⟩

theorem transition_uncommittedCleanup (hc : Classified latest.state c)
    (h : commitUncommittedCleanup options latest c = .ok (some next)) :
    Transition options.tokensPerMember latest.state next := by
  have hinitial : (if c.removeInitial.isEmpty then none
      else some (eraseMembers c.removeInitial { latest.state with version := latest.state.version + 1 })) = some next →
      Transition options.tokensPerMember latest.state next := by
    intro heq
    split_ifs at heq
    cases heq
    exact .edit rfl (edited_removeInitial hc _)
  unfold commitUncommittedCleanup at h
  dsimp only at h
  split at h
  · exact hinitial (Except.ok.inj h)
  · split at h
    · obtain ⟨plan,hplan,hret⟩ := bind_eq_ok.mp h
      cases hret
      obtain ⟨hfresh,hsub⟩ := fresh_scaleOutReplan hplan
      refine .fresh (hfresh.removeMembers _ fun hscale => ?_)
      obtain ⟨m,hm,hcm⟩ := hfresh.committed hscale
      refine ⟨m,hm,hc.not_mem_removeInitial (hsub m hm) ?_,hcm⟩
      intro hinit
      rw [hinit] at hcm
      cases hcm
    · obtain ⟨plan,hplan,hret⟩ := bind_eq_ok.mp h
      cases hret
      exact .fresh (fresh_failure_removed _ _ hplan fun m hm i hi => not_initial_of_failed hm hi)
    · exact hinitial (Except.ok.inj h)

theorem forall₂_applyExiting (limit : Nat) (exiting : List Bytes) (changed : Nat) (members : List Member) :
    List.Forall₂ KeptAs members (applyExitingMembershipFacts limit exiting changed members).1 := by
  induction members generalizing changed with
  | nil => exact List.Forall₂.nil
  | cons m members ih =>
    unfold applyExitingMembershipFacts
    split_ifs with hcond
    · simp only [Bool.and_eq_true,decide_eq_true_eq] at hcond
      exact List.Forall₂.cons ⟨rfl,rfl,Or.inr ⟨hcond.1.1,rfl⟩⟩ (ih _)
    · exact List.Forall₂.cons (KeptAs.refl m) (ih _)

theorem initial_of_applyReady {hasher : Hasher} {limit changed count : Nat} {known : List Bytes}
    {ready : List MembershipRecord} {added : List Member}
    (h : applyReadyMembershipFacts hasher limit changed known ready = .ok (added, count)) :
    ∀ m ∈ added, m.state = .initial := by
  induction ready generalizing changed known added count with
  | nil =>
    cases h
    intro m hm
    cases hm
  | cons record ready ih =>
    unfold applyReadyMembershipFacts at h
    split_ifs at h
    · exact ih h
    · obtain ⟨_,_,h⟩ := bind_eq_ok.mp h
      obtain ⟨memberId,_,h⟩ := bind_eq_ok.mp h
      obtain ⟨⟨rest,n⟩,hrest,hret⟩ := bind_eq_ok.mp h
      cases hret
      intro m hm
      rcases mem_cons.mp hm with rfl | hm
      · rfl
      · exact ih hrest m hm

theorem edited_append {latest : TopologyState} {members added : List Member}
    (hkept : List.Forall₂ KeptAs latest.members members)
    (hadded : ∀ m ∈ added, m.state = .initial) (version : Nat) :
    Edited latest { latest with version := version, members := members ++ added } where
  activeBatch := rfl
  kept m hm _ := by
    obtain ⟨n,hn,rfl⟩ := mem_iff_getElem.mp hm
    have hlen := hkept.length_eq
    exact ⟨members[n],mem_append_left _ (getElem_mem (hlen ▸ hn)), List.Forall₂.get hkept hn (hlen ▸ hn)⟩
  origin m hm hinit := by
    rcases mem_append.mp hm with hm | hm
    · obtain ⟨n,hn,rfl⟩ := mem_iff_getElem.mp hm
      have hlen := hkept.length_eq
      exact ⟨latest.members[n],getElem_mem (hlen.symm ▸ hn), List.Forall₂.get hkept (hlen.symm ▸ hn) hn⟩
    · exact absurd (hadded m hm) hinit

theorem transition_membershipFacts (h : commitMembershipFacts options latest obs = .ok (some next)) :
    Transition tokensPerMember latest.state next := by
  obtain ⟨⟨added,changed⟩,hadded,hret⟩ := bind_eq_ok.mp h
  have hinitial : ∀ m ∈ added, m.state = .initial := by
    unfold admitReadyMembers at hadded
    split_ifs at hadded
    · exact initial_of_applyReady hadded
    · cases hadded
      intro m hm
      cases hm
  have heq := Except.ok.inj hret
  dsimp only at heq
  split_ifs at heq
  cases heq
  exact .edit rfl (edited_append (forall₂_applyExiting _ _ _ _) hinitial _)

theorem transition_confirmFailures (h : tryConfirmFailures options latest obs = .ok (some next)) :
    Transition options.tokensPerMember latest.state next := by
  unfold tryConfirmFailures at h
  split at h
  · obtain ⟨state,hstate,hret⟩ := bind_eq_ok.mp h
    cases hret
    exact .fresh (fresh_clusterShutdown hstate)
  · split at h
    · unfold handleCollectiveMembershipAbsence bootstrapCollectiveReplacement at h
      split at h
      · cases h
      · split at h
        · cases h
        · obtain ⟨⟨admitted,_⟩,hadmitted,h⟩ := bind_eq_ok.mp h
          obtain ⟨state,hstate,hret⟩ := bind_eq_ok.mp h
          cases hret
          refine .fresh (fresh_bootstrap ?_ ?_ hstate)
          · rfl
          · exact initial_of_applyReady hadmitted
    · obtain ⟨observed,hobserved,h⟩ := bind_eq_ok.mp h
      have hclassified := classified hobserved
      dsimp only at h
      split at h
      · exact .fresh (fresh_confirmedFailures hclassified h)
      · split at h
        · exact transition_uncommittedCleanup hclassified h
        · exact transition_membershipFacts h

theorem fresh_finalizeActiveBatch {expected : ExpectedDerivedState}
    (h : tryFinalizeActiveBatch options latest expected obs = .ok (some next)) :
    Fresh options.tokensPerMember latest.state next := by
  unfold tryFinalizeActiveBatch at h
  split at h
  · cases h
  · rename_i batch _
    dsimp only at h
    have hfinal : (commitBatchFinal latest batch.type >>= fun state => pure (some state)) =
        .ok (some next) → Fresh options.tokensPerMember latest.state next := by
      intro h
      obtain ⟨state,hstate,hret⟩ := bind_eq_ok.mp h
      cases hret
      exact fresh_batchFinal hstate
    split at h
    · cases h
    · split at h
      · exact hfinal h
      · split at h
        · cases h
        · split at h
          · obtain ⟨state,hstate,hret⟩ := bind_eq_ok.mp h
            cases hret
            simp only [commitScaleOutExhaustion,bind_eq_ok] at hstate
            obtain ⟨_,_,plan,hplan,hret⟩ := hstate
            cases hret
            exact (fresh_scaleOutReplan hplan).1
          · cases h
          · exact hfinal h

theorem fresh_startNextBatch (h : tryStartNextBatch options latest obs = .ok (some next)) :
    Fresh options.tokensPerMember latest.state next := by
  unfold tryStartNextBatch at h
  dsimp only at h
  split at h
  · cases h
  · rename_i hstable
    simp only [Bool.or_eq_true,not_or,Option.isSome_iff_ne_none,ne_eq,not_not] at hstable
    split at h
    · split at h
      · rename_i hnone
        obtain ⟨state,hstate,hret⟩ := bind_eq_ok.mp h
        cases hret
        refine fresh_bootstrap rfl ?_ hstate
        -- a stable topology without committed members has only waiting ones
        intro m hm
        have htrans := latest.valid.batchStates.stable hstable.1 m hm
        simp only [Bool.not_eq_true',any_eq_false] at hnone
        have hcommitted := hnone m hm
        cases hs : m.state <;> simp_all [isTransitional,isCommittedMemberState]
      · obtain ⟨plan,hplan,hret⟩ := bind_eq_ok.mp h
        cases hret
        exact fresh_scaleOutStart hplan
    · split at h
      · obtain ⟨plan,hplan,hret⟩ := bind_eq_ok.mp h
        cases hret
        exact fresh_scaleInStart hplan
      · cases h

/-- What a reconciliation wants to commit. -/
theorem recoverFromLatestTopology_transition (h : recoverFromLatestTopology options latest obs = .ok (some next)) :
    Transition options.tokensPerMember latest.state next := by
  unfold recoverFromLatestTopology at h
  obtain ⟨confirmed,hconfirmed,h⟩ := bind_eq_ok.mp h
  cases confirmed with
  | some state =>
    cases h
    exact transition_confirmFailures hconfirmed
  | none =>
    obtain ⟨expected,_,h⟩ := bind_eq_ok.mp h
    obtain ⟨finalized,hfinalized,h⟩ := bind_eq_ok.mp h
    cases finalized with
    | some state =>
      cases h
      exact .fresh (fresh_finalizeActiveBatch hfinalized)
    | none => exact .fresh (fresh_startNextBatch h)

end

end Datasystem.Cluster
