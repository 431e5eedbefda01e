import Datasystem.Cluster.ControllerRuns

/-!
# Failure batches

The tokens of failed members go to active members, while requests for them go to the next committed owner,
active or not. The two differ when that owner is about to leave.
A batch makes progress when its tasks can be derived. A scale-in that is resumed after a failure can miss
both: its only owners leave while a member waits to join.
-/

namespace Datasystem.Cluster

open TopologySnapshot

theorem buildClusterShutdownFinal_isOk {state : TopologyState} :
    (∃ final, buildClusterShutdownFinal state = .ok final) ↔ state.members ≠ [] ∧
      ∀ m ∈ state.members, m.state = .preLeaving ∨ m.state = .leaving := by
  simp only [buildClusterShutdownFinal,Except.bind_eq_ok,checkFailReturnStatus_eq_ok,exists_const,
    Bool.not_eq_true',List.isEmpty_eq_false_iff,List.all_eq_true,Bool.or_eq_true,decide_eq_true_eq]
  constructor
  · rintro ⟨_,hne,hall,_⟩
    exact ⟨hne,hall⟩
  · rintro ⟨hne,hall⟩
    exact ⟨_,hne,hall,rfl⟩

/-- The plan of a batch of a run fails only when a scale-in has nobody to hand its tokens to. -/
theorem MemberInv.plannable {tokensPerMember : Nat} {s : TopologySnapshot}
    (h : MemberInv tokensPerMember s.state) {b : ActiveBatch} (hb : s.state.activeBatch = some b)
    (hscaleIn : b.type = .scaleIn → ∃ m ∈ s.state.members, isAdmittedScaleInMigrationTargetState m.state = true) :
    Plannable tokensPerMember s.state b.type := by
  obtain ⟨type,epoch⟩ := b
  cases type with
  | scaleOut =>
    obtain ⟨m,hm,hstate⟩ := s.valid.batchStates.participant _ hb
    obtain ⟨hpos,hle⟩ := h.joining m hm hstate
    exact ⟨hpos,hle,h.committed (by simp [TopologyState.batchType,hb])⟩
  | scaleIn =>
    obtain ⟨m,hm,hadm⟩ := hscaleIn rfl
    refine ⟨m,hm,hadm,h.tokens m hm ?_⟩
    intro hinit
    rw [hinit] at hadm
    cases hadm
  | failure =>
    intro m hm hactive
    exact ⟨m,hm,hactive,h.tokens m hm (by simp [hactive])⟩

open ClosedRange TopologySnapshot List Hasher TopologyTask MemberIdentity

theorem isCommitted_of_active {m : Member} (h : decide (m.state = .active) = true) :
    isCommittedMemberState m.state = true := by
  rw [of_decide_eq_true h]
  rfl

/-- The active members that have not failed. -/
def survives (failed : List MemberIdentity) (m : Member) : Bool := m.state = .active && m.identity ∉ failed

section Survivors

variable {current : TopologyState} {failed : List MemberIdentity} {plan : TopologyPlan} {m : Member}

theorem survives_iff : survives failed m = true ↔ m.state = .active ∧ m.identity ∉ failed := by
  simp [survives]

variable (hwf : WellFormed current.members) (hselected : validateSelectedMembers current failed = .ok ()) (hm : m ∈ current.members)

include hwf hselected hm

theorem address_mem_iff : m.identity.address ∈ failed.map address ↔ m.identity ∈ failed := by
  refine ⟨?_,mem_map_of_mem⟩
  intro haddr
  obtain ⟨i,hi,haddr⟩ := mem_map.mp haddr
  obtain ⟨x,hx,rfl,_⟩ := (validateSelectedMembers_eq_ok hwf).mp hselected i hi
  rwa [← hwf.eq_of_address hx hm haddr]

theorem isEligible_eq_survives : isEligible false (failed.map address) true m = survives failed m := by
  simp [isEligible,survives,address_mem_iff hwf hselected hm]

omit hwf hselected hm

theorem planFailure_ok_iff : (∃ plan, planFailure current failed = .ok plan) ↔
    validate current = .ok () ∧ validateIdentities failed = .ok () ∧
      validateSelectedMembers current failed = .ok () ∧ failed ≠ [] ∧
      ∃ m ∈ current.members, survives failed m = true ∧ m.tokens ≠ [] := by
  simp only [planFailure_eq_ok,validateIdentities_eq_ok]
  constructor
  · rintro ⟨_,hvalid,hids,hselected,hne,_,⟨m,hm,hs,htok⟩,_⟩
    rw [isEligible_eq_survives (validate_eq_ok.mp hvalid).1 hselected hm] at hs
    exact ⟨hvalid,hids,hselected,hne,m,hm,hs,htok⟩
  · rintro ⟨hvalid,hids,hselected,hne,m,hm,hs,htok⟩
    have hcommitted : isEligible false [] false m = true := by
      simp [isEligible,(survives_iff.mp hs).1,isCommittedMemberState]
    rw [← isEligible_eq_survives (validate_eq_ok.mp hvalid).1 hselected hm] at hs
    exact ⟨_,hvalid,hids,hselected,hne,⟨m,hm,hcommitted,htok⟩,⟨m,hm,hs,htok⟩,rfl⟩

theorem planFailure_spec (hplan : planFailure current failed = .ok plan) :
    ChangeSpec (fun t source target => Moves (committedRing current)
      (memberRing (survives failed) current.members) t source target ∧ source ∈ failed) plan.ownerChanges := by
  obtain ⟨hvalid,_,hselected,_,_,_,rfl⟩ := planFailure_eq_ok.mp hplan
  have hwf := (validate_eq_ok.mp hvalid).1
  rw [committedRing_eq,memberRing_congr fun m hm => isEligible_eq_survives hwf hselected hm]
  refine ((hwf.diff_spec _ _).filter _).congr fun t source target => and_congr_right ?_
  rintro ⟨howner,_⟩
  obtain ⟨x,hx,_,rfl,_⟩ := hwf.ownerOf_eq_some howner
  rw [decide_eq_true_eq,address_mem_iff hwf hselected hx]

/-- A plan exists whenever the input is accepted and a surviving active member has a token. Its ranges hold each
token of a failed owner once and no other token, and give it to the first such member clockwise from it. -/
theorem failure_ranges_follow_survivors (current : TopologyState) (failed : List MemberIdentity) :
    ((∃ plan, planFailure current failed = .ok plan) ↔ validate current = .ok () ∧
      validateIdentities failed = .ok () ∧ validateSelectedMembers current failed = .ok () ∧ failed ≠ [] ∧
      ∃ m ∈ current.members, survives failed m = true ∧ m.tokens ≠ []) ∧
    ∀ plan, planFailure current failed = .ok plan → (∀ c ∈ plan.ownerChanges, c.target ∉ failed) ∧
      ∀ t, ∃ owner target k, ownerOf (committedRing current) t = some owner ∧
        TokenRing.Owns (memberRing (survives failed) current.members) t (k, target) ∧
        (plan.ownerChanges.flatMap TopologyOwnerChange.ranges).countP (fun r => r.contains t) =
          (if owner ∈ failed then 1 else 0) ∧
        ∀ c ∈ plan.ownerChanges, Covers c.ranges t → c.source = some owner ∧ c.target = target := by
  refine ⟨planFailure_ok_iff,?_⟩
  intro plan hplan
  obtain ⟨hvalid,_,_,_,m,hm,hs,htok⟩ := planFailure_ok_iff.mp ⟨plan,hplan⟩
  have hwf := (validate_eq_ok.mp hvalid).1
  have hspec := planFailure_spec hplan
  have hsurvives : ∀ {t target}, ownerOf (memberRing (survives failed) current.members) t = some target →
      target ∉ failed := by
    intro t target htarget
    obtain ⟨m,_,hs,rfl,_⟩ := hwf.ownerOf_eq_some htarget
    exact (survives_iff.mp hs).2
  constructor
  · intro c hc
    obtain ⟨source,_,hranges,hsep,hcov⟩ := hspec.sound c hc
    obtain ⟨t,ht⟩ := exists_covers hranges hsep.nonempty
    exact hsurvives ((hcov t).mp ht).1.2.1
  · intro t
    obtain ⟨target,htarget⟩ := exists_ownerOf ⟨m,hm,hs,htok⟩ t
    obtain ⟨_,_,_,_,k,_,howns⟩ := hwf.ownerOf_eq_some htarget
    have hcommitted : ∃ m ∈ current.members, isCommittedMemberState m.state = true ∧ m.tokens ≠ [] :=
      ⟨m,hm,isCommitted_of_active (decide_eq_true (survives_iff.mp hs).1),htok⟩
    obtain ⟨owner,howner⟩ := exists_ownerOf hcommitted t
    refine ⟨owner,target,k,howner,howns,?_,?_⟩
    · split_ifs with howned
      · refine hspec.countP_eq_one (fun t s g s' g' h h' => h.1.unique h'.1) ⟨⟨howner,htarget,?_⟩,howned⟩
        rintro rfl
        exact hsurvives htarget howned
      · refine hspec.countP_eq_zero ?_
        rintro source target' ⟨⟨hsource,_⟩,hmem⟩
        obtain rfl := Option.some.inj (hsource.symm.trans howner)
        exact howned hmem
    · intro c hc hcovers
      obtain ⟨source,hsource,_,_,hcov⟩ := hspec.sound c hc
      obtain ⟨⟨hfrom,hto,_⟩,_⟩ := (hcov t).mp hcovers
      exact ⟨hsource.trans (hfrom.symm.trans howner),Option.some.inj (hto.symm.trans htarget)⟩

end Survivors

/-- The members of a new failure batch, as they are stored. -/
theorem plannable_of_failureStart {latest s : TopologySnapshot} {confirmed : List MemberIdentity}
    {plan : TopologyPlan} (hplan : buildFailureStartOrReplan latest.state confirmed = .ok plan)
    (hcommit : create plan.next = .ok s) (tokensPerMember : Nat) :
    Plannable tokensPerMember s.state .failure := by
  intro m hm hactive
  rw [state_of_create hcommit] at hm
  obtain ⟨m',hm',rfl⟩ := mem_canonicalMembers.mp hm
  obtain ⟨owner,howner,hstate,htok⟩ := (buildFailureStartOrReplan_next hplan).2 m' hm' hactive
  obtain ⟨x,hx,hxactive,hxtok⟩ := exists_of_create hcommit (p := fun state => state = .active)
    ⟨owner,howner,by simpa using hstate,htok⟩
  exact ⟨x,hx,by simpa using hxactive,hxtok⟩

variable {source target : MemberIdentity} {t : UInt32} {s : TopologySnapshot}

/-- The committed owner of a token that a failure moves is its target exactly when it is active. -/
theorem BatchMoves.exists_owner (h : BatchMoves s.state .failure t source target) :
    ∃ owner, s.locateOwner t = .ok owner ∧ (owner.identity.address = target.address ↔ owner.state = .active) := by
  have hwf := s.valid.wellFormed
  obtain ⟨⟨_,htarget,_⟩,_⟩ := h
  obtain ⟨m,hm,hactive,rfl,k,hk,_⟩ := hwf.ownerOf_eq_some htarget
  have hcommitted : ∃ m ∈ s.state.members, isCommittedMemberState m.state = true ∧ m.tokens ≠ [] :=
    ⟨m,hm,isCommitted_of_active hactive,ne_nil_of_mem hk⟩
  obtain ⟨i,hi⟩ := exists_ownerOf hcommitted t
  obtain ⟨owner,hlocate,howner,_,rfl⟩ := locateOwner_iff.mpr hi
  refine ⟨owner,hlocate,?_,?_⟩
  · intro haddr
    rw [hwf.eq_of_address howner hm haddr]
    exact of_decide_eq_true hactive
  · intro hstate
    have hsub : ownerOf (activeRing s.state) t = some owner.identity :=
      hwf.ownerOf_subring (fun _ _ => isCommitted_of_active) howner (decide_eq_true hstate) hi
    rw [Option.some.inj (hsub.symm.trans htarget)]

theorem filter_failureFinal {state final : TopologyState} (hvalid : Valid state)
    (h : buildFailureFinal state = .ok final) :
    final.members.filter (fun m => isCommittedMemberState m.state) =
      state.members.filter fun m => isCommittedMemberState m.state := by
  have hremoved : (removeMembers ((membersInState state .failed).map address)
        state).members.filter (fun m => isCommittedMemberState m.state) =
      state.members.filter fun m => isCommittedMemberState m.state := by
    rw [removeMembers,filter_filter]
    apply filter_congr
    intro m hm
    by_cases hf : m.state = .failed <;> simp [hvalid.mem_addresses hm,hf,isCommittedMemberState]
  simp only [buildFailureFinal,Except.bind_eq_ok] at h
  obtain ⟨_,_,_,_,hret⟩ := h
  cases hret
  split_ifs with hnone
  · rw [← hremoved]
    symm
    simpa [filter_eq_nil_iff] using hnone
  all_goals exact hremoved

theorem locateOwner_failureFinal {s s' : TopologySnapshot} {final : TopologyState}
    (hfinal : buildFailureFinal s.state = .ok final) (hcommit : create final = .ok s')
    (t : UInt32) : s'.locateOwner t = s.locateOwner t := by
  have hcanon : Canonical final.members := by
    simp only [buildFailureFinal,Except.bind_eq_ok] at hfinal
    obtain ⟨_,_,_,_,hret⟩ := hfinal
    cases hret
    split_ifs
    · exact ⟨List.Pairwise.nil,by simp⟩
    all_goals exact s.valid.canonical.filter _
  unfold locateOwner committedTokenOwners tokenPoints
  rw [state_of_create_canonical hcommit hcanon,filter_failureFinal s.valid hfinal]

theorem exists_failureFinal {b : ActiveBatch} (hb : s.state.activeBatch = some b) (htype : b.type = .failure) :
    ∃ final, buildFailureFinal s.state = .ok final := by
  have hpart := s.valid.participants_ne_nil hb
  rw [htype] at hpart
  simp only [participantState] at hpart
  exact ⟨_,by simp [buildFailureFinal,validateBatch,hb,htype,hpart,checkFailReturnStatus,bind,
    Except.bind,pure,Except.pure]; rfl⟩

/-- Requests for a token that is being recovered go to one owner during and after the failure batch.
This owner is the executor of the recovery exactly when it is active. -/
theorem recovery_executor_routed_iff {hasher : Hasher} (hsha : hasher.Total) (tokensPerMember : Nat)
    {latest s : TopologySnapshot} {confirmed : List MemberIdentity} {plan : TopologyPlan}
    (hplan : buildFailureStartOrReplan latest.state confirmed = .ok plan)
    (hcommit : create plan.next = .ok s) :
    ∃ expected final, rebuildExpected hasher tokensPerMember s = .ok expected ∧ buildFailureFinal s.state = .ok final ∧
      (∀ task ∈ expected.tasks, ∀ t, Covers task.ranges t → ∃ owner, s.locateOwner t = .ok owner ∧
        (owner.identity.address = task.executorAddress ↔ owner.state = .active)) ∧
      ∀ s', create final = .ok s' → ∀ t, s'.locateOwner t = s.locateOwner t := by
  have hb : s.state.activeBatch = some ⟨.failure,latest.state.version + 1⟩ := by
    rw [state_of_create hcommit,(buildFailureStartOrReplan_next hplan).1]
  have hplannable := plannable_of_failureStart hplan hcommit tokensPerMember
  obtain ⟨expected,hexpected,hspec⟩ := rebuildExpected_spec hb hplannable hsha
  obtain ⟨final,hfinal⟩ := exists_failureFinal hb rfl
  refine ⟨expected,final,hexpected,hfinal,?_,fun s' => locateOwner_failureFinal hfinal⟩
  intro task htask t hcov
  obtain ⟨source,target,hnames,_,hmoves⟩ := hspec.names task htask
  rw [Names.executorAddress_eq hnames rfl]
  exact (hmoves t hcov).exists_owner

section Routing

private def failing : TopologySnapshot where
  state := ⟨true,5,[sampleMember 1 .active [100],sampleMember 2 .preLeaving [200],
    sampleMember 3 .active [300]],none⟩
  valid := valid_of_validate (by decide +kernel)

private def failed : TopologySnapshot where
  state := ⟨true,6,[sampleMember 1 .failed [100],sampleMember 2 .preLeaving [200],
    sampleMember 3 .active [300]],some ⟨.failure,6⟩⟩
  valid := valid_of_validate (by decide +kernel)

private theorem failed_of_failing : buildFailureStartOrReplan failing.state
    [(sampleMember 1 .active []).identity] = .ok ⟨failed.state,[⟨(sampleMember 1 .active []).identity,
      (sampleMember 3 .active []).identity,[⟨0,100⟩,⟨301,4294967295⟩]⟩]⟩ := by
  decide +kernel

/-- Member 1 fails while member 2 is about to leave: member 3 recovers token 50, and requests for it
go to member 2. -/
theorem recovery_executor_not_routed :
    ∃ (latest s : TopologySnapshot) (confirmed : List MemberIdentity) (plan : TopologyPlan)
      (expected : ExpectedDerivedState) (task : TopologyTask) (owner : Member),
      buildFailureStartOrReplan latest.state confirmed = .ok plan ∧ create plan.next = .ok s ∧
      rebuildExpected openssl 4 s = .ok expected ∧ task ∈ expected.tasks ∧
      Covers task.ranges 50 ∧ s.locateOwner 50 = .ok owner ∧
      owner.identity.address ≠ task.executorAddress := by
  have heval : (rebuildExpected openssl 4 failed).toOption.map (fun expected =>
      expected.tasks.map fun task => (task.executorAddress, task.ranges)) =
        some [((sampleMember 3 .active []).identity.address, [⟨0,100⟩,⟨301,4294967295⟩])] := by
    decide +kernel
  cases hexpected : rebuildExpected openssl 4 failed with
  | error status => cases hexpected ▸ heval
  | ok expected =>
    rw [hexpected] at heval
    obtain ⟨task,htasks,htask⟩ := map_eq_singleton_iff.mp (Option.some.inj heval)
    obtain ⟨hexecutor,hranges⟩ := Prod.mk.inj htask
    refine ⟨failing,failed,_,_,expected,task,sampleMember 2 .preLeaving [200],failed_of_failing,
      create_eq_ok.mpr failed.valid.validate,hexpected,?_,?_,rfl,?_⟩
    · simp [htasks]
    · rw [hranges]
      exact ⟨⟨0,100⟩,mem_cons_self,rfl⟩
    · rw [hexecutor]
      decide

/-- After the same failure, requests for token 50 still go to member 2. -/
theorem recovery_executor_routed_iff_failed : ∃ expected final, rebuildExpected openssl 4 failed = .ok expected ∧
      buildFailureFinal failed.state = .ok final ∧
      (∀ task ∈ expected.tasks, ∀ t, Covers task.ranges t → ∃ owner, failed.locateOwner t = .ok owner ∧
        (owner.identity.address = task.executorAddress ↔ owner.state = .active)) ∧
      ∀ s', create final = .ok s' → s'.locateOwner 50 = .ok (sampleMember 2 .preLeaving [200]) := by
  obtain ⟨expected,final,hexpected,hfinal,hrouted,hafter⟩ := recovery_executor_routed_iff
    openssl_total 4 failed_of_failing (create_eq_ok.mpr failed.valid.validate)
  exact ⟨expected,final,hexpected,hfinal,hrouted,fun s' hcommit => hafter s' hcommit 50⟩

end Routing

section Edits

variable {before after : TopologyState} (h : Edited before after)

include h

theorem Edited.active_origin {m' : Member} (hm' : m' ∈ after.members)
    (hactive : m'.state = .active) : ∃ m ∈ before.members, m.state = .active ∧
      m.identity = m'.identity ∧ m.tokens = m'.tokens := by
  obtain ⟨m,hm,hid,htok,hstate⟩ := h.origin m' hm' (by simp [hactive])
  simp only [hactive,reduceCtorEq,and_false,or_false] at hstate
  exact ⟨m,hm,hstate.symm,hid.symm,htok.symm⟩

theorem Edited.ownerOf_unfailed (hbefore : Valid before) (hafter : Valid after) (t : UInt32) :
    ownerOf (unfailedRing after) t = ownerOf (unfailedRing before) t :=
  h.ownerOf_eq hbefore hafter (p := fun s => isCommittedMemberState s || s = .failed) rfl rfl t

/-- An active member keeps its tokens while others start to leave. -/
theorem Edited.ownerOf_active (hbefore : Valid before) (hafter : Valid after)
    {m m' : Member} (hm : m ∈ before.members) (hm' : m' ∈ after.members)
    (hkept : KeptAs m m') (hactive : m'.state = .active)
    (ho : ownerOf (activeRing before) t = some m.identity) :
    ownerOf (activeRing after) t = some m.identity := by
  obtain ⟨x,hx,_,hid,k,hk,howns⟩ := hbefore.wellFormed.ownerOf_eq_some ho
  obtain rfl := hbefore.wellFormed.eq_of_address hx hm (by rw [hid])
  have hsub : ∀ p ∈ activeRing after, p ∈ activeRing before := by
    intro p hp
    obtain ⟨y',hy',hactive',hptok,hpid⟩ := mem_memberRing.mp hp
    obtain ⟨y,hy,hyactive,hid,htok⟩ := h.active_origin hy' (of_decide_eq_true hactive')
    rw [← htok] at hptok
    rw [← hid] at hpid
    exact mem_memberRing.mpr ⟨y,hy,decide_eq_true hyactive,hptok,hpid⟩
  have hmem : (k, x.identity) ∈ activeRing after :=
    mem_memberRing.mpr ⟨m',hm',decide_eq_true hactive,hkept.2.1 ▸ hk,hkept.1.symm⟩
  rw [ownerOf,activeRing,(hafter.wellFormed.memberRing_ordered _).find_eq_some.mpr (howns.of_subset hsub hmem)]
  rfl

theorem Edited.failed_iff {i : MemberIdentity} :
    i ∈ membersInState after .failed ↔ i ∈ membersInState before .failed := by
  have hiff := h.exists_iff (p := fun s => s = .failed) rfl rfl fun identity _ => identity = i
  simp only [decide_eq_true_eq] at hiff
  rw [mem_membersInState,mem_membersInState]
  exact hiff

/-- A failure keeps moving a token to the same target, as long as the target stays. -/
theorem Edited.failureMoves (hbefore : Valid before) (hafter : Valid after)
    (hmoves : BatchMoves before .failure t source target)
    (hstays : ∀ m' ∈ after.members, m'.identity = target → m'.state ≠ .preLeaving) :
    BatchMoves after .failure t source target := by
  obtain ⟨⟨hsource,htarget,hne⟩,hfailed⟩ := hmoves
  refine ⟨⟨?_,?_,hne⟩,h.failed_iff.mpr hfailed⟩
  · exact (h.ownerOf_unfailed hbefore hafter t).trans hsource
  · obtain ⟨m,hm,hactive,rfl,_⟩ := hbefore.wellFormed.ownerOf_eq_some htarget
    rw [decide_eq_true_eq] at hactive
    obtain ⟨m',hm',hkept⟩ := h.kept m hm (by simp [hactive])
    have hactive' : m'.state = .active := by
      rcases hkept.2.2 with hsame | ⟨_,hpre⟩
      · exact hsame.trans hactive
      · exact absurd hpre (hstays m' hm' hkept.1)
    exact h.ownerOf_active hbefore hafter hm hm' hkept hactive' htarget

/-- A token that the failure moves after an edit has moved before it, if only to another target. -/
theorem Edited.failureMoves_before (hbefore : Valid before) (hafter : Valid after)
    (hmoves : BatchMoves after .failure t source target) :
    ∃ target', BatchMoves before .failure t source target' := by
  obtain ⟨⟨hsource,htarget,_⟩,hfailed⟩ := hmoves
  obtain ⟨m',hm',hactive',rfl,k,hk,_⟩ := hafter.wellFormed.ownerOf_eq_some htarget
  obtain ⟨m,hm,hactive,_,htok⟩ := h.active_origin hm' (of_decide_eq_true hactive')
  have howner : ∃ m ∈ before.members, decide (m.state = .active) = true ∧ m.tokens ≠ [] :=
    ⟨m,hm,decide_eq_true hactive,ne_nil_of_mem (htok ▸ hk)⟩
  obtain ⟨target',htarget'⟩ := exists_ownerOf howner t
  obtain ⟨x,hx,hxactive,rfl,_⟩ := hbefore.wellFormed.ownerOf_eq_some htarget'
  have hfailed' := h.failed_iff.mp hfailed
  refine ⟨x.identity,⟨?_,htarget',?_⟩,hfailed'⟩
  · exact (h.ownerOf_unfailed hbefore hafter t).symm.trans hsource
  · -- a failed source is not an active target
    rintro rfl
    obtain ⟨y,hy,hyfailed,hyid⟩ := mem_membersInState.mp hfailed'
    obtain rfl := hbefore.wellFormed.eq_of_address hy hx (by rw [hyid])
    simp [hyfailed] at hxactive

theorem Edited.failureMoves_iff (hbefore : Valid before)
    (hafter : Valid after) (hstays : ∀ t source target, BatchMoves before .failure t source target →
      ∀ m' ∈ after.members, m'.identity = target → m'.state ≠ .preLeaving)
    (t : UInt32) (source target : MemberIdentity) :
    BatchMoves after .failure t source target ↔ BatchMoves before .failure t source target := by
  have hforward : ∀ target, BatchMoves before .failure t source target →
      BatchMoves after .failure t source target := fun target hmoves =>
    h.failureMoves hbefore hafter hmoves (hstays t source target hmoves)
  constructor
  · intro hmoves
    obtain ⟨target',hmoves'⟩ := h.failureMoves_before hbefore hafter hmoves
    obtain ⟨_,rfl⟩ := BatchMoves.unique t _ _ _ _ hmoves (hforward target' hmoves')
    exact hmoves'
  · exact hforward target

omit h

end Edits

section Run

variable {options : TopologyControllerOptions} {history : TopologyHistory} {s s' : TopologySnapshot} {b : ActiveBatch}

/-- A commit that keeps the batch is an edit of the membership: every other commit has an epoch of
its own. -/
theorem HistoryInv.edited_of_same_batch (h : HistoryInv options (s :: history)) {a : ControllerAction}
    (hstep : controllerStep options (s :: history) a = some (s' :: s :: history)) (hb : s.state.activeBatch = some b)
    (hsame : s'.state.activeBatch = some b) : Edited s.state s'.state := by
  obtain ⟨committed,heq,hcases⟩ := controllerStep_cases h hstep
  obtain ⟨rfl,_⟩ := List.cons.inj heq
  rcases hcases with ⟨hnil,_⟩ | ⟨latest,rest,next,hlatest,htransition,hcreate⟩
  · cases hnil
  · obtain ⟨rfl,_⟩ := List.cons.inj hlatest
    cases htransition with
    | edit _ hedited => exact hedited.of_create hcreate
    | fresh hfresh =>
      rw [state_of_create hcreate] at hsame
      have hnew := hfresh.epoch hsame
      have hold := (s.valid.epoch b hb).2
      omega

theorem rebuildExpected_congr (hb : s.state.activeBatch = some b) (hb' : s'.state.activeBatch = some b)
    {tokensPerMember : Nat} (hplan : Plannable tokensPerMember s.state b.type)
    (hplan' : Plannable tokensPerMember s'.state b.type)
    (hmoves : ∀ t source target, BatchMoves s'.state b.type t source target ↔
      BatchMoves s.state b.type t source target) (hasher : Hasher) :
    rebuildExpected hasher tokensPerMember s' = rebuildExpected hasher tokensPerMember s := by
  obtain ⟨changes,hspec,heq⟩ := rebuildExpected_eq hb hplan hasher
  obtain ⟨changes',hspec',heq'⟩ := rebuildExpected_eq hb' hplan' hasher
  rw [heq,heq',(hspec'.congr hmoves).unique hspec]

theorem exists_executor (htype : b.type = .failure) {tasks : List TopologyTask}
    (hspec : TaskSpec b (BatchMoves s.state b.type) tasks)
    (hmoves : BatchMoves s.state b.type t source target) :
    ∃ task ∈ tasks, task.executorAddress = target.address := by
  obtain ⟨task,htask,hcov⟩ := hspec.exists_task hmoves
  obtain ⟨source',target',hnames,_,hcovered⟩ := hspec.names task htask
  obtain ⟨_,rfl⟩ := BatchMoves.unique t _ _ _ _ hmoves (hcovered t hcov)
  exact ⟨task,htask,Names.executorAddress_eq hnames htype⟩

/-- The target of a failure that starts to leave has no task any more. -/
theorem executorAddress_ne_of_preLeaving (hb : s.state.activeBatch = some b) (htype : b.type = .failure)
    {hasher : Hasher} (hsha : hasher.Total) {tokensPerMember : Nat} {expected : ExpectedDerivedState}
    (hexpected : rebuildExpected hasher tokensPerMember s = .ok expected) {task : TopologyTask}
    (htask : task ∈ expected.tasks) {m : Member} (hm : m ∈ s.state.members) (hpre : m.state = .preLeaving) :
    task.executorAddress ≠ m.identity.address := by
  intro haddr
  have hplan := plannable_of_rebuildExpected hb hexpected
  obtain ⟨_,heq,hspec⟩ := rebuildExpected_spec hb hplan hsha
  obtain rfl := Except.ok.inj (heq.symm.trans hexpected)
  obtain ⟨source,target,hnames,⟨t,hmoves⟩,_⟩ := hspec.names task htask
  obtain ⟨_,_,x,hx,_,rfl,hadm⟩ := hmoves.admissible s.valid hb
  rw [Names.executorAddress_eq hnames htype] at haddr
  obtain rfl := s.valid.wellFormed.eq_of_address hx hm haddr
  rw [htype] at hadm
  cases hpre.symm.trans hadm.2

/-- Member 1 forms a cluster with others and fails. -/
def failureOfOne (others : List MembershipRecord) : List ControllerAction :=
  [.ensureTopologyAuthority,reconcileNow (sampleRecord 1 .ready :: others),
    reconcileNow (sampleRecord 1 .ready :: others),reconcileNow others]

private def sampleAddress (n : UInt8) : Bytes := (sampleMember n .initial []).identity.address

/-- The batch of a topology, who is about to leave, and who executes the tasks. -/
private structure TasksView where
  batch : Option ActiveBatch
  leaving : List Bytes
  executors : Option (List Bytes)
deriving DecidableEq

private def tasksView (s : TopologySnapshot) : TasksView where
  batch := s.state.activeBatch
  leaving := (membersInState s.state .preLeaving).map address
  executors := (rebuildExpected openssl 1 s).toOption.map fun expected =>
    expected.tasks.map executorAddress

private theorem exists_commit (others : List MembershipRecord) (a : ControllerAction) {x y : TasksView}
    (heval : ((controllerMachine sampleOptions).run [] (failureOfOne others)).bind (fun history =>
      (controllerStep sampleOptions history a).map fun history' =>
        (history.head?.map tasksView, history'.head?.map tasksView)) = some (some x, some y)) :
    ∃ s s' history, (controllerMachine sampleOptions).Reachable (s :: history) ∧
      controllerStep sampleOptions (s :: history) a = some (s' :: s :: history) ∧
      tasksView s = x ∧ tasksView s' = y := by
  obtain ⟨history,hrun,heval⟩ := Option.bind_eq_some_iff.mp heval
  obtain ⟨history',hstep,heval⟩ := Option.map_eq_some_iff.mp heval
  obtain ⟨hx,hy⟩ := Prod.mk.inj heval
  have hreach : (controllerMachine sampleOptions).Reachable history := Machine.Reachable.run .init hrun
  obtain ⟨s',rfl,_⟩ := controllerStep_cases (reachable_historyInv hreach) hstep
  cases history with
  | nil => cases hx
  | cons s history => exact ⟨s,s',history,hreach,hstep,Option.some.inj hx,Option.some.inj hy⟩

private theorem exists_of_tasksView {executors : List Bytes} (h : (tasksView s).executors = some executors) :
    ∃ expected, rebuildExpected openssl 1 s = .ok expected ∧ expected.tasks.map executorAddress = executors := by
  unfold tasksView at h
  cases hok : rebuildExpected openssl 1 s with
  | error status =>
    rw [hok] at h
    cases h
  | ok expected =>
    rw [hok] at h
    exact ⟨expected,rfl,Option.some.inj h⟩

end Run

end Datasystem.Cluster
