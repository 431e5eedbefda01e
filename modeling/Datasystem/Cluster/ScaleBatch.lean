import Datasystem.Cluster.MembershipEdits

/-!
# Scale-out and scale-in batches

The rings of the planner, the indexes of the snapshot and the ring after the batch agree on every token, from
the commit that starts a batch through all edits of the membership to the one that ends it.
-/

namespace Datasystem.Cluster

open ClosedRange TopologySnapshot Except

inductive ScalePlan (tokensPerMember : Nat) (latest : TopologyState) (plan : TopologyPlan) : Prop where
  | scaleOutStart (selected : List MemberIdentity)
      (h : buildScaleOutStart tokensPerMember latest selected = .ok plan)
  | scaleOutReplan (failedJoining : List MemberIdentity)
      (h : buildScaleOutReplan tokensPerMember latest failedJoining = .ok plan)
      (hbatch : plan.next.activeBatch.isSome)
  | scaleInStart (selected : List MemberIdentity) (h : buildScaleInStart latest selected = .ok plan)

variable {state : TopologyState}

theorem exists_of_create {started : TopologySnapshot} (hcommit : create state = .ok started) {p : MemberState → Bool}
    (h : ∃ m ∈ state.members, p m.state = true ∧ m.tokens ≠ []) :
    ∃ m ∈ started.state.members, p m.state = true ∧ m.tokens ≠ [] := by
  obtain ⟨m,hm,hp,htok⟩ := h
  rw [state_of_create hcommit]
  exact ⟨m.sortTokens,mem_canonicalMembers.mpr ⟨m,hm,rfl⟩,hp,sortTokens_ne_nil htok⟩

variable {tokensPerMember : Nat} {plan : TopologyPlan}

theorem planScaleOut_committed {current : TopologyState} {joining : List MemberIdentity}
    (h : planScaleOut current joining tokensPerMember = .ok plan) :
    (0 < tokensPerMember ∧ tokensPerMember ≤ maxTokensPerMember) ∧
      ∃ m ∈ plan.next.members, isCommittedMemberState m.state = true ∧ m.tokens ≠ [] := by
  obtain ⟨_,_,_,hcount,members,hadd,⟨m,hm,he,htok⟩,_,rfl⟩ := planScaleOut_eq_ok.mp h
  refine ⟨hcount,m,mem_addJoining hadd hm,?_,htok⟩
  simpa [isEligible] using he

theorem planScaleIn_survivor {latest : TopologySnapshot} {selected : List MemberIdentity}
    (hstable : latest.state.activeBatch = none) (h : planScaleIn latest.state selected = .ok plan) :
    ∃ m ∈ plan.next.members, isAdmittedScaleInMigrationTargetState m.state = true ∧
      m.identity ∉ selected ∧ m.tokens ≠ [] := by
  obtain ⟨_,_,_,_,_,⟨m,hm,he,htok⟩,rfl⟩ := planScaleIn_eq_ok.mp h
  have htrans := latest.valid.batchStates.stable hstable m hm
  simp only [isEligible,Bool.and_eq_true,decide_eq_true_eq] at he
  refine ⟨m,List.mem_map.mpr ⟨m,hm,by rw [if_neg he.2]⟩,?_,?_,htok⟩
  · cases hs : m.state <;>
      simp_all [isCommittedMemberState,isTransitional,isAdmittedScaleInMigrationTargetState]
  · intro hmem
    exact he.2 (List.mem_map.mpr ⟨m.identity,hmem,rfl⟩)

theorem ScalePlan.plannable {latest : TopologySnapshot} (h : ScalePlan tokensPerMember latest.state plan)
    {started : TopologySnapshot} (hcommit : create plan.next = .ok started) :
    ∃ b, started.state.activeBatch = some b ∧ b.type ≠ .failure ∧ Plannable tokensPerMember started.state b.type := by
  have hbatch : started.state.activeBatch = plan.next.activeBatch := by rw [state_of_create hcommit]
  have hscaleOut : ∀ {current joining built}, planScaleOut current joining tokensPerMember = .ok built →
        plan = advanceEpoch latest.state .scaleOut built → Plannable tokensPerMember started.state .scaleOut := by
    intro current joining built hbuilt heq
    obtain ⟨⟨hpos,hle⟩,hc⟩ := planScaleOut_committed hbuilt
    subst heq
    obtain ⟨m,hm,hcm,_⟩ := exists_of_create hcommit hc
    exact ⟨hpos,hle,m,hm,hcm⟩
  cases h with
  | scaleOutStart selected h =>
    simp only [buildScaleOutStart,bind_eq_ok] at h
    obtain ⟨_,_,_,_,built,hbuilt,_,_,hret⟩ := h
    cases hret
    exact ⟨_,hbatch,(fun hf => by cases hf),hscaleOut hbuilt rfl⟩
  | scaleOutReplan failedJoining h hsome =>
    simp only [buildScaleOutReplan,bind_eq_ok] at h
    obtain ⟨_,_,_,_,h⟩ := h
    split at h
    · cases h
      cases hsome
    · obtain ⟨built,hbuilt,hret⟩ := bind_eq_ok.mp h
      cases hret
      exact ⟨_,hbatch,(fun hf => by cases hf),hscaleOut hbuilt rfl⟩
  | scaleInStart selected h =>
    simp only [buildScaleInStart,bind_eq_ok,checkFailReturnStatus_eq_ok,Bool.and_eq_true,
      Option.isNone_iff_eq_none] at h
    obtain ⟨_,⟨_,hstable⟩,_,_,built,hbuilt,hret⟩ := h
    cases hret
    refine ⟨_,hbatch,(fun hf => by cases hf),?_⟩
    obtain ⟨m,hm,hadm,hnot,htok⟩ := planScaleIn_survivor hstable hbuilt
    exact exists_of_create hcommit ⟨m,List.mem_map.mpr ⟨m,hm,by simp [hnot]⟩,hadm,htok⟩

theorem locateOwner_iff {snapshot : TopologySnapshot} {t : UInt32} {identity : MemberIdentity} :
    (∃ m, snapshot.locateOwner t = .ok m ∧ m ∈ snapshot.state.members ∧
      isCommittedMemberState m.state = true ∧ m.identity = identity) ↔
        ownerOf (committedRing snapshot.state) t = some identity :=
  locateIndexedOwner_eq_ok snapshot fun m => isCommittedMemberState m.state

theorem locateProspectiveOwner_iff {snapshot : TopologySnapshot} (hne : ∃ m ∈ snapshot.state.members,
      isProspective m.state snapshot.state.activeBatch = true ∧ m.tokens ≠ [])
    {t : UInt32} {identity : MemberIdentity} :
    (∃ m, snapshot.locateProspectiveOwner t = .ok m ∧ m ∈ snapshot.state.members ∧
      isProspective m.state snapshot.state.activeBatch = true ∧ m.identity = identity) ↔
        ownerOf (prospectiveRing snapshot.state) t = some identity := by
  have hindex : snapshot.prospectiveTokenOwners.isEmpty = false := by
    obtain ⟨m,hm,hp,htok⟩ := hne
    obtain ⟨k,hk⟩ := List.exists_mem_of_ne_nil _ htok
    have hmem : (k, m) ∈ snapshot.prospectiveTokenOwners :=
      TokenRing.mem_build.mpr (mem_tokenPoints.mpr ⟨m,hm,hp,hk,rfl⟩)
    simpa using List.ne_nil_of_mem hmem
  rw [locateProspectiveOwner,hindex]
  exact locateIndexedOwner_eq_ok snapshot fun m => isProspective m.state snapshot.state.activeBatch

variable {b : ActiveBatch}

theorem Plannable.prospective (hvalid : Valid state) (hb : state.activeBatch = some b) (htype : b.type ≠ .failure)
    (h : Plannable tokensPerMember state b.type) :
    ∃ m ∈ state.members, isProspective m.state state.activeBatch = true ∧ m.tokens ≠ [] := by
  obtain ⟨type,epoch⟩ := b
  cases type with
  | failure => exact absurd rfl htype
  | scaleOut =>
    obtain ⟨_,_,hc⟩ := h
    obtain ⟨m,hm,hcm,htok⟩ := hvalid.owner hc
    exact ⟨m,hm,by simp [isProspective,hb,hcm],htok⟩
  | scaleIn =>
    obtain ⟨m,hm,hadm,htok⟩ := h
    refine ⟨m,hm,?_,htok⟩
    rw [hb]
    cases hs : m.state <;> simp_all [isProspective,isAdmittedScaleInMigrationTargetState,isCommittedMemberState]

theorem Plannable.committed (hvalid : Valid state) (hb : state.activeBatch = some b) (htype : b.type ≠ .failure)
    (h : Plannable tokensPerMember state b.type) :
    ∃ m ∈ state.members, isCommittedMemberState m.state = true ∧ m.tokens ≠ [] := by
  obtain ⟨type,epoch⟩ := b
  cases type with
  | failure => exact absurd rfl htype
  | scaleOut => exact hvalid.owner h.2.2
  | scaleIn =>
    obtain ⟨m,hm,hadm,htok⟩ := h
    exact ⟨m,hm,isCommitted_of_admitted hadm,htok⟩

theorem validateBatch_eq_ok (hb : state.activeBatch = some b) {type : TopologyChangeType} {u : Unit} :
    validateBatch state type = .ok u ↔ b.type = type := by
  simp [validateBatch,hb]

/-- After the batch the committed owners are those that were prospective before. -/
theorem committedRing_final {s s' : TopologySnapshot} (hb : s.state.activeBatch = some b) {final : TopologyState}
    (hfinal : buildScaleOutFinal s.state = .ok final ∨ buildScaleInFinal s.state = .ok final)
    (hcommit : create final = .ok s') : committedRing s'.state = prospectiveRing s.state := by
  obtain ⟨type,epoch⟩ := b
  rcases hfinal with hfinal | hfinal
  · simp only [buildScaleOutFinal,bind_eq_ok,validateBatch_eq_ok hb] at hfinal
    obtain ⟨_,rfl,_,_,hret⟩ := hfinal
    cases hret
    have hcanon := s.valid.canonical.map (moveMembers_same .joining .active)
    rw [state_of_create_canonical hcommit hcanon]
    rw [committedRing,prospectiveRing,moveMembers,memberRing_map (moveMembers_same .joining .active)]
    apply memberRing_congr
    intro m _
    by_cases hj : m.state = .joining <;> simp [hj,isProspective,hb,isCommittedMemberState]
  · simp only [buildScaleInFinal,bind_eq_ok,validateBatch_eq_ok hb] at hfinal
    obtain ⟨_,rfl,_,_,hret⟩ := hfinal
    cases hret
    rw [state_of_create_canonical hcommit (s.valid.canonical.filter _)]
    rw [committedRing,prospectiveRing,removeMembers,memberRing_filter]
    apply memberRing_congr
    intro m hm
    simp [s.valid.mem_addresses hm,isProspective,hb]

theorem batchMoves_iff (htype : b.type ≠ .failure) {t : UInt32} {source target : MemberIdentity} :
    BatchMoves state b.type t source target ↔
      Moves (committedRing state) (prospectiveRing state) t source target := by
  obtain ⟨type,epoch⟩ := b
  cases type with
  | failure => exact absurd rfl htype
  | scaleOut => exact Iff.rfl
  | scaleIn => exact Iff.rfl

theorem ownerOf_of_locateOwner {snapshot : TopologySnapshot} {t : UInt32} {m : Member}
    (h : snapshot.locateOwner t = .ok m) :
    m ∈ snapshot.state.members ∧ ownerOf (committedRing snapshot.state) t = some m.identity := by
  have hord := TokenRing.build_ordered (snapshot.valid.wellFormed.tokenPoints_nodup
    (fun m => isCommittedMemberState m.state) (id : Member → Member))
  cases hfind : TokenRing.find snapshot.committedTokenOwners t with
  | none => simp [locateOwner,locateIndexedOwner,hfind] at h
  | some o =>
    obtain rfl : o.2 = m := by simpa [locateOwner,locateIndexedOwner,hfind] using h
    obtain ⟨x,hx,hc,_,heq⟩ := mem_tokenPoints.mp (TokenRing.mem_build.mp (hord.find_eq_some.mp hfind).1)
    obtain rfl : o.2 = x := heq
    exact ⟨hx,locateOwner_iff.mp ⟨o.2,h,hx,hc,rfl⟩⟩

theorem batch_of_scaleFinal {final : TopologyState}
    (h : buildScaleOutFinal state = .ok final ∨ buildScaleInFinal state = .ok final) :
    ∃ b, state.activeBatch = some b ∧ b.type ≠ .failure := by
  cases hb : state.activeBatch with
  | none => simp [buildScaleOutFinal,buildScaleInFinal,validateBatch,hb,bind_eq_ok] at h
  | some b =>
    refine ⟨b,rfl,?_⟩
    rcases h with h | h
    · obtain ⟨_,hvalid,_⟩ := bind_eq_ok.mp h
      rw [(validateBatch_eq_ok hb).mp hvalid]
      exact fun hf => by cases hf
    · obtain ⟨_,hvalid,_⟩ := bind_eq_ok.mp h
      rw [(validateBatch_eq_ok hb).mp hvalid]
      exact fun hf => by cases hf

/-- The end of a batch moves only tokens of a member that leaves, or tokens to a member that joins. -/
theorem scale_final_moves_least {s s' : TopologySnapshot} {final : TopologyState}
    (hfinal : buildScaleOutFinal s.state = .ok final ∨ buildScaleInFinal s.state = .ok final)
    (hcommit : create final = .ok s') {t : UInt32} {before after : Member} (hbefore : s.locateOwner t = .ok before)
    (hafter : s'.locateOwner t = .ok after) : after.identity = before.identity ∨
      ∃ b m, s.state.activeBatch = some b ∧ m ∈ s.state.members ∧ m.identity = after.identity ∧
        Admissible b.type before.state m.state := by
  obtain ⟨b,hb,htype⟩ := batch_of_scaleFinal hfinal
  obtain ⟨hmem,hsource⟩ := ownerOf_of_locateOwner hbefore
  obtain ⟨_,htarget⟩ := ownerOf_of_locateOwner hafter
  rw [committedRing_final hb hfinal hcommit] at htarget
  by_cases hsame : after.identity = before.identity
  · exact Or.inl hsame
  · have hmoves : BatchMoves s.state b.type t before.identity after.identity :=
      (batchMoves_iff htype).mpr ⟨hsource,htarget,Ne.symm hsame⟩
    obtain ⟨x,hx,m,hm,hid,htarget,hadmissible⟩ := hmoves.admissible s.valid hb
    obtain rfl := s.valid.wellFormed.eq_of_address hx hmem (by rw [hid])
    exact Or.inr ⟨b,m,hb,hm,htarget,hadmissible⟩

theorem exists_scaleFinal {s : TopologySnapshot} (hb : s.state.activeBatch = some b) (htype : b.type ≠ .failure) :
    ∃ final, buildScaleOutFinal s.state = .ok final ∨ buildScaleInFinal s.state = .ok final := by
  have hpart := s.valid.participants_ne_nil hb
  obtain ⟨type,epoch⟩ := b
  cases type with
  | failure => exact absurd rfl htype
  | scaleOut =>
    simp only [participantState] at hpart
    exact ⟨_,Or.inl (by simp [buildScaleOutFinal,validateBatch,hb,hpart,checkFailReturnStatus,bind,
      Except.bind,pure,Except.pure]; rfl)⟩
  | scaleIn =>
    simp only [participantState] at hpart
    exact ⟨_,Or.inr (by simp [buildScaleInFinal,validateBatch,hb,hpart,checkFailReturnStatus,bind,
      Except.bind,pure,Except.pure]; rfl)⟩

/-- A token is in one range of one task exactly when its prospective owner is not its committed
owner; the task names both; and the prospective owner is the owner after the batch. This holds from
the commit that starts or replans the batch on, through all edits of the membership. -/
theorem scale_tasks_follow_owners {hasher : Hasher} (hsha : hasher.Total) {tokensPerMember : Nat}
    {latest : TopologySnapshot} {plan : TopologyPlan}
    (hplan : ScalePlan tokensPerMember latest.state plan) {started : TopologySnapshot}
    (hcommit : create plan.next = .ok started) {s : TopologySnapshot}
    (hedits : Relation.ReflTransGen MembershipEdit started s) :
    ∃ b expected, s.state.activeBatch = some b ∧ rebuildExpected hasher tokensPerMember s = .ok expected ∧
      (∀ t, ∃ source target, s.locateOwner t = .ok source ∧ s.locateProspectiveOwner t = .ok target ∧
        (target.identity ≠ source.identity ↔
          (expected.tasks.flatMap TopologyTask.ranges).countP (fun r => r.contains t) = 1) ∧
        ∀ task ∈ expected.tasks, Covers task.ranges t → target.identity ≠ source.identity ∧
          task.Names b source.identity.address target.identity.address) ∧
      (∃ final, buildScaleOutFinal s.state = .ok final ∨ buildScaleInFinal s.state = .ok final) ∧
      ∀ final s', (buildScaleOutFinal s.state = .ok final ∨ buildScaleInFinal s.state = .ok final) →
        create final = .ok s' → ∀ t, ∃ target owner, s.locateProspectiveOwner t = .ok target ∧
          s'.locateOwner t = .ok owner ∧ owner.identity = target.identity := by
  obtain ⟨b,hstarted,htype,hstart⟩ := hplan.plannable hcommit
  have hedited := edited_of_edits hedits
  have hb : s.state.activeBatch = some b := hedited.activeBatch.trans hstarted
  have hplannable := (hedited.plannable_iff htype).mpr hstart
  obtain ⟨expected,heq,hspec⟩ := rebuildExpected_spec hb hplannable hsha
  have hprospective := hplannable.prospective s.valid hb htype
  -- the owners of a token in the two rings
  have howners : ∀ t, ∃ source target, s.locateOwner t = .ok source ∧ s.locateProspectiveOwner t = .ok target ∧
      ownerOf (committedRing s.state) t = some source.identity ∧
      ownerOf (prospectiveRing s.state) t = some target.identity := by
    intro t
    obtain ⟨i,hi⟩ := exists_ownerOf (hplannable.committed s.valid hb htype) t
    obtain ⟨source,hsource,_,_,rfl⟩ := locateOwner_iff.mpr hi
    obtain ⟨j,hj⟩ := exists_ownerOf hprospective t
    obtain ⟨target,htarget,_,_,rfl⟩ := (locateProspectiveOwner_iff hprospective).mpr hj
    exact ⟨source,target,hsource,htarget,hi,hj⟩
  have hmoves : ∀ t source target, BatchMoves s.state b.type t source target ↔
      Moves (committedRing s.state) (prospectiveRing s.state) t source target := by
    intro t source target
    obtain ⟨type,epoch⟩ := b
    cases type with
    | failure => exact absurd rfl htype
    | scaleOut => exact Iff.rfl
    | scaleIn => exact Iff.rfl
  refine ⟨b,expected,hb,heq,?_,exists_scaleFinal hb htype,?_⟩
  · intro t
    obtain ⟨source,target,hsource,htarget,hi,hj⟩ := howners t
    refine ⟨source,target,hsource,htarget,⟨?_,?_⟩,?_⟩
    · intro hne
      exact hspec.once t _ _ ((hmoves _ _ _).mpr ⟨hi,hj,hne.symm⟩)
    · intro hone heq'
      have hzero := hspec.never t (by
        intro i j hmv
        obtain ⟨hi',hj',hne⟩ := (hmoves _ _ _).mp hmv
        rw [hi] at hi'
        rw [hj] at hj'
        exact hne (Option.some.inj hi' ▸ Option.some.inj hj' ▸ heq'.symm))
      omega
    · intro task htask hcov
      obtain ⟨i,j,hnames,_,hcovered⟩ := hspec.names task htask
      obtain ⟨hi',hj',hne⟩ := (hmoves _ _ _).mp (hcovered t hcov)
      obtain rfl := Option.some.inj (hi.symm.trans hi')
      obtain rfl := Option.some.inj (hj.symm.trans hj')
      exact ⟨hne.symm,hnames⟩
  · intro final s' hfinal hcommit' t
    obtain ⟨_,target,_,htarget,_,hj⟩ := howners t
    rw [← committedRing_final hb hfinal hcommit'] at hj
    obtain ⟨owner,howner,_,_,hid⟩ := locateOwner_iff.mpr hj
    exact ⟨target,owner,htarget,howner,hid⟩

section Leaving

private def leavingSoon : TopologySnapshot where
  state := ⟨true,5,[sampleMember 1 .active [100],sampleMember 2 .active [200],
    sampleMember 3 .preLeaving [300]],none⟩
  valid := valid_of_validate (by decide +kernel)

private def leavingStarted : TopologySnapshot where
  state := ⟨true,6,[sampleMember 1 .active [100],sampleMember 2 .active [200],
    sampleMember 3 .leaving [300]],some ⟨.scaleIn,6⟩⟩
  valid := valid_of_validate (by decide +kernel)

private def leavingEdited : TopologySnapshot where
  state := ⟨true,7,[sampleMember 1 .preLeaving [100],sampleMember 2 .active [200],
    sampleMember 3 .leaving [300],sampleMember 4 .initial []],some ⟨.scaleIn,6⟩⟩
  valid := valid_of_validate (by decide +kernel)

/-- Member 3 leaves and hands its tokens to member 1, although meanwhile member 1 is about to leave
too and member 4 waits to join. -/
theorem scale_tasks_follow_owners_leaving : ∃ expected, rebuildExpected Hasher.openssl 4 leavingEdited = .ok expected ∧
      (expected.tasks.flatMap TopologyTask.ranges).countP (fun r => r.contains 250) = 1 := by
  have hplan : ScalePlan 4 leavingSoon.state ⟨leavingStarted.state,[⟨(sampleMember 3 .leaving []).identity,
      (sampleMember 1 .active []).identity,[⟨201,300⟩]⟩]⟩ :=
    .scaleInStart [(sampleMember 3 .leaving []).identity] (by decide +kernel)
  have hedit : MembershipEdit leavingStarted leavingEdited := ⟨⟨rfl,by decide,by decide⟩,rfl⟩
  obtain ⟨b,expected,_,heq,hmoves,_⟩ := scale_tasks_follow_owners Hasher.openssl_total hplan
    (create_eq_ok.mpr leavingStarted.valid.validate) (Relation.ReflTransGen.single hedit)
  obtain ⟨source,target,hsource,htarget,hiff,_⟩ := hmoves 250
  refine ⟨expected,heq,hiff.mp ?_⟩
  have hs : leavingEdited.locateOwner 250 = .ok (sampleMember 3 .leaving [300]) := rfl
  have ht : leavingEdited.locateProspectiveOwner 250 = .ok (sampleMember 1 .preLeaving [100]) := rfl
  obtain rfl := Except.ok.inj (hsource.symm.trans hs)
  obtain rfl := Except.ok.inj (htarget.symm.trans ht)
  decide

private def leavingDone : TopologySnapshot where
  state := ⟨true,7,[sampleMember 1 .active [100],sampleMember 2 .active [200]],none⟩
  valid := valid_of_validate (by decide +kernel)

theorem scale_final_moves_least_leaving :
    ∃ b m, leavingStarted.state.activeBatch = some b ∧ m ∈ leavingStarted.state.members ∧
      m.identity = (sampleMember 1 .active [100]).identity ∧ Admissible b.type .leaving m.state := by
  have hbefore : leavingStarted.locateOwner 250 = .ok (sampleMember 3 .leaving [300]) := rfl
  have hafter : leavingDone.locateOwner 250 = .ok (sampleMember 1 .active [100]) := rfl
  exact (scale_final_moves_least (Or.inr rfl) (create_eq_ok.mpr leavingDone.valid.validate) hbefore
    hafter).resolve_left (by decide)

end Leaving

end Datasystem.Cluster
