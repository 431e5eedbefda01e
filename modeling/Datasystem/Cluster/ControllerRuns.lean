import Datasystem.Cluster.Transitions

/-!
# Runs of the controllers

Versions make every commit start from the latest topology, so what a commit keeps holds in every topology that
is ever committed.
-/

namespace Datasystem.Cluster

open TopologySnapshot List

/-- What the members of every committed topology satisfy. -/
structure MemberInv (tokensPerMember : Nat) (state : TopologyState) : Prop where
  tokens : ∀ m ∈ state.members, m.state ≠ .initial → m.tokens ≠ []
  joining : ∀ m ∈ state.members, m.state = .joining →
    0 < tokensPerMember ∧ tokensPerMember ≤ maxTokensPerMember
  separate : ∀ m ∈ state.members, m.state = .joining → ∀ m' ∈ state.members, m'.state ≠ .leaving
  committed : state.batchType = some .scaleOut →
    ∃ m ∈ state.members, isCommittedMemberState m.state = true

section Step

variable {tokensPerMember : Nat} {latest committed : TopologySnapshot} {next : TopologyState}

theorem Edited.of_create (h : Edited latest.state next) (hcreate : create next = .ok committed) :
    Edited latest.state committed.state := by
  have hsort : ∀ {m m' : Member}, m ∈ latest.state.members → KeptAs m m' → m'.sortTokens = m' := by
    intro m m' hm hkept
    rw [Member.sortTokens,List.Pairwise.insertionSort_eq]
    rw [hkept.2.1]
    exact latest.valid.tokens_sorted m hm
  rw [state_of_create hcreate]
  refine ⟨h.activeBatch,?_,?_⟩
  · intro m hm hinit
    obtain ⟨m',hm',hkept⟩ := h.kept m hm hinit
    exact ⟨m',mem_canonicalMembers.mpr ⟨m',hm',(hsort hm hkept).symm⟩,hkept⟩
  · intro m'' hm'' hinit
    obtain ⟨m',hm',rfl⟩ := mem_canonicalMembers.mp hm''
    obtain ⟨m,hm,hkept⟩ := h.origin m' hm' hinit
    rw [hsort hm hkept]
    exact ⟨m,hm,hkept⟩

theorem MemberInv.edit (h : MemberInv tokensPerMember latest.state) (hedited : Edited latest.state committed.state) :
    MemberInv tokensPerMember committed.state where
  tokens m' hm' hinit := by
    obtain ⟨m,hm,hkept⟩ := hedited.origin m' hm' hinit
    rw [hkept.2.1]
    exact h.tokens m hm fun heq => hinit (hkept.initial_iff.mpr heq)
  joining m' hm' hstate := by
    obtain ⟨m,hm,_,_,hkept⟩ := hedited.origin m' hm' (by simp [hstate])
    simp [hstate] at hkept
    exact h.joining m hm hkept.symm
  separate m' hm' hstate x' hx' hleaving := by
    obtain ⟨m,hm,_,_,hkept⟩ := hedited.origin m' hm' (by simp [hstate])
    obtain ⟨x,hx,_,_,hxkept⟩ := hedited.origin x' hx' (by simp [hleaving])
    simp [hstate] at hkept
    simp [hleaving] at hxkept
    exact h.separate m hm hkept.symm x hx hxkept.symm
  committed hbatch := by
    unfold TopologyState.batchType at hbatch
    rw [hedited.activeBatch] at hbatch
    obtain ⟨m,hm,hc⟩ := h.committed hbatch
    obtain ⟨m',hm',hc',_⟩ := (hedited.exists_iff (p := isCommittedMemberState) rfl rfl
      fun _ _ => True).mpr ⟨m,hm,hc,trivial⟩
    exact ⟨m',hm',hc'⟩

/-- The batch in which both joining and leaving members can be. -/
theorem TopologySnapshot.failure_of_joining_leaving (s : TopologySnapshot) {m m' : Member}
    (hm : m ∈ s.state.members) (hjoining : m.state = .joining) (hm' : m' ∈ s.state.members)
    (hleaving : m'.state = .leaving) : s.state.batchType = some .failure := by
  have hstates := s.valid.batchStates
  unfold TopologyState.batchType
  cases hb : s.state.activeBatch with
  | none =>
    have htrans := hstates.stable hb m hm
    rw [hjoining] at htrans
    cases htrans
  | some b =>
    obtain ⟨type,epoch⟩ := b
    cases type with
    | failure => rfl
    | scaleOut =>
      have hmatch := hstates.matching _ hb m' hm'
      rw [hleaving] at hmatch
      cases hmatch
    | scaleIn =>
      have hmatch := hstates.matching _ hb m hm
      rw [hjoining] at hmatch
      cases hmatch

theorem MemberInv.fresh (h : MemberInv tokensPerMember latest.state)
    (hfresh : Fresh tokensPerMember latest.state next) (hcreate : create next = .ok committed) :
    MemberInv tokensPerMember committed.state := by
  have hstate := state_of_create hcreate
  have hbatch : committed.state.batchType = next.batchType := by
    rw [hstate]
    rfl
  have horigin : ∀ m ∈ committed.state.members, ∃ m' ∈ next.members, m = m'.sortTokens ∧
      MemberOrigin tokensPerMember latest.state next m' := by
    intro m hm
    rw [hstate] at hm
    obtain ⟨m',hm',heq⟩ := mem_canonicalMembers.mp hm
    exact ⟨m',hm',heq,hfresh.origin m' hm'⟩
  refine ⟨?_,?_,?_,?_⟩
  · intro m hm hinit
    obtain ⟨m',_,rfl,ho⟩ := horigin m hm
    apply sortTokens_ne_nil
    cases ho with
    | waiting hw => exact absurd hw hinit
    | placed _ htokens => exact htokens
    | joined _ htokens => exact htokens
    | moved x hx hxinit htokens =>
      rw [htokens]
      exact h.tokens x hx hxinit
  · intro m hm hjoining
    obtain ⟨m',_,rfl,ho⟩ := horigin m hm
    cases ho with
    | waiting hw => cases hw.symm.trans hjoining
    | placed hp => cases hp.symm.trans hjoining
    | joined _ _ hcount => exact hcount
    | moved x hx _ _ hxjoining => exact h.joining x hx (hxjoining hjoining)
  · intro m hm hjoining y hy hleaving
    -- only a failure batch admits both, and it makes neither
    have hfailure := committed.failure_of_joining_leaving hm hjoining hy hleaving
    rw [hbatch] at hfailure
    obtain ⟨m',_,rfl,ho⟩ := horigin m hm
    obtain ⟨y',_,rfl,hoy⟩ := horigin y hy
    cases ho with
    | waiting hw => cases hw.symm.trans hjoining
    | placed hp => cases hp.symm.trans hjoining
    | joined _ _ _ hscale => cases hscale.symm.trans hfailure
    | moved x hx _ _ hxjoining =>
      cases hoy with
      | waiting hw => cases hw.symm.trans hleaving
      | placed hp => cases hp.symm.trans hleaving
      | joined hj => cases hj.symm.trans hleaving
      | moved z hz _ _ _ hzleaving =>
        rcases hzleaving hleaving with hzl | hscale
        · exact h.separate x hx (hxjoining hjoining) z hz hzl
        · cases hscale.symm.trans hfailure
  · intro hscale
    rw [hbatch] at hscale
    obtain ⟨m,hm,hc⟩ := hfresh.committed hscale
    rw [hstate]
    exact ⟨m.sortTokens,mem_canonicalMembers.mpr ⟨m,hm,rfl⟩,hc⟩

theorem MemberInv.transition (h : MemberInv tokensPerMember latest.state)
    (htransition : Transition tokensPerMember latest.state next)
    (hcreate : create next = .ok committed) : MemberInv tokensPerMember committed.state := by
  cases htransition with
  | edit _ hedited => exact h.edit (hedited.of_create hcreate)
  | fresh hfresh => exact h.fresh hfresh hcreate

end Step

/-- A topology does not have an older batch than a previous one. -/
def EpochLe (newer older : TopologySnapshot) : Prop :=
  ∀ b' b, newer.state.activeBatch = some b' → older.state.activeBatch = some b → b.epoch ≤ b'.epoch

structure HistoryInv (options : TopologyControllerOptions) (history : TopologyHistory) : Prop where
  members : ∀ s ∈ history, MemberInv options.tokensPerMember s.state
  versions : history.IsChain fun newer older => newer.state.version = older.state.version + 1
  first : ∀ s, history.getLast? = some s → s.state.version = 1
  epochs : history.Pairwise EpochLe

section Run

variable {options : TopologyControllerOptions} {history history' : TopologyHistory}

theorem HistoryInv.newer (h : HistoryInv options history) :
    history.Pairwise fun newer older => older.state.version < newer.state.version := by
  have hchain : (history.map fun s => s.state.version).IsChain (· > ·) := by
    rw [isChain_map]
    exact h.versions.imp fun _ _ heq => by omega
  rw [isChain_iff_pairwise,pairwise_map] at hchain
  exact hchain

theorem compareAndSwapTopology_eq_some {expectedVersion : Nat} {desired : TopologyState}
    (h : compareAndSwapTopology history expectedVersion desired = some history') :
    currentVersion history = expectedVersion ∧
      ∃ committed, create desired = .ok committed ∧ history' = committed :: history := by
  unfold compareAndSwapTopology at h
  split_ifs at h with hcond
  simp only [Bool.and_eq_true,decide_eq_true_eq] at hcond
  split at h
  · rename_i committed hcreate
    exact ⟨hcond.2,committed,hcreate,(Option.some.inj h).symm⟩
  · cases h

theorem HistoryInv.eq_head (h : HistoryInv options history) {s : TopologySnapshot} (hs : s ∈ history)
    (hversion : currentVersion history = s.state.version) : ∃ rest, history = s :: rest := by
  cases history with
  | nil => cases hs
  | cons latest rest =>
    rcases mem_cons.mp hs with rfl | hs
    · exact ⟨rest,rfl⟩
    · have hlt := (pairwise_cons.mp h.newer).1 s hs
      have heq : latest.state.version = s.state.version := hversion
      omega

theorem controllerStep_cases (h : HistoryInv options history) {a : ControllerAction}
    (hstep : controllerStep options history a = some history') :
    ∃ committed, history' = committed :: history ∧ ((history = [] ∧ committed.state = ⟨false,1,[],none⟩) ∨
        ∃ latest rest next, history = latest :: rest ∧
          Transition options.tokensPerMember latest.state next ∧ create next = .ok committed) := by
  cases a with
  | ensureTopologyAuthority =>
    obtain ⟨hversion,committed,hcreate,rfl⟩ := compareAndSwapTopology_eq_some hstep
    refine ⟨committed,rfl,Or.inl ⟨?_,?_⟩⟩
    · cases history with
      | nil => rfl
      | cons latest rest => exact absurd hversion latest.valid.version_pos.ne'
    · exact state_of_create_canonical hcreate ⟨List.Pairwise.nil,by simp⟩
  | reconcile read obs =>
    simp only [controllerStep] at hstep
    split at hstep
    · cases hstep
    · rename_i latest hread
      split at hstep
      · rename_i next hnext
        obtain ⟨hversion,committed,hcreate,rfl⟩ := compareAndSwapTopology_eq_some hstep
        obtain ⟨rest,hrest⟩ := h.eq_head (mem_of_getElem? hread) hversion
        exact ⟨committed,rfl,Or.inr ⟨latest,rest,next,hrest,recoverFromLatestTopology_transition hnext,hcreate⟩⟩
      · cases hstep

/-- A new batch is younger than all previous topologies, and a kept one is that of the latest. -/
theorem epochLe_of_transition {tokensPerMember : Nat} {latest committed : TopologySnapshot}
    {next : TopologyState} (htransition : Transition tokensPerMember latest.state next)
    (hcreate : create next = .ok committed) {s : TopologySnapshot}
    (hversion : s.state.version ≤ latest.state.version) (hs : EpochLe latest s) :
    EpochLe committed s := by
  intro b' b hb' hb
  rw [state_of_create hcreate] at hb'
  have hnext : next.activeBatch = some b' := hb'
  cases htransition with
  | edit _ hedited =>
    rw [hedited.activeBatch] at hnext
    exact hs b' b hnext hb
  | fresh hfresh =>
    have hnew := hfresh.epoch hnext
    have hold := (s.valid.epoch b hb).2
    omega

theorem Transition.version {tokensPerMember : Nat} {latest next : TopologyState}
    (h : Transition tokensPerMember latest next) : next.version = latest.version + 1 := by
  cases h with
  | edit hversion _ => exact hversion
  | fresh hfresh => exact hfresh.version

theorem HistoryInv.step (h : HistoryInv options history) {a : ControllerAction}
    (hstep : controllerStep options history a = some history') : HistoryInv options history' := by
  obtain ⟨committed,rfl,hcases⟩ := controllerStep_cases h hstep
  rcases hcases with ⟨rfl,hinitial⟩ | ⟨latest,rest,next,rfl,htransition,hcreate⟩
  · refine ⟨?_,isChain_singleton _,?_,pairwise_singleton _ _⟩
    · intro s hs
      rw [mem_singleton.mp hs,hinitial]
      exact ⟨by simp,by simp,by simp,(fun hbatch => by cases hbatch)⟩
    · intro s hs
      obtain rfl : committed = s := Option.some.inj hs
      rw [hinitial]
  · refine ⟨?_,?_,h.first,?_⟩
    · intro s hs
      rcases mem_cons.mp hs with rfl | hs
      · exact (h.members latest mem_cons_self).transition htransition hcreate
      · exact h.members s hs
    · rw [isChain_cons_cons]
      refine ⟨?_,h.versions⟩
      rw [state_of_create hcreate]
      exact htransition.version
    · rw [pairwise_cons]
      refine ⟨?_,h.epochs⟩
      intro s hs
      rcases mem_cons.mp hs with rfl | hs
      · apply epochLe_of_transition htransition hcreate le_rfl
        intro b' b hb' hb
        rw [Option.some.inj (hb.symm.trans hb')]
      · exact epochLe_of_transition htransition hcreate ((pairwise_cons.mp h.newer).1 s hs).le
          ((pairwise_cons.mp h.epochs).1 s hs)

theorem reachable_historyInv (h : (controllerMachine options).Reachable history) : HistoryInv options history :=
  h.invariant ⟨by simp [controllerMachine],isChain_nil,by simp [controllerMachine], List.Pairwise.nil⟩
    fun _ _ _ hinv hstep => hinv.step hstep

/-- Every topology that a run of the controllers commits is valid in itself, its tokens are
distinct, and it has not both joining and leaving members. The versions of a run count up from one,
and epochs neither exceed the version nor decrease. -/
theorem committed_topologies_sound (h : (controllerMachine options).Reachable history) :
    (∀ s ∈ history, validateAndCanonicalizeTopologyState s.state = .ok s.state ∧
      (s.state.members.flatMap Member.tokens).Nodup ∧
      (∀ m ∈ s.state.members, m.state = .joining → ∀ m' ∈ s.state.members, m'.state ≠ .leaving) ∧
      ∀ b, s.state.activeBatch = some b → b.epoch ≤ s.state.version) ∧
    (∀ s, history.getLast? = some s → s.state.version = 1) ∧
    history.IsChain (fun newer older => newer.state.version = older.state.version + 1) ∧
    history.Pairwise fun newer older => ∀ b' b, newer.state.activeBatch = some b' →
      older.state.activeBatch = some b → b.epoch ≤ b'.epoch := by
  have hinv := reachable_historyInv h
  refine ⟨?_,hinv.first,hinv.versions,hinv.epochs⟩
  intro s hs
  refine ⟨s.valid.validate,s.valid.tokens_nodup,(hinv.members s hs).separate,?_⟩
  intro b hb
  exact (s.valid.epoch b hb).2

def sampleRecord (n : UInt8) (state : MemberLifecycleState) : MembershipRecord :=
  ⟨(sampleMember n .initial []).identity.address,state,1,[]⟩

/-- A reconciliation of the latest topology in which no timer holds anything back, no absent member
answers and all tasks are finished. -/
def reconcileNow (memberships : List MembershipRecord) : ControllerAction :=
  .reconcile 0 ⟨memberships,memberships,fun _ => true,fun _ => true,[],[],true,true,true,true,
    fun _ => true,false⟩

def sampleOptions : TopologyControllerOptions := ⟨Hasher.openssl,1,8⟩

/-- Members 1 and 2 form a cluster, member 2 leaves while member 3 waits, member 1 fails, and the
scale-in is resumed after the failure. -/
def failureDuringScaleIn : List ControllerAction :=
  [.ensureTopologyAuthority,
    reconcileNow [sampleRecord 1 .ready,sampleRecord 2 .ready],
    reconcileNow [sampleRecord 1 .ready,sampleRecord 2 .ready],
    reconcileNow [sampleRecord 1 .ready,sampleRecord 2 .exiting,sampleRecord 3 .ready],
    reconcileNow [sampleRecord 1 .ready,sampleRecord 2 .exiting,sampleRecord 3 .recovering],
    reconcileNow [sampleRecord 2 .exiting,sampleRecord 3 .ready],
    reconcileNow [sampleRecord 2 .exiting,sampleRecord 3 .ready]]

theorem committed_topologies_sound_failureDuringScaleIn :
    ∃ history, (controllerMachine sampleOptions).run [] failureDuringScaleIn = some history ∧ history.length = 7 ∧
      history.IsChain (fun newer older => newer.state.version = older.state.version + 1) := by
  have hlen : ((controllerMachine sampleOptions).run [] failureDuringScaleIn).map List.length = some 7 := by
    decide +kernel
  obtain ⟨history,hrun,hlength⟩ := Option.map_eq_some_iff.mp hlen
  have hreach : (controllerMachine sampleOptions).Reachable history := Machine.Reachable.run .init hrun
  exact ⟨history,hrun,hlength,(committed_topologies_sound hreach).2.2.1⟩

end Run

end Datasystem.Cluster
