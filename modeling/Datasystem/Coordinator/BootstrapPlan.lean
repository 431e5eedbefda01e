import Datasystem.Lib.Bytes
import Datasystem.Lib.Machine
import Datasystem.Status

/-!
# First start of the coordinators

Peers stand for their normalized addresses. A probe may fail, and it may answer with any state that the peer
has published so far. All coordinators discover the same candidates and expect the same number of members.
-/

namespace Datasystem.Coordinator

open List

inductive RaftMetadataState where
  | absent | valid | corrupt | unknown
deriving DecidableEq, Repr

structure RaftBootstrapState where
  probeReady : Bool := false
  localPeer : Bytes
  expectedMemberCount : Nat
  metadataState : RaftMetadataState := .unknown
  candidateCount : Nat := 0
  candidateDigest : Bytes := []
  committedPeers : List Bytes := []
deriving DecidableEq, Repr

inductive RaftStartPlan where
  | bootstrap (peers : List Bytes)
  | waitingToJoin
deriving DecidableEq, Repr

/-- The state of a peer, or why it could not be had. -/
structure BootstrapObservation where
  peer : Bytes
  state : Except Status RaftBootstrapState

def quorumSize (peerCount : Nat) : Nat := peerCount / 2 + 1

def isSha256Hex (digest : Bytes) : Bool :=
  digest.length = 64 && digest.all fun b => (48 ≤ b && b ≤ 57) || (97 ≤ b && b ≤ 102) || (65 ≤ b && b ≤ 70)

/-- What the coordinators agree on. -/
structure BootstrapOptions where
  candidates : List Bytes
  expectedMemberCount : Nat
  digestCandidates : List Bytes → Bytes
  nodup : candidates.Nodup
  expectedMemberCount_pos : 0 < expectedMemberCount
  digest_hex : ∀ peers, isSha256Hex (digestCandidates peers)

namespace BootstrapOptions

variable (o : BootstrapOptions)

/-- The checks of `ProbePeerBootstrapState` on an answer. -/
def probePeerBootstrapState (peer : Bytes) (state : RaftBootstrapState) : Except Status RaftBootstrapState :=
  if state.localPeer ≠ peer then
    .error ⟨.invalid,"Coordinator bootstrap response local peer does not match the probed endpoint"⟩
  else if state.expectedMemberCount ≠ o.expectedMemberCount then
    .error ⟨.invalid,"Coordinator bootstrap response expected member count does not match"⟩
  else if !state.probeReady then .error ⟨.notReady,"Coordinator bootstrap peer probe is not ready"⟩
  else if state.metadataState ≠ .valid ∧ state.committedPeers ≠ [] then
    .error ⟨.invalid,"Coordinator bootstrap response has committed peers without valid metadata"⟩
  else .ok state

def committed (observation : BootstrapObservation) : Option (List Bytes) :=
  match observation.state with
  | .ok state => if state.metadataState = .valid ∧ state.committedPeers ≠ [] then some state.committedPeers else none
  | .error _ => none

variable (localState : RaftBootstrapState)

/-- The error by which a peer holds back a first start. -/
def blockingError (observation : BootstrapObservation) : Option Status :=
  match observation.state with
  | .error _ => none
  | .ok state =>
    if state.metadataState = .corrupt ∨ state.metadataState = .unknown then
      some ⟨.notReady,"Coordinator bootstrap peer metadata state is not ready for first bootstrap: "⟩
    else if (committed observation).isSome then none
    else if !isSha256Hex state.candidateDigest ∨ state.candidateCount ≠ localState.candidateCount ∨
        state.candidateDigest ≠ localState.candidateDigest then
      some ⟨.notReady,"Coordinator bootstrap candidate observation digest does not match: "⟩
    else none

def isBootstrappable (observation : BootstrapObservation) : Bool :=
  observation.state.toBool && (blockingError localState observation).isNone && (committed observation).isNone

/-- `DecideStartPlan` when no configuration is confirmed and none has been observed. A peer that could not be probed is
the reason given first when there are too few candidates. -/
def decideFirstStart (observations : List BootstrapObservation) : Except Status RaftStartPlan :=
  let bootstrappableCandidates := (observations.filter (isBootstrappable localState)).map (·.peer)
  match observations.findSome? (blockingError localState) with
  | some error => .error error
  | none =>
    if bootstrappableCandidates.length < quorumSize o.expectedMemberCount then
      if observations.any fun observation => !observation.state.toBool then
        .error ⟨.notReady,"Coordinator bootstrap peer observation is not ready for "⟩
      else .error ⟨.notReady,"Coordinator bootstrap has %zu bootstrappable candidates but requires quorum %zu"⟩
    else
      let selected := bootstrappableCandidates.take (min o.expectedMemberCount bootstrappableCandidates.length)
      .ok (if localState.localPeer ∈ selected then .bootstrap selected else .waitingToJoin)

def decideStartPlan (observations : List BootstrapObservation) : Except Status RaftStartPlan :=
  -- A peer confirms the configuration that it reports if it is in it.
  let confirmations := (observations.filter fun observation =>
    (committed observation).any (observation.peer ∈ ·)).filterMap committed
  let committedConfigVotes := confirmations.eraseDups
  match committedConfigVotes.filter fun peers => quorumSize peers.length ≤ confirmations.count peers with
  | _ :: _ :: _ =>
    .error ⟨.notReady,"Coordinator bootstrap peers report quorum-confirmed configurations that conflict"⟩
  | [peers] => .ok (if localState.localPeer ∈ peers then .bootstrap peers else .waitingToJoin)
  | [] =>
    if observations.any fun observation => (committed observation).isSome then
      match committedConfigVotes.find? fun peers =>
        peers.length < o.expectedMemberCount && peers.all (· ∈ o.candidates) && localState.localPeer ∈ peers with
      | some peers => .ok (.bootstrap peers)
      | none => .error ⟨.notReady,
        "Coordinator bootstrap observed committed configuration but no configuration reached quorum"⟩
    else o.decideFirstStart localState observations

structure System where
  history : List RaftBootstrapState := []
  plans : List (Bytes × List Bytes) := []

inductive Event where
  /-- A coordinator starts and finds no metadata. -/
  | begin (peer : Bytes)
  /-- It publishes the candidates it has discovered. -/
  | observe (peer : Bytes)
  /-- It decides by the answers to its probes. -/
  | decide (peer : Bytes) (answers : Bytes → Except Status RaftBootstrapState)
  /-- It has started, and knows the configuration that raft has committed, if any. -/
  | started (peer : Bytes) (committedPeers : List Bytes)

/-- What raft may commit: it starts with a plan, and then the membership manager adds candidates, and removes peers
while there are more than expected. -/
def MayCommit (s : System) (peers : List Bytes) : Prop :=
  peers ∈ s.plans.map (·.2) ∨ ∃ state ∈ s.history, state.committedPeers ≠ [] ∧ ∃ p ∈ o.candidates,
    (p ∉ state.committedPeers ∧ peers.Perm (p :: state.committedPeers)) ∨
      (o.expectedMemberCount < state.committedPeers.length ∧ peers.Perm (state.committedPeers.erase p))

instance instDecidableMayCommit (s : System) (peers : List Bytes) : Decidable (o.MayCommit s peers) :=
  inferInstanceAs (Decidable (_ ∨ _))

def beginState (peer : Bytes) : RaftBootstrapState :=
  ⟨true,peer,o.expectedMemberCount,.absent,0,o.digestCandidates [],[]⟩

def observedState (peer : Bytes) : RaftBootstrapState :=
  ⟨true,peer,o.expectedMemberCount,.absent,o.candidates.length,o.digestCandidates o.candidates,[]⟩

def collect (peer : Bytes) (answers : Bytes → Except Status RaftBootstrapState) : List BootstrapObservation :=
  o.candidates.map fun p => ⟨p,
    if p = peer then .ok (o.observedState peer) else (answers p).bind (o.probePeerBootstrapState p)⟩

def step (s : System) : Event → Option System
  | .begin peer => some { s with history := o.beginState peer :: s.history }
  | .observe peer =>
    if o.beginState peer ∈ s.history then some { s with history := o.observedState peer :: s.history } else none
  | .decide peer answers =>
    if o.observedState peer ∈ s.history ∧ peer ∉ s.plans.map (·.1) ∧
        ∀ p ∈ o.candidates, ∀ state ∈ (answers p).toOption, state ∈ s.history then
      match o.decideStartPlan (o.observedState peer) (o.collect peer answers) with
      | .ok (.bootstrap peers) => some { s with plans := (peer, peers) :: s.plans }
      | _ => some s
    else none
  | .started peer peers =>
    if peers = [] ∨ o.MayCommit s peers then
      some { s with
        history := { o.observedState peer with metadataState := .valid, committedPeers := peers } :: s.history }
    else none

def machine : Machine System Event := ⟨{},o.step⟩

/-- Candidates, as many as a quorum of the expected members. -/
structure IsConfiguration (peers : List Bytes) : Prop where
  nodup : peers.Nodup
  subset : peers ⊆ o.candidates
  quorum : quorumSize o.expectedMemberCount ≤ peers.length

section Plans

variable {o} {s s' : System} {peers : List Bytes} {localState : RaftBootstrapState}
  {observations : List BootstrapObservation}

theorem quorumSize_le (o : BootstrapOptions) : quorumSize o.expectedMemberCount ≤ o.expectedMemberCount := by
  have hpos := o.expectedMemberCount_pos
  unfold quorumSize
  omega

theorem isConfiguration_of_decideFirstStart (hpeers : observations.map (·.peer) = o.candidates)
    (h : o.decideFirstStart localState observations = .ok (.bootstrap peers)) : o.IsConfiguration peers := by
  have hsublist : ((observations.filter (isBootstrappable localState)).map (·.peer)).Sublist o.candidates :=
    hpeers ▸ filter_sublist.map _
  have hquorum := o.quorumSize_le
  unfold decideFirstStart at h
  dsimp only at h
  split at h
  · cases h
  · split_ifs at h with hfew hany hlocal
    · cases h
      refine ⟨((take_sublist _ _).trans hsublist).nodup o.nodup,((take_sublist _ _).trans hsublist).subset,?_⟩
      rw [length_take]
      omega
    · cases h

theorem isConfiguration_of_decideStartPlan (hpeers : observations.map (·.peer) = o.candidates)
    (hcommitted : ∀ observation ∈ observations, ∀ peers ∈ committed observation, o.IsConfiguration peers)
    (h : o.decideStartPlan localState observations = .ok (.bootstrap peers)) : o.IsConfiguration peers := by
  have hvotes : ∀ peers ∈ ((observations.filter fun observation =>
      (committed observation).any (observation.peer ∈ ·)).filterMap committed).eraseDups, o.IsConfiguration peers := by
    intro peers hmem
    obtain ⟨observation,hobservation,hreported⟩ := mem_filterMap.mp (mem_eraseDups.mp hmem)
    exact hcommitted observation (mem_filter.mp hobservation).1 peers hreported
  unfold decideStartPlan at h
  dsimp only at h
  split at h
  · cases h
  · rename_i confirmed hconfirmed
    split_ifs at h
    · cases h
      exact hvotes _ (mem_filter.mp (hconfirmed ▸ mem_singleton_self _)).1
    · cases h
  · split at h
    · split at h
      · rename_i found hfind
        cases h
        exact hvotes _ (mem_of_find?_eq_some hfind)
      · cases h
    · exact isConfiguration_of_decideFirstStart hpeers h

/-- What has been published and planned so far. -/
structure Inv (s : System) : Prop where
  history : ∀ state ∈ s.history, state.committedPeers = [] ∨ o.IsConfiguration state.committedPeers
  plans : ∀ peers ∈ s.plans.map (·.2), o.IsConfiguration peers

theorem Inv.mayCommit (h : o.Inv s) (hpeers : o.MayCommit s peers) : o.IsConfiguration peers := by
  rcases hpeers with hplan | ⟨state,hstate,hne,p,hp,hchange⟩
  · exact h.plans peers hplan
  · have hold := (h.history state hstate).resolve_left hne
    have hquorum := hold.quorum
    rcases hchange with ⟨hnew,hperm⟩ | ⟨hmore,hperm⟩
    · refine ⟨hperm.nodup_iff.mpr (nodup_cons.mpr ⟨hnew,hold.nodup⟩),?_,?_⟩
      · exact fun x hx => (mem_cons.mp (hperm.subset hx)).elim (· ▸ hp) (hold.subset ·)
      · rw [hperm.length_eq,length_cons]
        omega
    · refine ⟨hperm.nodup_iff.mpr (hold.nodup.erase p),?_,?_⟩
      · exact fun x hx => hold.subset (mem_of_mem_erase (hperm.subset hx))
      · have hlength : state.committedPeers.length - 1 ≤ (state.committedPeers.erase p).length := le_length_erase
        have hle := o.quorumSize_le
        rw [hperm.length_eq]
        omega

theorem mem_committed {observation : BootstrapObservation} (h : peers ∈ committed observation) :
    ∃ state, observation.state = .ok state ∧ state.committedPeers = peers ∧ peers ≠ [] := by
  unfold committed at h
  split at h
  · rename_i state hstate
    split_ifs at h with hvalid
    · cases h
      exact ⟨state,hstate,rfl,hvalid.2⟩
    · cases h
  · cases h

theorem committed_of_mem_collect (h : o.Inv s) {peer : Bytes} {answers : Bytes → Except Status RaftBootstrapState}
    (hanswers : ∀ p ∈ o.candidates, ∀ state ∈ (answers p).toOption, state ∈ s.history) :
    ∀ observation ∈ o.collect peer answers, ∀ peers ∈ committed observation, o.IsConfiguration peers := by
  intro observation hmem peers hpeers
  obtain ⟨p,hp,rfl⟩ := mem_map.mp hmem
  obtain ⟨state,hstate,rfl,hne⟩ := mem_committed hpeers
  by_cases hself : p = peer
  · simp only [hself,if_true] at hstate
    cases hstate
    exact absurd rfl hne
  · cases hanswer : answers p with
    | error e => simp [hself,hanswer,Except.bind] at hstate
    | ok found =>
      simp only [hself,if_false,hanswer,Except.bind,probePeerBootstrapState] at hstate
      split_ifs at hstate
      cases hstate
      exact (h.history state (hanswers p hp state (by simp [hanswer,Except.toOption]))).resolve_left hne

theorem Inv.step {e : Event} (h : o.Inv s) (hstep : o.step s e = some s') : o.Inv s' := by
  have hpublish : ∀ state : RaftBootstrapState, (state.committedPeers = [] ∨ o.IsConfiguration state.committedPeers) →
      o.Inv { s with history := state :: s.history } :=
    fun state hstate => ⟨forall_mem_cons.mpr ⟨hstate,h.history⟩,h.plans⟩
  cases e with
  | begin peer =>
    cases hstep
    exact hpublish _ (.inl rfl)
  | observe peer =>
    simp only [BootstrapOptions.step] at hstep
    split_ifs at hstep
    cases hstep
    exact hpublish _ (.inl rfl)
  | decide peer answers =>
    simp only [BootstrapOptions.step] at hstep
    split_ifs at hstep with henabled
    split at hstep
    · rename_i peers hplan
      cases hstep
      refine ⟨h.history,forall_mem_cons.mpr ⟨?_,h.plans⟩⟩
      apply isConfiguration_of_decideStartPlan _ (committed_of_mem_collect h henabled.2.2) hplan
      rw [collect,map_map]
      exact map_id _
    · cases hstep
      exact h
  | started peer peers =>
    simp only [BootstrapOptions.step] at hstep
    split_ifs at hstep with hmay
    cases hstep
    exact hpublish _ (hmay.imp_right h.mayCommit)

theorem inv_of_reachable (h : o.machine.Reachable s) : o.Inv s :=
  h.invariant ⟨by simp [machine],by simp [machine]⟩ fun _ _ _ hinv hstep => hinv.step hstep

end Plans

/-- Two leaders can be elected by voters that have nothing in common. -/
def DisjointMajorities (peers peers' : List Bytes) : Prop :=
  ∃ voters ⊆ peers.toFinset, ∃ voters' ⊆ peers'.toFinset, quorumSize peers.length ≤ voters.card ∧
    quorumSize peers'.length ≤ voters'.card ∧ Disjoint voters voters'

theorem IsConfiguration.not_disjointMajorities {o : BootstrapOptions} {peers peers' : List Bytes}
    (hsize : o.candidates.length < 2 * quorumSize (quorumSize o.expectedMemberCount)) (h : o.IsConfiguration peers)
    (h' : o.IsConfiguration peers') : ¬ DisjointMajorities peers peers' := by
  rintro ⟨voters,hsub,voters',hsub',hcard,hcard',hdisjoint⟩
  have hunion : voters ∪ voters' ⊆ o.candidates.toFinset := by
    apply Finset.union_subset
    · exact fun p hp => mem_toFinset.mpr (h.subset (mem_toFinset.mp (hsub hp)))
    · exact fun p hp => mem_toFinset.mpr (h'.subset (mem_toFinset.mp (hsub' hp)))
  have hle := (Finset.card_le_card hunion).trans (toFinset_card_le _)
  rw [Finset.card_union_of_disjoint hdisjoint] at hle
  have hquorum := h.quorum
  have hquorum' := h'.quorum
  unfold quorumSize at *
  omega

section Halves

variable {o} {s : System} {peers : List Bytes} {peer : Bytes}

def answersOf (peers : List Bytes) (peer : Bytes) : Except Status RaftBootstrapState :=
  if peer ∈ peers then .ok (o.observedState peer) else .error ⟨.notReady,"Coordinator bootstrap peer probe is not ready"⟩

/-- All candidates can have published what they have discovered before any of them decides. -/
theorem exists_observed (o : BootstrapOptions) :
    ∃ s, o.machine.Reachable s ∧ s.plans = [] ∧ ∀ peer ∈ o.candidates, o.observedState peer ∈ s.history := by
  induction o.candidates with
  | nil => exact ⟨{},.init,rfl,by simp⟩
  | cons peer peers ih =>
    obtain ⟨s,hs,hplans,hpeers⟩ := ih
    refine ⟨{ s with history := o.observedState peer :: o.beginState peer :: s.history },?_,hplans,?_⟩
    · exact (hs.step (a := .begin peer) rfl).step (a := .observe peer) (by simp [machine,step])
    · intro p hp
      rcases mem_cons.mp hp with rfl | hp
      · exact mem_cons_self
      · exact mem_cons_of_mem _ (mem_cons_of_mem _ (hpeers p hp))

theorem collect_answersOf (hpeer : peer ∈ peers) :
    o.collect peer (o.answersOf peers) = o.candidates.map fun p => ⟨p,o.answersOf peers p⟩ := by
  apply map_congr_left
  intro p _
  by_cases hp : p ∈ peers
  · by_cases hself : p = peer
    · simp [hself,answersOf,hpeer]
    · simp [hself,answersOf,hp,Except.bind,probePeerBootstrapState,observedState]
  · have hself : p ≠ peer := fun h => hp (h ▸ hpeer)
    simp [hself,answersOf,hp,Except.bind]

theorem committed_answersOf (p : Bytes) : committed ⟨p,o.answersOf peers p⟩ = none := by
  by_cases hp : p ∈ peers <;> simp [committed,answersOf,hp,observedState]

theorem blockingError_answersOf (p : Bytes) : blockingError (o.observedState peer) ⟨p,o.answersOf peers p⟩ = none := by
  by_cases hp : p ∈ peers <;> simp [blockingError,answersOf,hp,observedState,o.digest_hex]

theorem filter_mem_of_sublist {l : List Bytes} (h : peers.Sublist l) (hnodup : l.Nodup) :
    l.filter (fun p => decide (p ∈ peers)) = peers := by
  have hself : peers.filter (fun p => decide (p ∈ peers)) = peers := filter_eq_self.mpr (by simp)
  have hsub := h.filter fun p => decide (p ∈ peers)
  rw [hself] at hsub
  apply (hsub.eq_of_length_le ?_).symm
  apply List.Subperm.length_le
  apply subperm_of_subset (hnodup.filter _)
  intro p hp
  simpa using (mem_filter.mp hp).2

/-- The candidates that answer are the plan, if they are as many as a quorum. -/
theorem decideStartPlan_answersOf (hpeer : peer ∈ peers) (hsub : peers.Sublist o.candidates)
    (hlength : peers.length = quorumSize o.expectedMemberCount) :
    o.decideStartPlan (o.observedState peer) (o.collect peer (o.answersOf peers)) = .ok (.bootstrap peers) := by
  have hquorum := o.quorumSize_le
  have hbootstrappable : ((o.collect peer (o.answersOf peers)).filter
      (isBootstrappable (o.observedState peer))).map (·.peer) = peers := by
    have hfilter : (isBootstrappable (o.observedState peer) ∘ fun p => ⟨p,o.answersOf peers p⟩) =
        fun p => decide (p ∈ peers) := by
      funext p
      simp only [Function.comp,isBootstrappable,committed_answersOf,blockingError_answersOf]
      by_cases hp : p ∈ peers <;> simp [answersOf,hp,Except.toBool]
    rw [collect_answersOf hpeer,filter_map,map_map,hfilter]
    exact (map_id _).trans (filter_mem_of_sublist hsub o.nodup)
  have hfirst : o.decideStartPlan (o.observedState peer) (o.collect peer (o.answersOf peers)) =
      o.decideFirstStart (o.observedState peer) (o.collect peer (o.answersOf peers)) := by
    have hnone : (o.collect peer (o.answersOf peers)).filter (fun observation =>
        (committed observation).any (observation.peer ∈ ·)) = [] := by
      simp [collect_answersOf hpeer,committed_answersOf]
    have hany : (o.collect peer (o.answersOf peers)).any (fun observation => (committed observation).isSome) = false := by
      simp [collect_answersOf hpeer,committed_answersOf]
    simp only [decideStartPlan,hnone,hany]
    rfl
  have hfind : (o.collect peer (o.answersOf peers)).findSome? (blockingError (o.observedState peer)) = none := by
    simp [collect_answersOf hpeer,blockingError_answersOf]
  have hselected : peers.take (min o.expectedMemberCount peers.length) = peers := by
    rw [hlength,Nat.min_eq_right hquorum,← hlength,take_length]
  have hlocal : (o.observedState peer).localPeer = peer := rfl
  rw [hfirst,decideFirstStart]
  simp only [hfind,hbootstrappable]
  rw [if_neg (by omega),hselected,hlocal,if_pos hpeer]

theorem exists_plan (peers : List Bytes) (peer : Bytes) (hs : o.machine.Reachable s)
    (hobserved : ∀ peer ∈ o.candidates, o.observedState peer ∈ s.history) (hpeer : peer ∈ peers)
    (hnew : peer ∉ s.plans.map (·.1)) (hsub : peers.Sublist o.candidates)
    (hlength : peers.length = quorumSize o.expectedMemberCount) :
    o.machine.Reachable { s with plans := (peer, peers) :: s.plans } := by
  have hanswers : ∀ p ∈ o.candidates, ∀ state ∈ (o.answersOf peers p).toOption, state ∈ s.history := by
    intro p hp state hstate
    unfold answersOf at hstate
    split_ifs at hstate
    · obtain rfl : o.observedState p = state := by simpa [Except.toOption] using hstate
      exact hobserved p hp
    · simp [Except.toOption] at hstate
  apply hs.step (a := .decide peer (o.answersOf peers))
  change o.step s (.decide peer (o.answersOf peers)) = _
  rw [step,if_pos ⟨hobserved peer (hsub.subset hpeer),hnew,hanswers⟩,decideStartPlan_answersOf hpeer hsub hlength]

/-- The first and the last candidates have majorities that do not meet. -/
theorem disjointMajorities_take_drop (o : BootstrapOptions) {q : Nat} (hpos : 0 < q)
    (hsize : 2 * quorumSize q ≤ o.candidates.length) :
    DisjointMajorities (o.candidates.take q) (o.candidates.drop (o.candidates.length - q)) := by
  have hquorum : quorumSize q ≤ q ∧ q < 2 * quorumSize q := by
    unfold quorumSize
    omega
  have htake : (o.candidates.take q).length = q := length_take_of_le (by omega)
  have hdrop : (o.candidates.drop (o.candidates.length - q)).length = q := by
    rw [length_drop]
    omega
  refine ⟨((o.candidates.take q).take (quorumSize q)).toFinset,?_,
    ((o.candidates.drop (o.candidates.length - q)).drop (q - quorumSize q)).toFinset,?_,?_,?_,?_⟩
  · exact fun p hp => mem_toFinset.mpr (mem_of_mem_take (mem_toFinset.mp hp))
  · exact fun p hp => mem_toFinset.mpr (mem_of_mem_drop (mem_toFinset.mp hp))
  · rw [toFinset_card_of_nodup (o.nodup.take.take),htake,length_take,htake]
    omega
  · rw [toFinset_card_of_nodup (o.nodup.drop.drop),hdrop,length_drop,hdrop]
    omega
  · rw [take_take,drop_drop,disjoint_toFinset_iff_disjoint]
    exact disjoint_take_drop o.nodup (by omega)

end Halves

/-- No two plans have disjoint majorities, whatever probes fail or come late, exactly if there are fewer candidates than
two majorities of the smallest plan have. -/
theorem no_disjoint_majorities_iff (o : BootstrapOptions) :
    (∀ s, o.machine.Reachable s → ∀ plan ∈ s.plans, ∀ plan' ∈ s.plans, ¬ DisjointMajorities plan.2 plan'.2) ↔
      o.candidates.length < 2 * quorumSize (quorumSize o.expectedMemberCount) := by
  constructor
  · intro h
    by_contra hsize
    -- the first coordinator reaches only the first candidates, another one only the last
    have hle : 0 < quorumSize o.expectedMemberCount ∧ quorumSize o.expectedMemberCount < o.candidates.length := by
      unfold quorumSize at *
      omega
    obtain ⟨s,hs,hplans,hobserved⟩ := exists_observed o
    have hlength : (o.candidates.drop (o.candidates.length - quorumSize o.expectedMemberCount)).length =
        quorumSize o.expectedMemberCount := by
      rw [length_drop]
      omega
    obtain ⟨first,hfirst⟩ := exists_mem_of_length_pos (l := o.candidates.take 1) (by rw [length_take]; omega)
    obtain ⟨last,hlast⟩ := exists_mem_of_length_pos
      (l := o.candidates.drop (o.candidates.length - quorumSize o.expectedMemberCount)) (by omega)
    have hne : last ≠ first := fun heq =>
      disjoint_take_drop o.nodup (by omega) hfirst (heq ▸ hlast)
    have hs₁ := exists_plan _ _ hs hobserved (take_subset_take_left _ hle.1 hfirst) (by simp [hplans])
      (take_sublist _ _) (length_take_of_le hle.2.le)
    have hs₂ := exists_plan _ _ hs₁ hobserved hlast (by simp [hplans,hne]) (drop_sublist _ _) hlength
    apply h _ hs₂ _ (mem_cons_of_mem _ mem_cons_self) _ mem_cons_self
    exact disjointMajorities_take_drop o hle.1 (by omega)
  · intro hsize s hs plan hplan plan' hplan'
    have hinv := inv_of_reachable hs
    exact (hinv.plans _ (mem_map_of_mem hplan)).not_disjointMajorities hsize (hinv.plans _ (mem_map_of_mem hplan'))

def fiveCandidates : BootstrapOptions where
  candidates := [[1],[2],[3],[4],[5]]
  expectedMemberCount := 5
  digestCandidates _ := List.replicate 64 48
  nodup := by decide
  expectedMemberCount_pos := by decide
  digest_hex _ := by decide

/-- The first coordinator reaches only the first three, the last one only the last three. -/
theorem two_leaders_of_five : ∃ s, fiveCandidates.machine.Reachable s ∧
    s.plans = [([5], [[3],[4],[5]]),([1], [[1],[2],[3]])] ∧
    DisjointMajorities [[1],[2],[3]] [[3],[4],[5]] := by
  obtain ⟨s,hs,hplans,hobserved⟩ := exists_observed fiveCandidates
  have hs₁ := exists_plan [[1],[2],[3]] [1] hs hobserved (by decide) (by simp [hplans]) (by decide) rfl
  have hs₂ := exists_plan [[3],[4],[5]] [5] hs₁ hobserved (by decide) (by simp [hplans]) (by decide) rfl
  refine ⟨_,hs₂,by simp [hplans],?_⟩
  exact ⟨{[1], [2]},by decide,{[4], [5]},by decide,by decide,by decide,by decide⟩

end BootstrapOptions

end Datasystem.Coordinator
