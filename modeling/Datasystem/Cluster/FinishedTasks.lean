import Datasystem.Cluster.TaskProgress

/-!
# Batches end after their tasks

The finished tasks that a controller remembers belong to one version of the topology and one batch, and each
of them has been read as finished for these.
-/

namespace Datasystem.Cluster

open TopologySnapshot List

theorem HistoryInv.eq_of_version {options : TopologyControllerOptions} {history : TopologyHistory}
    (h : HistoryInv options history) {s s' : TopologySnapshot} (hs : s ∈ history)
    (hs' : s' ∈ history) (hversion : s.state.version = s'.state.version) : s = s' := by
  have hnodup : (history.map fun s => s.state.version).Nodup := by
    rw [List.Nodup,pairwise_map]
    exact h.newer.imp fun hlt => hlt.ne'
  exact inj_on_of_nodup_map hnodup hs hs' hversion

namespace TopologyController

/-- The controller has read the task as finished, for a version of the topology and its batch. -/
def ReadFinished (c : TopologyController) (version : Nat) (batch : ActiveBatch) (taskId : Bytes) : Prop :=
  ∃ r ∈ c.taskReads, r.topologyVersion = version ∧ r.batch = batch ∧ r.observed.taskId = taskId ∧
    r.observed.epoch = batch.epoch ∧ taskFinished r.observed = true

theorem ReadFinished.mono {c c' : TopologyController} {version : Nat} {batch : ActiveBatch}
    {taskId : Bytes} (h : c.ReadFinished version batch taskId) (hsub : c.taskReads ⊆ c'.taskReads) :
    c'.ReadFinished version batch taskId := by
  obtain ⟨r,hr,hrest⟩ := h
  exact ⟨r,hsub hr,hrest⟩

section Cache

variable (options : ProgressOptions)

/-- The derived tasks are those of a topology. -/
def Generation (latest : TopologySnapshot) (c : TopologyController) : Prop :=
  c.derivedTopologyVersion = latest.state.version ∧
    ∃ expected, rebuildExpected options.hasher options.tokensPerMember latest = .ok expected ∧
      c.expectedDerivedState.tasks = expected.tasks

/-- The remembered tasks are tasks of a topology, and have been read as finished for it. -/
def CacheOf (latest : TopologySnapshot) (c : TopologyController) : Prop :=
  c.progressTopologyVersion = latest.state.version ∧
    ∃ batch expected, latest.state.activeBatch = some batch ∧ c.progressBatchEpoch = batch.epoch ∧
      rebuildExpected options.hasher options.tokensPerMember latest = .ok expected ∧
      ∀ taskId ∈ c.finishedTaskIds, (∃ task ∈ expected.tasks, task.taskId = taskId) ∧
        c.ReadFinished latest.state.version batch taskId

structure CacheInv (history : TopologyHistory) (c : TopologyController) : Prop where
  derived : c.derivedTopologyVersion = 0 ∨ ∃ s ∈ history, Generation options s c
  cached : c.finishedTaskIds = ∅ ∨ ∃ s ∈ history, CacheOf options s c

end Cache

variable {options : ProgressOptions} {parse : TaskParser} {history : TopologyHistory}
  {latest : TopologySnapshot} {batch : ActiveBatch} {c c' : TopologyController} {input : TickInput}

theorem CacheInv.mono (h : CacheInv options history c) (s : TopologySnapshot) : CacheInv options (s :: history) c where
  derived := h.derived.imp_right fun ⟨s',hs',hgen⟩ => ⟨s',mem_cons_of_mem _ hs',hgen⟩
  cached := h.cached.imp_right fun ⟨s',hs',hcache⟩ => ⟨s',mem_cons_of_mem _ hs',hcache⟩

/-! ## Sweeps -/

variable {finished : Finset Bytes}

theorem mem_finished_of_sweep {tasks : List TopologyTask} {visited reads : Nat} {taskId : Bytes}
    (h : taskId ∈ (sweepTasks options parse batch input tasks visited reads finished).finishedTaskIds) :
    taskId ∈ finished ∨ (∃ task ∈ tasks, task.taskId = taskId) ∧
      ∃ task ∈ (sweepTasks options parse batch input tasks visited reads finished).observed,
        task.taskId = taskId ∧ task.epoch = batch.epoch ∧ taskFinished task = true := by
  induction tasks generalizing visited reads finished with
  | nil => exact Or.inl h
  | cons task tasks ih =>
    have htail : (∃ t ∈ tasks, t.taskId = taskId) → ∃ t ∈ task :: tasks, t.taskId = taskId :=
      fun ⟨t,ht,hid⟩ => ⟨t,mem_cons_of_mem _ ht,hid⟩
    rw [sweepTasks] at h ⊢
    split_ifs at h ⊢ with hgo hmem
    · exact (ih h).imp_right fun ⟨hin,hread⟩ => ⟨htail hin,hread⟩
    · cases hread : readTask parse task.taskKind task.taskId batch.type batch.epoch (input.taskValue reads) with
      | error rc =>
        simp only [hread] at h ⊢
        split_ifs at h ⊢ with hcode
        · exact Or.inl h
        · exact (ih h).imp_right fun ⟨hin,hread⟩ => ⟨htail hin,hread⟩
      | ok observed =>
        simp only [hread] at h ⊢
        rcases ih h with hold | ⟨hin,t,ht,hrest⟩
        · -- the task is an old one, or the one just read
          by_cases hfin : taskFinished observed = true
          · rw [if_pos hfin,Finset.mem_insert] at hold
            rcases hold with rfl | hold
            · obtain ⟨hid,hepoch⟩ := readTask_eq_ok hread
              exact Or.inr ⟨⟨task,mem_cons_self,rfl⟩, observed,mem_cons_self,hid,hepoch,hfin⟩
            · exact Or.inl hold
          · rw [if_neg hfin] at hold
            exact Or.inl hold
        · exact Or.inr ⟨htail hin,t,mem_cons_of_mem _ ht,hrest⟩
    · exact Or.inl h

structure Kept (c c' : TopologyController) : Prop where
  expected : c'.expectedDerivedState = c.expectedDerivedState
  version : c'.derivedTopologyVersion = c.derivedTopologyVersion
  reads : c.taskReads ⊆ c'.taskReads

theorem Kept.generation (h : Kept c c') (hgen : Generation options latest c) : Generation options latest c' := by
  rw [Generation,h.expected,h.version]
  exact hgen

theorem Kept.trans {c'' : TopologyController} (h : Kept c c') (h' : Kept c' c'') : Kept c c'' :=
  ⟨h'.expected.trans h.expected,h'.version.trans h.version,List.Subset.trans h.reads h'.reads⟩

theorem kept_resetProgress : Kept c (c.resetProgress batch) := by
  unfold resetProgress
  split_ifs
  · exact ⟨rfl,rfl,List.Subset.refl _⟩
  · exact ⟨rfl,rfl,List.Subset.refl _⟩

theorem sweepOnce_spec (options : ProgressOptions) (parse : TaskParser) (c : TopologyController)
    (batch : ActiveBatch) (input : TickInput) :
    let c' := (c.sweepOnce options parse batch input).controller
    Kept c c' ∧ c'.progressTopologyVersion = c.progressTopologyVersion ∧ c'.progressBatchEpoch = c.progressBatchEpoch ∧
      ∀ taskId ∈ c'.finishedTaskIds, taskId ∈ c.finishedTaskIds ∨
        (∃ task ∈ c.expectedDerivedState.tasks, task.taskId = taskId) ∧
          c'.ReadFinished c.progressTopologyVersion batch taskId := by
  unfold sweepOnce
  dsimp only
  generalize (if c.progressSweepRemaining = 0 then _ else _) = remaining
  generalize c.progressReadCursor % c.expectedDerivedState.tasks.length = start
  have hreads := subset_append_left c.taskReads ((sweepTasks options parse batch input
    ((c.expectedDerivedState.tasks.rotate start).take remaining) 0 0 c.finishedTaskIds).observed.map
      (TaskRead.mk c.progressTopologyVersion batch))
  have hfound : ∀ taskId ∈ (sweepTasks options parse batch input
      ((c.expectedDerivedState.tasks.rotate start).take remaining) 0 0
        c.finishedTaskIds).finishedTaskIds, taskId ∈ c.finishedTaskIds ∨
      (∃ task ∈ c.expectedDerivedState.tasks, task.taskId = taskId) ∧
        ∃ r ∈ c.taskReads ++ (sweepTasks options parse batch input
          ((c.expectedDerivedState.tasks.rotate start).take remaining) 0 0
            c.finishedTaskIds).observed.map (TaskRead.mk c.progressTopologyVersion batch),
          r.topologyVersion = c.progressTopologyVersion ∧ r.batch = batch ∧
            r.observed.taskId = taskId ∧ r.observed.epoch = batch.epoch ∧
            taskFinished r.observed = true := by
    intro taskId hid
    refine (mem_finished_of_sweep hid).imp_right ?_
    rintro ⟨⟨task,htask,htaskId⟩,observed,hobserved,hrest⟩
    exact ⟨⟨task,mem_rotate.mp (mem_of_mem_take htask),htaskId⟩,
      ⟨_,_,observed⟩,mem_append_right _ (mem_map_of_mem hobserved),rfl,rfl,hrest⟩
  split_ifs
  · exact ⟨⟨rfl,rfl,List.Subset.refl _⟩,rfl,rfl,fun _ hid => Or.inl hid⟩
  · exact ⟨⟨rfl,rfl,hreads⟩,rfl,rfl,hfound⟩
  · exact ⟨⟨rfl,rfl,hreads⟩,rfl,rfl,hfound⟩

/-- After the reset, the remembered tasks belong to the latest topology. -/
theorem cacheOf_resetProgress (hinv : HistoryInv options.toTopologyControllerOptions history)
    (hlatest : latest ∈ history) (hbatch : latest.state.activeBatch = some batch)
    (hgen : Generation options latest c) (hc : CacheInv options history c) :
    CacheOf options latest (c.resetProgress batch) := by
  obtain ⟨hversion,expected,hexpected,_⟩ := hgen
  unfold resetProgress
  split_ifs with htag
  · exact ⟨hversion,batch,expected,hbatch,rfl,hexpected,by simp⟩
  · push Not at htag
    rcases hc.cached with hempty | ⟨s,hs,hcache⟩
    · exact ⟨htag.2.trans hversion,batch,expected,hbatch,htag.1,hexpected,by simp [hempty]⟩
    · -- the tag is that of the latest topology, so the tasks are its tasks
      obtain rfl : s = latest := hinv.eq_of_version hs hlatest (by rw [← hcache.1,htag.2,hversion])
      exact hcache

theorem CacheOf.sweepOnce (hgen : Generation options latest c) (hcache : CacheOf options latest c)
    (hbatch : latest.state.activeBatch = some batch) :
    CacheOf options latest (c.sweepOnce options parse batch input).controller := by
  obtain ⟨hversion,batch',expected,hbatch',hepoch,hexpected,hfinished⟩ := hcache
  obtain ⟨_,expected',hexpected',htasks⟩ := hgen
  obtain rfl : batch' = batch := Option.some.inj (hbatch'.symm.trans hbatch)
  obtain rfl : expected' = expected := Except.ok.inj (hexpected'.symm.trans hexpected)
  obtain ⟨hkept,hversion',hepoch',hfound⟩ := sweepOnce_spec options parse c batch' input
  refine ⟨hversion'.trans hversion,batch',expected',hbatch',hepoch'.trans hepoch,hexpected,?_⟩
  intro taskId hid
  rcases hfound taskId hid with hold | ⟨htask,hread⟩
  · exact ⟨(hfinished taskId hold).1,(hfinished taskId hold).2.mono hkept.reads⟩
  · rw [htasks] at htask
    rw [hversion] at hread
    exact ⟨htask,hread⟩

/-! ## Decisions -/

/-- The remembered tasks are among the derived ones. -/
theorem CacheOf.finished_subset (hgen : Generation options latest c)
    (hcache : CacheOf options latest c) : ∀ taskId ∈ c.finishedTaskIds,
      taskId ∈ c.expectedDerivedState.tasks.map TopologyTask.taskId := by
  obtain ⟨_,_,expected,_,_,hexpected,hfinished⟩ := hcache
  obtain ⟨_,expected',hexpected',htasks⟩ := hgen
  obtain rfl : expected' = expected := Except.ok.inj (hexpected'.symm.trans hexpected)
  intro taskId hid
  rw [htasks,mem_map]
  exact (hfinished taskId hid).1

theorem length_filter_finished {taskIds : List Bytes} (hsub : ∀ taskId ∈ finished, taskId ∈ taskIds) :
    (taskIds.dedup.filter fun taskId => taskId ∈ finished).length = finished.card := by
  have hnodup : (taskIds.dedup.filter fun taskId => taskId ∈ finished).Nodup := taskIds.nodup_dedup.filter _
  rw [← toFinset_card_of_nodup hnodup]
  congr 1
  ext taskId
  simpa using hsub taskId

/-- When as many tasks are remembered as there are, all are. -/
theorem forall_mem_of_card {taskIds : List Bytes} (hsub : ∀ taskId ∈ finished, taskId ∈ taskIds)
    (hcard : finished.card = taskIds.length) :
    ∀ taskId ∈ taskIds, taskId ∈ finished := by
  have hfinset : finished = taskIds.toFinset := by
    apply Finset.eq_of_subset_of_card_le
    · intro taskId hid
      exact mem_toFinset.mpr (hsub taskId hid)
    · rw [hcard]
      exact taskIds.toFinset_card_le
  intro taskId hid
  rw [hfinset]
  exact mem_toFinset.mpr hid

/-- The observation in which the remembered tasks are finished and the batch is due. -/
def observed (c : TopologyController) (obs : Observation) : Observation :=
  { obs with derivedDone := true, finished := fun taskId => taskId ∈ c.finishedTaskIds, expired := true }

/-- What a decision commits, the reconciliation of the abstract controller commits. -/
theorem decideBatch_refines (hgen : Generation options latest c) (hcache : CacheOf options latest c)
    (hbatch : latest.state.activeBatch = some batch) {expected : ExpectedDerivedState}
    (hexpected : rebuildExpected options.hasher options.tokensPerMember latest = .ok expected)
    {now : Nat} {commit : TickCommit} (obs : Observation)
    (h : (c.decideBatch options latest batch now).result = .ok (some commit)) :
    Cluster.tryFinalizeActiveBatch options.toTopologyControllerOptions latest expected
      (c.observed obs) = .ok (some commit.next) := by
  have hsub := hcache.finished_subset hgen
  obtain ⟨_,expected',hexpected',htasks⟩ := hgen
  obtain rfl : expected' = expected := Except.ok.inj (hexpected'.symm.trans hexpected)
  rw [htasks] at hsub
  have hlen := length_filter_finished hsub
  simp only [Cluster.tryFinalizeActiveBatch,hbatch,observed,Bool.not_true,Bool.false_eq_true,if_false]
  unfold decideBatch at h
  dsimp only at h
  rw [htasks] at h
  rw [hlen]
  split_ifs at h ⊢ with hcard hwait
  · cases hfinal : commitBatchFinal latest batch.type with
    | error status => simp [hfinal,Except.map] at h
    | ok next =>
      simp only [hfinal,Except.map,Except.ok.injEq,Option.some.injEq] at h
      subst h
      rfl
  · cases h
  · -- the batch has expired; what is done about it depends on its kind
    unfold commitExpiredBatch at h
    cases htype : batch.type with
    | scaleOut =>
      simp only [htype,collectFailedJoining,htasks] at h ⊢
      obtain ⟨next,hnext,h⟩ := Except.bind_eq_ok.mp h
      rw [hnext,← Option.some.inj (Except.ok.inj h)]
      rfl
    | scaleIn =>
      simp only [htype] at h
      cases h
    | failure =>
      simp only [htype] at h ⊢
      obtain ⟨next,hnext,h⟩ := Except.bind_eq_ok.mp h
      rw [hnext,← Option.some.inj (Except.ok.inj h)]
      rfl

theorem decideBatch_controller (c : TopologyController) (now : Nat) :
    (c.decideBatch options latest batch now).controller =
      { c with batchDeadline := some (c.updateDeadline options batch now) } := by
  unfold decideBatch
  dsimp only
  split_ifs <;> rfl

variable {next : TopologyState}

/-- Unless it was a failure, a batch ends when all its tasks are remembered. -/
theorem card_of_batchFinal {now : Nat} {ended : ActiveBatch}
    (h : (c.decideBatch options latest batch now).result = .ok (some (.batchFinal ended next))) :
    ended = batch ∧ (batch.type ≠ .failure → c.finishedTaskIds.card = c.expectedDerivedState.tasks.length) := by
  unfold decideBatch at h
  dsimp only at h
  split_ifs at h with hcard hwait
  · cases hfinal : commitBatchFinal latest batch.type with
    | error status => simp [hfinal,Except.map] at h
    | ok next' =>
      simp only [hfinal,Except.map,Except.ok.injEq,Option.some.injEq,TickCommit.batchFinal.injEq] at h
      exact ⟨h.1.symm,fun _ => hcard⟩
  · cases h
  · unfold commitExpiredBatch at h
    cases htype : batch.type with
    | scaleOut =>
      simp only [htype] at h
      obtain ⟨_,_,h⟩ := Except.bind_eq_ok.mp h
      cases h
    | scaleIn =>
      simp only [htype] at h
      cases h
    | failure =>
      simp only [htype] at h
      obtain ⟨_,_,h⟩ := Except.bind_eq_ok.mp h
      cases h
      exact ⟨rfl,fun hne => absurd rfl hne⟩

/-! ## Reconciliations -/

/-- What a reconciliation, or a part of it, does to the controller and decides. -/
structure TickSpec (options : ProgressOptions) (history : TopologyHistory) (latest : TopologySnapshot)
    (c : TopologyController) (tick : Tick (Option TickCommit)) : Prop where
  cache : CacheInv options history tick.controller
  reads : c.taskReads ⊆ tick.controller.taskReads
  refines : ∀ commit, tick.result = .ok (some commit) → ∃ obs,
    Cluster.recoverFromLatestTopology options.toTopologyControllerOptions latest obs =
      .ok (some commit.next)
  final : ∀ batch next, tick.result = .ok (some (.batchFinal batch next)) → batch.type ≠ .failure →
    latest.state.activeBatch = some batch ∧
      ∃ expected, rebuildExpected options.hasher options.tokensPerMember latest = .ok expected ∧
        ∀ task ∈ expected.tasks, tick.controller.ReadFinished latest.state.version batch task.taskId

theorem TickSpec.of_quiet {tick : Tick (Option TickCommit)} (hcache : CacheInv options history tick.controller)
    (hreads : c.taskReads ⊆ tick.controller.taskReads)
    (hquiet : ∀ commit, tick.result ≠ .ok (some commit)) : TickSpec options history latest c tick where
  cache := hcache
  reads := hreads
  refines commit h := absurd h (hquiet commit)
  final batch next h := absurd h (hquiet _)

theorem prepareDerivedGeneration_spec {memberships : List MembershipRecord}
    (h : c.prepareDerivedGeneration options latest memberships = .ok c')
    (hinv : HistoryInv options.toTopologyControllerOptions history) (hlatest : latest ∈ history)
    (hc : CacheInv options history c) :
    Generation options latest c' ∧ CacheInv options history c' ∧ c'.taskReads = c.taskReads := by
  unfold prepareDerivedGeneration at h
  dsimp only at h
  split_ifs at h with hsame
  · cases h
    refine ⟨?_,hc,rfl⟩
    rcases hc.derived with hzero | ⟨s,hs,hgen⟩
    · exact absurd (hzero.symm.trans hsame.1) latest.valid.version_pos.ne
    · obtain rfl : s = latest := hinv.eq_of_version hs hlatest (hgen.1.symm.trans hsame.1)
      exact hgen
  · obtain ⟨candidate,hcandidate,h⟩ := Except.bind_eq_ok.mp h
    cases h
    obtain ⟨built,hbuilt,hcandidate⟩ := Except.bind_eq_ok.mp hcandidate
    have htasks : candidate.tasks = built.tasks := by
      split_ifs at hcandidate
      · rw [← Except.ok.inj hcandidate]
      · obtain ⟨_,_,hcandidate⟩ := Except.bind_eq_ok.mp hcandidate
        rw [← Except.ok.inj hcandidate]
    have hgen : Generation options latest { c with
          expectedDerivedState := candidate
          derivedTopologyVersion := latest.state.version
          derivedMembershipDigest := (generationMemberships options latest memberships).2
          admissionCursor := 0
          derivedWorkPending := true } := ⟨rfl,built,hbuilt,htasks⟩
    exact ⟨hgen,⟨Or.inr ⟨latest,hlatest,hgen⟩,hc.cached⟩,rfl⟩

/-- A slice changes nothing that the invariant is about. -/
theorem reconcileDerivedSlice_spec (options : ProgressOptions) (c : TopologyController) (input : TickInput) :
    ∃ cursor pending, (c.reconcileDerivedSlice options input).controller =
      { c with admissionCursor := cursor, derivedWorkPending := pending } := by
  unfold reconcileDerivedSlice
  dsimp only
  split_ifs
  · exact ⟨_,_,rfl⟩
  · exact ⟨_,_,rfl⟩
  · exact ⟨_,c.derivedWorkPending,rfl⟩

variable {obs : Observation}

theorem recoverFromLatestTopology_finalize {expected : ExpectedDerivedState}
    (hfailures : tryConfirmFailures options.toTopologyControllerOptions latest obs = .ok none)
    (hexpected : rebuildExpected options.hasher options.tokensPerMember latest = .ok expected)
    (h : Cluster.tryFinalizeActiveBatch options.toTopologyControllerOptions latest expected
      (c.observed obs) = .ok (some next)) :
    Cluster.recoverFromLatestTopology options.toTopologyControllerOptions latest (c.observed obs) =
      .ok (some next) := by
  have hfailures' : tryConfirmFailures options.toTopologyControllerOptions latest (c.observed obs) =
    .ok none := hfailures
  simp only [Cluster.recoverFromLatestTopology,hfailures',hexpected,h,bind,Except.bind]
  rfl

theorem recoverFromLatestTopology_startNext
    (hfailures : tryConfirmFailures options.toTopologyControllerOptions latest obs = .ok none)
    (hbatch : latest.state.activeBatch = none)
    (h : tryStartNextBatch options.toTopologyControllerOptions latest obs = .ok (some next)) :
    Cluster.recoverFromLatestTopology options.toTopologyControllerOptions latest obs = .ok (some next) := by
  have hexpected : rebuildExpected options.hasher options.tokensPerMember latest = .ok ⟨[],[],[]⟩ := by
    simp [rebuildExpected,hbatch]
  have hfinal : ∀ expected, Cluster.tryFinalizeActiveBatch options.toTopologyControllerOptions latest
      expected obs = .ok none := by
    intro expected
    simp only [Cluster.tryFinalizeActiveBatch,hbatch]
    rfl
  simp only [Cluster.recoverFromLatestTopology,hfailures,hexpected,hfinal,bind,Except.bind]
  exact h

theorem activeBatch_eq_none_of_start
    (h : tryStartNextBatch options.toTopologyControllerOptions latest obs = .ok (some next)) :
    latest.state.activeBatch = none := by
  by_contra hsome
  have hactive : latest.state.activeBatch.isSome = true := Option.isSome_iff_ne_none.mpr hsome
  unfold tryStartNextBatch at h
  simp only [hactive,Bool.true_or,if_true] at h
  cases h

theorem decideBatch_spec {now : Nat} (hlatest : latest ∈ history)
    (hfailures : tryConfirmFailures options.toTopologyControllerOptions latest obs = .ok none)
    (hbatch : latest.state.activeBatch = some batch) (hgen : Generation options latest c)
    (hcache : CacheOf options latest c) :
    TickSpec options history latest c (c.decideBatch options latest batch now) := by
  obtain ⟨_,expected,hexpected,htasks⟩ := id hgen
  refine ⟨?_,?_,?_,?_⟩
  · rw [decideBatch_controller]
    exact ⟨Or.inr ⟨latest,hlatest,hgen⟩,Or.inr ⟨latest,hlatest,hcache⟩⟩
  · rw [decideBatch_controller]
    exact List.Subset.refl _
  · intro commit h
    exact ⟨_,recoverFromLatestTopology_finalize hfailures hexpected
      (decideBatch_refines hgen hcache hbatch hexpected obs h)⟩
  · intro ended next h hfailure
    obtain ⟨rfl,hcard⟩ := card_of_batchFinal h
    refine ⟨hbatch,expected,hexpected,?_⟩
    intro task htask
    rw [← htasks] at htask
    have hmem : task.taskId ∈ c.finishedTaskIds :=
      forall_mem_of_card (hcache.finished_subset hgen) (by simpa using hcard hfailure) _ (mem_map_of_mem htask)
    obtain ⟨_,batch',_,hbatch',_,_,hfinished⟩ := hcache
    obtain rfl : batch' = ended := Option.some.inj (hbatch'.symm.trans hbatch)
    rw [decideBatch_controller]
    exact (hfinished _ hmem).2

theorem tryFinalizeActiveBatch_spec (hinv : HistoryInv options.toTopologyControllerOptions history)
    (hlatest : latest ∈ history)
    (hfailures : tryConfirmFailures options.toTopologyControllerOptions latest obs = .ok none)
    (hgen : Generation options latest c) (hc : CacheInv options history c) :
    TickSpec options history latest c (c.tryFinalizeActiveBatch options parse latest input) := by
  unfold tryFinalizeActiveBatch
  split
  · exact .of_quiet ⟨hc.derived,Or.inl rfl⟩ (List.Subset.refl _) (fun _ h => by cases h)
  · rename_i batch hbatch
    split_ifs with hversion hpending
    · exact .of_quiet hc (List.Subset.refl _) (fun _ h => by cases h)
    · exact .of_quiet hc (List.Subset.refl _) (fun _ h => by cases h)
    · -- a sweep for the latest topology, and the decision
      have hreset : Kept c (c.resetProgress batch) := kept_resetProgress
      have hgen₁ := hreset.generation hgen
      have hcache₁ := cacheOf_resetProgress hinv hlatest hbatch hgen hc
      have hsweep := (sweepOnce_spec options parse (c.resetProgress batch) batch input).1
      have hgen₂ := hsweep.generation hgen₁
      have hcache₂ : CacheOf options latest ((c.resetProgress batch).sweepOnce options parse batch
        input).controller := hcache₁.sweepOnce hgen₁ hbatch
      have hkept := hreset.trans hsweep
      dsimp only [refreshTaskProgressCache]
      generalize (c.resetProgress batch).sweepOnce options parse batch input = refreshed at *
      split
      · exact .of_quiet ⟨Or.inr ⟨latest,hlatest,hgen₂⟩,Or.inr ⟨latest,hlatest,hcache₂⟩⟩
          hkept.reads (fun _ h => by cases h)
      · have hspec : TickSpec options history latest refreshed.controller
            (refreshed.controller.decideBatch options latest batch input.now) :=
          decideBatch_spec hlatest hfailures hbatch hgen₂ hcache₂
        exact ⟨hspec.cache,List.Subset.trans hkept.reads hspec.reads,hspec.refines,hspec.final⟩

theorem start_of_map_change {result : Except Status (Option TopologyState)} {commit : TickCommit}
    (h : result.map (Option.map TickCommit.change) = .ok (some commit)) :
    ∃ next, result = .ok (some next) ∧ commit = .change next := by
  cases result with
  | error status => cases h
  | ok start =>
    cases start with
    | none => cases h
    | some next => exact ⟨next,rfl,(Option.some.inj (Except.ok.inj h)).symm⟩

theorem reconcileBatch_spec (hinv : HistoryInv options.toTopologyControllerOptions history) (hlatest : latest ∈ history)
    (hfailures : tryConfirmFailures options.toTopologyControllerOptions latest obs = .ok none)
    (hc : CacheInv options history c) :
    TickSpec options history latest c (c.reconcileBatch options parse latest obs input) := by
  unfold reconcileBatch
  split
  · exact .of_quiet hc (List.Subset.refl _) (fun _ h => by cases h)
  · rename_i prepared hprepared
    obtain ⟨hgen,hcache,hreads⟩ := prepareDerivedGeneration_spec hprepared hinv hlatest hc
    obtain ⟨cursor,pending,hderived⟩ := reconcileDerivedSlice_spec options prepared input
    dsimp only
    rw [hderived]
    have hspec : TickSpec options history latest
        { prepared with admissionCursor := cursor, derivedWorkPending := pending }
        (({ prepared with admissionCursor := cursor, derivedWorkPending := pending } :
          TopologyController).tryFinalizeActiveBatch options parse latest input) :=
      tryFinalizeActiveBatch_spec hinv hlatest hfailures hgen ⟨hcache.derived,hcache.cached⟩
    generalize (({ prepared with admissionCursor := cursor, derivedWorkPending := pending } :
      TopologyController).tryFinalizeActiveBatch options parse latest input) = final at *
    have hreads' : c.taskReads ⊆ final.controller.taskReads := hreads ▸ hspec.reads
    split
    · exact .of_quiet ⟨hcache.derived,hcache.cached⟩ (hreads ▸ List.Subset.refl _) (fun _ h => by cases h)
    · split
      · refine ⟨hspec.cache,hreads',?_,?_⟩
        · intro commit h
          obtain ⟨next,hnext,rfl⟩ := start_of_map_change h
          exact ⟨obs,recoverFromLatestTopology_startNext hfailures (activeBatch_eq_none_of_start hnext) hnext⟩
        · intro batch next h
          obtain ⟨_,_,hchange⟩ := start_of_map_change h
          cases hchange
      · exact ⟨hspec.cache,hreads',hspec.refines,hspec.final⟩

theorem recoverFromLatestTopology_spec (hinv : HistoryInv options.toTopologyControllerOptions history)
    (hlatest : latest ∈ history) (hc : CacheInv options history c) :
    TickSpec options history latest c (c.recoverFromLatestTopology options parse latest obs input) := by
  unfold recoverFromLatestTopology
  split
  · exact .of_quiet hc (List.Subset.refl _) (fun _ h => by cases h)
  · rename_i next hfailures
    refine ⟨hc,List.Subset.refl _,?_,(fun _ _ h => by cases Except.ok.inj h)⟩
    intro commit h
    cases h
    refine ⟨obs,?_⟩
    simp only [Cluster.recoverFromLatestTopology,hfailures,bind,Except.bind]
    rfl
  · rename_i hfailures
    exact reconcileBatch_spec hinv hlatest hfailures hc

theorem recordReconcileResult_spec (c : TopologyController) (status : Status) :
    ∃ derived progress, c.recordReconcileResult status =
      { c with derivedWorkPending := derived, progressWorkPending := progress } := by
  unfold recordReconcileResult
  split_ifs
  · exact ⟨c.derivedWorkPending,c.progressWorkPending,rfl⟩
  · exact ⟨_,_,rfl⟩

theorem CacheInv.recordReconcileResult (h : CacheInv options history c) (status : Status) :
    CacheInv options history (c.recordReconcileResult status) := by
  obtain ⟨derived,progress,hrecord⟩ := recordReconcileResult_spec c status
  rw [hrecord]
  exact ⟨h.derived,h.cached⟩

theorem taskReads_recordReconcileResult (status : Status) :
    (c.recordReconcileResult status).taskReads = c.taskReads := by
  obtain ⟨derived,progress,hrecord⟩ := recordReconcileResult_spec c status
  rw [hrecord]

end TopologyController

/-! ## Runs of all controllers -/

open TopologyController

section Run

variable {options : ProgressOptions} {parse : TaskParser} {fleet fleet' : Fleet}

/-- A batch has ended right after its topology, with all tasks read as finished. -/
def BatchFinal.Sound (options : ProgressOptions) (fleet : Fleet) (f : BatchFinal) : Prop :=
  f.latest.state.activeBatch = some f.batch ∧
    (∃ committed, [committed,f.latest] <:+: fleet.history) ∧
    ∃ expected, rebuildExpected options.hasher options.tokensPerMember f.latest = .ok expected ∧
      ∀ task ∈ expected.tasks,
        (fleet.controllers f.controller).ReadFinished f.latest.state.version f.batch task.taskId

structure FleetInv (options : ProgressOptions) (fleet : Fleet) : Prop where
  reachable : (controllerMachine options.toTopologyControllerOptions).Reachable fleet.history
  caches : ∀ i, CacheInv options fleet.history (fleet.controllers i)
  finals : ∀ f ∈ fleet.finals, f.batch.type ≠ .failure → f.Sound options fleet

/-- What has ended stays ended. -/
theorem BatchFinal.Sound.mono {f : BatchFinal} (h : f.Sound options fleet) (hhistory : fleet.history <:+ fleet'.history)
    (hreads : ∀ i, (fleet.controllers i).taskReads ⊆ (fleet'.controllers i).taskReads) :
    f.Sound options fleet' := by
  obtain ⟨hbatch,⟨committed,hpart⟩,expected,hexpected,htasks⟩ := h
  refine ⟨hbatch,⟨committed,hpart.trans hhistory.isInfix⟩,expected,hexpected,?_⟩
  intro task htask
  exact (htasks task htask).mono (hreads _)

theorem taskReads_setController {i : Nat} {c : TopologyController}
    (h : (fleet.controllers i).taskReads ⊆ c.taskReads) (j : Nat) :
    (fleet.controllers j).taskReads ⊆ ((fleet.setController i c).controllers j).taskReads := by
  by_cases hij : j = i
  · subst hij
    simpa [Fleet.setController] using h
  · simp [Fleet.setController,hij]

theorem FleetInv.setController (h : FleetInv options fleet) {i : Nat} {c : TopologyController}
    (hc : CacheInv options fleet.history c)
    (hreads : (fleet.controllers i).taskReads ⊆ c.taskReads) :
    FleetInv options (fleet.setController i c) where
  reachable := h.reachable
  caches j := by
    by_cases hij : j = i
    · subst hij
      simpa [Fleet.setController] using hc
    · simpa [Fleet.setController,hij] using h.caches j
  finals f hf htype := (h.finals f hf htype).mono (suffix_refl _) (taskReads_setController hreads)

theorem FleetInv.finishTick (h : FleetInv options fleet) {i : Nat} {latest : TopologySnapshot}
    {read : Nat} (hread : fleet.history[read]? = some latest) {tick : Tick (Option TickCommit)}
    (hspec : TickSpec options fleet.history latest (fleet.controllers i) tick) (input : TickInput) :
    FleetInv options (fleet.finishTick i latest tick input) := by
  have hrecord : ∀ status, FleetInv options (fleet.setController i (tick.controller.recordReconcileResult status)) := by
    intro status
    apply h.setController (hspec.cache.recordReconcileResult status)
    rw [taskReads_recordReconcileResult]
    exact hspec.reads
  unfold Fleet.finishTick
  split
  · exact hrecord _
  · exact h.setController hspec.cache hspec.reads
  · rename_i commit hcommit
    split
    · exact hrecord _
    · -- the commit takes effect
      rename_i history hcas
      obtain ⟨obs,hobs⟩ := hspec.refines commit hcommit
      obtain ⟨hversion,committed,_,rfl⟩ := compareAndSwapTopology_eq_some hcas
      obtain ⟨rest,hrest⟩ := (reachable_historyInv h.reachable).eq_head (mem_of_getElem? hread) hversion
      have hinv := hrecord input.commitStatus
      refine ⟨?_,?_,?_⟩
      · refine h.reachable.step (a := .reconcile read obs) ?_
        simp [controllerMachine,controllerStep,hread,hobs,hcas]
      · intro j
        exact (hinv.caches j).mono committed
      · have hold : ∀ f ∈ fleet.finals, f.batch.type ≠ .failure → f.Sound options
            { fleet.setController i (tick.controller.recordReconcileResult input.commitStatus) with
              history := committed :: fleet.history, finals := fleet.finals } :=
          fun f hf htype => (hinv.finals f hf htype).mono (suffix_cons _ _) fun _ => List.Subset.refl _
        cases commit with
        | change next => exact hold
        | batchFinal batch next =>
          intro f hf htype
          rcases mem_cons.mp hf with rfl | hf
          · obtain ⟨hbatch,expected,hexpected,htasks⟩ := hspec.final batch next hcommit htype
            refine ⟨hbatch,⟨committed,?_⟩,expected,hexpected,?_⟩
            · rw [hrest]
              exact ⟨[],rest,rfl⟩
            · intro task htask
              apply (htasks task htask).mono
              simp [Fleet.setController,taskReads_recordReconcileResult]
          · exact hold f hf htype

theorem FleetInv.step (h : FleetInv options fleet) {a : FleetAction}
    (hstep : fleetStep options parse fleet a = some fleet') : FleetInv options fleet' := by
  cases a with
  | ensureTopologyAuthority =>
    obtain ⟨history,hcas,rfl⟩ := Option.map_eq_some_iff.mp hstep
    obtain ⟨_,committed,_,rfl⟩ := compareAndSwapTopology_eq_some hcas
    refine ⟨h.reachable.step (a := .ensureTopologyAuthority) hcas,?_,?_⟩
    · intro i
      exact (h.caches i).mono committed
    · intro f hf htype
      exact (h.finals f hf htype).mono (suffix_cons _ _) fun _ => List.Subset.refl _
  | reconcile i read obs input =>
    obtain ⟨latest,hread,rfl⟩ := Option.map_eq_some_iff.mp hstep
    exact h.finishTick hread (recoverFromLatestTopology_spec (reachable_historyInv h.reachable)
      (mem_of_getElem? hread) (h.caches i)) input

theorem reachable_fleetInv (h : (fleetMachine options parse).Reachable fleet) : FleetInv options fleet := by
  refine h.invariant ⟨.init,?_,?_⟩ fun _ _ _ hinv hstep => hinv.step hstep
  · intro i
    exact ⟨Or.inl rfl,Or.inl rfl⟩
  · intro f hf
    cases hf

/-- In every run, a scale-out or scale-in ends only after every task of its topology has been read
as finished, for that version and batch. Every task that a controller remembers has been read as
finished for the version and epoch that the controller has noted with it, and is one of the current
tasks whenever that version is the one the current tasks were derived for. -/
theorem batch_final_after_finished_reads (h : (fleetMachine options parse).Reachable fleet) :
    (∀ f ∈ fleet.finals, f.batch.type ≠ .failure → f.latest.state.activeBatch = some f.batch ∧
      (∃ committed, [committed,f.latest] <:+: fleet.history) ∧
      ∃ expected, rebuildExpected options.hasher options.tokensPerMember f.latest = .ok expected ∧
        ∀ task ∈ expected.tasks,
          (fleet.controllers f.controller).ReadFinished f.latest.state.version f.batch task.taskId) ∧
    ∀ i, ∀ taskId ∈ (fleet.controllers i).finishedTaskIds,
      (∃ batch, batch.epoch = (fleet.controllers i).progressBatchEpoch ∧
        (fleet.controllers i).ReadFinished (fleet.controllers i).progressTopologyVersion batch taskId) ∧
      ((fleet.controllers i).progressTopologyVersion = (fleet.controllers i).derivedTopologyVersion →
        ∃ task ∈ (fleet.controllers i).expectedDerivedState.tasks, task.taskId = taskId) := by
  have hinv := reachable_fleetInv h
  refine ⟨hinv.finals,?_⟩
  intro i taskId hid
  rcases (hinv.caches i).cached with hempty | ⟨s,hs,hcache⟩
  · rw [hempty] at hid
    cases hid
  · obtain ⟨hversion,batch,expected,hbatch,hepoch,hexpected,hfinished⟩ := id hcache
    constructor
    · refine ⟨batch,hepoch.symm,?_⟩
      rw [hversion]
      exact (hfinished taskId hid).2
    · intro htag
      rcases (hinv.caches i).derived with hzero | ⟨s',hs',hgen⟩
      · rw [hversion,hzero] at htag
        exact absurd htag s.valid.version_pos.ne'
      · obtain rfl : s' = s := (reachable_historyInv hinv.reachable).eq_of_version hs' hs
          (by rw [← hgen.1,← htag,hversion])
        simpa using hcache.finished_subset hgen taskId hid

end Run

/-! ## A scale-out that is planned again -/

def sampleProgressOptions : ProgressOptions := ⟨sampleOptions,8,8,10,10,false⟩

def finishedValue : Bytes :=
  Wire.encode (TaskPb.fields ⟨Bytes.ascii "127.0.0.1:2",[⟨Bytes.ascii "127.0.0.1:1",0,0,true⟩]⟩)

/-- A reconciliation of the latest topology by the first controller, in which all tasks that are
read are finished. -/
def tickNow (memberships : List MembershipRecord) (derivedBudget progressBudget : Nat) : FleetAction :=
  .reconcile 0 0
    ⟨memberships,memberships,fun _ => true,fun _ => true,[],[],true,true,true,true,
      fun _ => true,false⟩
    ⟨derivedBudget,fun _ => .success,progressBudget,fun _ => .ok finishedValue,0,.success⟩

/-- Members 2 and 3 join member 1. When one of two tasks has been read, member 3 disappears, and the
tasks of the new plan are written one reconciliation later than they are derived. -/
def replannedScaleOut : List FleetAction :=
  [.ensureTopologyAuthority,
    tickNow [sampleRecord 1 .ready] 8 8,
    tickNow [sampleRecord 1 .ready] 8 8,
    tickNow [sampleRecord 1 .ready,sampleRecord 2 .ready,sampleRecord 3 .ready] 8 8,
    tickNow [sampleRecord 1 .ready,sampleRecord 2 .ready,sampleRecord 3 .ready] 8 8,
    tickNow [sampleRecord 1 .ready,sampleRecord 2 .ready,sampleRecord 3 .ready] 8 1,
    tickNow [sampleRecord 1 .ready,sampleRecord 2 .ready] 8 8,
    tickNow [sampleRecord 1 .ready,sampleRecord 2 .ready] 0 8,
    tickNow [sampleRecord 1 .ready,sampleRecord 2 .ready] 8 8]

def progressRun (actions : List FleetAction) : Option Fleet :=
  (fleetMachine sampleProgressOptions taskParserWire).run ⟨[],fun _ => {},[]⟩ actions

/-- While the tasks of the new plan are being written, the controller remembers a task of the old
plan. -/
theorem replanned_task_remembered : ∃ fleet, (fleetMachine sampleProgressOptions taskParserWire).Reachable fleet ∧
      ∃ taskId ∈ (fleet.controllers 0).finishedTaskIds,
        ∀ task ∈ (fleet.controllers 0).expectedDerivedState.tasks, task.taskId ≠ taskId := by
  have heval : (progressRun (replannedScaleOut.take 8)).map (fun fleet =>
      decide (∃ taskId ∈ (fleet.controllers 0).finishedTaskIds,
        ∀ task ∈ (fleet.controllers 0).expectedDerivedState.tasks, task.taskId ≠ taskId)) =
      some true := by
    decide +kernel
  obtain ⟨fleet,hrun,hstale⟩ := Option.map_eq_some_iff.mp heval
  exact ⟨fleet,Machine.Reachable.run .init hrun,of_decide_eq_true hstale⟩

theorem batch_final_after_finished_reads_replanned : ∃ fleet f,
    progressRun replannedScaleOut = some fleet ∧ f ∈ fleet.finals ∧ f.batch = ⟨.scaleOut,6⟩ ∧
      ∃ expected, rebuildExpected Hasher.openssl 1 f.latest = .ok expected ∧
        ∀ task ∈ expected.tasks, (fleet.controllers f.controller).ReadFinished
          f.latest.state.version f.batch task.taskId := by
  have heval : (progressRun replannedScaleOut).map (fun fleet =>
      fleet.finals.map BatchFinal.batch) = some [⟨.scaleOut,6⟩] := by
    decide +kernel
  obtain ⟨fleet,hrun,hfinals⟩ := Option.map_eq_some_iff.mp heval
  obtain ⟨f,hf,hbatch⟩ : ∃ f ∈ fleet.finals, f.batch = ⟨.scaleOut,6⟩ := by
    rw [← mem_map,hfinals]
    exact mem_singleton_self _
  have hreach : (fleetMachine sampleProgressOptions taskParserWire).Reachable fleet := Machine.Reachable.run .init hrun
  obtain ⟨_,_,hread⟩ := (batch_final_after_finished_reads hreach).1 f hf (by simp [hbatch])
  exact ⟨fleet,f,hrun,hf,hbatch,hread⟩

end Datasystem.Cluster
