import Datasystem.Cluster.BatchPlans

/-!
# The tasks of a batch and the rings they come from

Every token that moves is in exactly one range of one task, and the task names the two owners. Digests are
assumed to succeed.
-/

namespace Datasystem.Cluster

open ClosedRange TopologySnapshot List

theorem flatten_chunks {α : Type} {size : Nat} (hsize : 0 < size) (l : List α) : (chunks size l).flatten = l := by
  have htake : ∀ n, ((List.range n).map fun i => (l.drop (i * size)).take size).flatten = l.take (n * size) := by
    intro n
    induction n with
    | zero => simp
    | succ n ih =>
      rw [range_succ,map_append,flatten_append,ih]
      simp only [map_cons,map_nil,flatten_cons,flatten_nil,append_nil]
      rw [Nat.succ_mul,take_add]
  rw [chunks,htake,take_of_length_le]
  have hdiv : l.length + size - 1 < ((l.length + size - 1) / size + 1) * size := by
    have := Nat.lt_mul_div_succ (l.length + size - 1) hsize
    rwa [Nat.mul_comm] at this
  rw [Nat.add_mul,Nat.one_mul] at hdiv
  omega

theorem ranges_withId (taskId : Bytes) (task : TopologyTask) : (task.withId taskId).ranges = task.ranges := by
  cases task <;> rfl

theorem ranges_makeTask (type : TopologyChangeType) (epoch : Nat) (source target : Bytes)
    (ranges : List TokenRange) : (makeTask type epoch source target ranges).ranges.Perm ranges := by
  have hperm : ∀ owner : Bytes, ((canonicalizeRanges (ranges.map fun r => ⟨owner,r,false⟩)).map
      TopologyTaskRange.range).Perm ranges := by
    intro owner
    have hsort := (perm_insertionSort (fun a b : TopologyTaskRange => rangeLe a.range b.range)
      (ranges.map fun r => (⟨owner,r,false⟩ : TopologyTaskRange))).map TopologyTaskRange.range
    have hmap : (ranges.map fun r => (⟨owner,r,false⟩ : TopologyTaskRange)).map TopologyTaskRange.range = ranges := by
      simp [Function.comp_def]
    rwa [hmap] at hsort
  cases type <;> exact hperm _

theorem ranges_appendTaskChunks (type : TopologyChangeType) (epoch : Nat)
    {change : TopologyOwnerChange} {source : MemberIdentity} (hsource : change.source = some source) :
    ((appendTaskChunks type epoch change).flatMap TopologyTask.ranges).Perm change.ranges := by
  have hflat : ((chunks maxTopologyTaskRanges (sortRanges change.ranges)).flatMap fun chunk =>
      (makeTask type epoch source.address change.target.address chunk).ranges).Perm
        ((chunks maxTopologyTaskRanges (sortRanges change.ranges)).flatMap id) :=
    List.Perm.flatMap_left _ fun chunk _ => ranges_makeTask type epoch _ _ chunk
  rw [flatMap_id,flatten_chunks (by decide)] at hflat
  simp only [appendTaskChunks,hsource,flatMap_map]
  exact hflat.trans (perm_insertionSort rangeLe change.ranges)

/-- A task names the owners of its tokens: a migration runs on the source, a recovery on the target,
and none of its ranges is finished. -/
def TopologyTask.Names (batch : ActiveBatch) (source target : Bytes) : TopologyTask → Prop
  | .migrate task => batch.type ≠ .failure ∧ task.type = batch.type ∧ task.epoch = batch.epoch ∧
      task.executorAddress = source ∧ task.targetAddress = target ∧
      ∀ r ∈ task.sourceRanges, r.ownerAddress = source ∧ r.finished = false
  | .deleteMember task => batch.type = .failure ∧ task.epoch = batch.epoch ∧
      task.executorAddress = target ∧ task.failedAddress = source ∧
      ∀ r ∈ task.recoveryRanges, r.ownerAddress = target ∧ r.finished = false

theorem names_makeTask (batch : ActiveBatch) (source target taskId : Bytes) (ranges : List TokenRange) :
    ((makeTask batch.type batch.epoch source target ranges).withId taskId).Names batch source target := by
  have howner : ∀ (owner : Bytes) (r : TopologyTaskRange),
      r ∈ canonicalizeRanges (ranges.map fun r => ⟨owner,r,false⟩) → r.ownerAddress = owner ∧ r.finished = false := by
    intro owner r hr
    obtain ⟨range,_,rfl⟩ := mem_map.mp ((perm_insertionSort _ _).mem_iff.mp hr)
    exact ⟨rfl,rfl⟩
  obtain ⟨type,epoch⟩ := batch
  cases type with
  | failure => exact ⟨rfl,rfl,rfl,rfl,howner target⟩
  | scaleOut => exact ⟨(fun h => by cases h),rfl,rfl,rfl,rfl,howner source⟩
  | scaleIn => exact ⟨(fun h => by cases h),rfl,rfl,rfl,rfl,howner source⟩

theorem TopologyTask.Names.executorAddress_eq {batch : ActiveBatch} {source target : Bytes}
    {task : TopologyTask} (h : task.Names batch source target) (htype : batch.type = .failure) :
    task.executorAddress = target := by
  cases task with
  | migrate task => exact absurd htype h.1
  | deleteMember task => exact h.2.2.1

variable {hasher : Hasher}

theorem length_digestPrefix (h : hasher.Total) (seed : Bytes) : (digestPrefix hasher seed).length = idHashChars := by
  obtain ⟨digest,hdigest⟩ := Option.isSome_iff_exists.mp (h seed)
  have hex : hasher.getSha256Hex seed = some (Hasher.hexEncode digest) := by
    simp [Hasher.getSha256Hex,hdigest]
  simp [digestPrefix,hex,Hasher.length_getSha256Hex hex,idHashChars]

theorem lt_length_buildTaskId (h : hasher.Total) (task : TopologyTask) :
    idHashChars < (buildTaskId hasher task).length := by
  cases task <;> simp only [buildTaskId,length_append,length_digestPrefix h,length_cons] <;> omega

theorem assignTaskIds_eq (h : hasher.Total) (tasks : List TopologyTask) :
    assignTaskIds hasher tasks = .ok (tasks.map fun task => task.withId (buildTaskId hasher task)) := by
  have hstep : ∀ task, (do
      checkFailReturnStatus (idHashChars < (buildTaskId hasher task).length) .runtimeError "build task digest failed"
      return task.withId (buildTaskId hasher task) : Except Status TopologyTask) =
        pure (task.withId (buildTaskId hasher task)) := by
    intro task
    simp [checkFailReturnStatus,lt_length_buildTaskId h,bind,Except.bind]
  simp only [assignTaskIds,hstep]
  exact mapM_pure

section Changes

variable {hasher : Hasher} {batch : ActiveBatch} {changes : List TopologyOwnerChange}
  {R : UInt32 → MemberIdentity → MemberIdentity → Prop}

/-- The derived tasks are the tasks of the changes, each with its identifier. -/
theorem expectedFromChanges_eq (h : hasher.Total) (batch : ActiveBatch) (changes : List TopologyOwnerChange) :
    ∃ expected, expectedFromChanges hasher batch changes = .ok expected ∧
      expected.tasks.Perm ((changes.flatMap (appendTaskChunks batch.type batch.epoch)).map
        fun task => task.withId (buildTaskId hasher task)) := by
  rw [expectedFromChanges,assignTaskIds_eq h]
  exact ⟨_,rfl,perm_insertionSort (fun a b : TopologyTask => a.taskId ≤ b.taskId) _⟩

/-- The tasks of a relation that says which tokens move: each token that moves lies in one range of
one task, other tokens in none, and every task names the owners of its tokens. -/
structure TaskSpec (batch : ActiveBatch) (R : UInt32 → MemberIdentity → MemberIdentity → Prop)
    (tasks : List TopologyTask) : Prop where
  once : ∀ t source target, R t source target →
    (tasks.flatMap TopologyTask.ranges).countP (fun r => r.contains t) = 1
  never : ∀ t, (∀ source target, ¬ R t source target) →
    (tasks.flatMap TopologyTask.ranges).countP (fun r => r.contains t) = 0
  names : ∀ task ∈ tasks, ∃ source target, task.Names batch source.address target.address ∧
    (∃ t, R t source target) ∧ ∀ t, Covers task.ranges t → R t source target

theorem TaskSpec.exists_task {tasks : List TopologyTask} (h : TaskSpec batch R tasks) {t : UInt32}
    {source target : MemberIdentity} (hR : R t source target) :
    ∃ task ∈ tasks, Covers task.ranges t := by
  have hpos : 0 < (tasks.flatMap TopologyTask.ranges).countP (fun r => r.contains t) := by
    rw [h.once t source target hR]
    exact Nat.one_pos
  obtain ⟨r,hr,hrt⟩ := countP_pos_iff.mp hpos
  obtain ⟨task,htask,hmem⟩ := mem_flatMap.mp hr
  exact ⟨task,htask,r,hmem,hrt⟩

variable (h : ChangeSpec R changes)

include h

theorem ChangeSpec.countP_eq_one (hfun : ∀ t s g s' g', R t s g → R t s' g' → s = s' ∧ g = g') {t : UInt32}
    {source target : MemberIdentity} (hR : R t source target) :
    (changes.flatMap TopologyOwnerChange.ranges).countP (fun r => r.contains t) = 1 := by
  obtain ⟨c,hc,hsource,htarget⟩ := h.complete t source target hR
  have hother : ∀ l : List TopologyOwnerChange, (∀ c' ∈ l, c' ∈ changes ∧ changeKey c' ≠ changeKey c) →
      (l.flatMap TopologyOwnerChange.ranges).countP (fun r => r.contains t) = 0 := by
    intro l hl
    rw [countP_eq_zero]
    intro r hr hrt
    obtain ⟨c',hc',hmem⟩ := mem_flatMap.mp hr
    obtain ⟨s,hs,_,_,hcov⟩ := h.sound c' (hl c' hc').1
    obtain ⟨hss,hgg⟩ := hfun t _ _ _ _ ((hcov t).mp ⟨r,hmem,hrt⟩) hR
    exact (hl c' hc').2 (by simp [changeKey,hs,hsource,hss,hgg,htarget])
  have hself : c.ranges.countP (fun r => r.contains t) = 1 := by
    obtain ⟨s,hs,_,hsep,hcov⟩ := h.sound c hc
    obtain rfl := Option.some.inj (hsource.symm.trans hs)
    obtain ⟨r,hr,hrt⟩ := (hcov t).mpr (htarget ▸ hR)
    apply le_antisymm (hsep.ascending.countP_contains_le t)
    exact countP_pos_iff.mpr ⟨r,hr,hrt⟩
  -- the changes before and after this one have other keys
  obtain ⟨before,after,rfl⟩ := append_of_mem hc
  have hsorted := pairwise_append.mp h.sorted
  have hbefore := hother before fun c' hc' =>
    ⟨mem_append_left _ hc',(hsorted.2.2 c' hc' c mem_cons_self).ne⟩
  have hafter := hother after fun c' hc' =>
    ⟨mem_append_right _ (mem_cons_of_mem _ hc'),((pairwise_cons.mp hsorted.2.1).1 c' hc').ne'⟩
  rw [flatMap_append,flatMap_cons,countP_append,countP_append,hbefore,hself,hafter]

theorem ChangeSpec.countP_eq_zero {t : UInt32} (hnone : ∀ source target, ¬ R t source target) :
    (changes.flatMap TopologyOwnerChange.ranges).countP (fun r => r.contains t) = 0 := by
  rw [List.countP_eq_zero]
  intro r hr hrt
  obtain ⟨c,hc,hmem⟩ := List.mem_flatMap.mp hr
  obtain ⟨source,_,_,_,hcov⟩ := h.sound c hc
  exact hnone _ _ ((hcov t).mp ⟨r,hmem,hrt⟩)

theorem ChangeSpec.ranges_perm {tasks : List TopologyTask}
    (htasks : tasks.Perm ((changes.flatMap (appendTaskChunks batch.type batch.epoch)).map
      fun task => task.withId (buildTaskId hasher task))) :
    (tasks.flatMap TopologyTask.ranges).Perm (changes.flatMap TopologyOwnerChange.ranges) := by
  refine (htasks.flatMap_right _).trans ?_
  simp only [flatMap_map,ranges_withId,flatMap_assoc]
  apply List.Perm.flatMap_left
  intro c hc
  obtain ⟨source,hsource,_⟩ := h.sound c hc
  exact ranges_appendTaskChunks batch.type batch.epoch hsource

/-- The tasks derived from the changes of a relation are the tasks of the relation. -/
theorem ChangeSpec.taskSpec (hfun : ∀ t s g s' g', R t s g → R t s' g' → s = s' ∧ g = g') (hsha : hasher.Total) :
    ∃ expected, expectedFromChanges hasher batch changes = .ok expected ∧ TaskSpec batch R expected.tasks := by
  obtain ⟨expected,heq,htasks⟩ := expectedFromChanges_eq hsha batch changes
  have hperm := h.ranges_perm htasks
  refine ⟨expected,heq,?_,?_,?_⟩
  · intro t source target hR
    rw [hperm.countP_eq]
    exact h.countP_eq_one hfun hR
  · intro t hnone
    rw [hperm.countP_eq]
    exact h.countP_eq_zero hnone
  · intro task htask
    obtain ⟨raw,hraw,rfl⟩ := mem_map.mp (htasks.mem_iff.mp htask)
    obtain ⟨c,hc,hchunk⟩ := mem_flatMap.mp hraw
    obtain ⟨source,hsource,hne,hsep,hcov⟩ := h.sound c hc
    obtain ⟨t,ht⟩ := exists_covers hne hsep.nonempty
    have hranges := ranges_appendTaskChunks batch.type batch.epoch hsource
    refine ⟨source,c.target,?_,⟨t,(hcov t).mp ht⟩,?_⟩
    · simp only [appendTaskChunks,hsource] at hchunk
      obtain ⟨chunk,_,rfl⟩ := mem_map.mp hchunk
      exact names_makeTask batch source.address c.target.address _ chunk
    · rintro t ⟨r,hr,hrt⟩
      rw [ranges_withId] at hr
      exact (hcov t).mp ⟨r,hranges.mem_iff.mp (mem_flatMap.mpr ⟨raw,hchunk,hr⟩),hrt⟩

omit h

end Changes

theorem sortRanges_eq {ranges : List TokenRange} (h : Ascending ranges) : sortRanges ranges = ranges := by
  apply List.Pairwise.insertionSort_eq
  refine h.lt.imp_of_mem ?_
  intro a b ha _ hlt
  exact Or.inl ((h.nonempty a ha).trans_lt hlt)

theorem validateRanges_of_ascending {ranges : List TokenRange} (h : Ascending ranges)
    (previous : Option TokenRange) (hprev : ∀ p ∈ previous, ∀ r ∈ ranges, p.last < r.first) :
    validateRanges previous ranges = .ok () := by
  induction ranges generalizing previous with
  | nil => rfl
  | cons r ranges ih =>
    have hlt := pairwise_cons.mp h.lt
    have htail := ih ⟨fun x hx => h.nonempty x (mem_cons_of_mem _ hx),hlt.2⟩ (some r) (by
      rintro p hp x hx
      cases hp
      exact hlt.1 x hx)
    have hfirst : previous.all (fun p => p.last < r.first) = true := by
      cases previous with
      | none => rfl
      | some p => simpa using hprev p rfl r mem_cons_self
    simp [validateRanges,checkFailReturnStatus,h.nonempty r mem_cons_self,hfirst,htail,bind,Except.bind]

variable {snapshot : TopologySnapshot}

theorem findMemberByAddress_eq {m : Member} (hm : m ∈ snapshot.state.members) :
    snapshot.findMemberByAddress m.identity.address = .ok m := by
  simp [findMemberByAddress,snapshot.valid.wellFormed.find?_address hm]

theorem validateOwnerChange_of_admissible {type : TopologyChangeType} {change : TopologyOwnerChange} {m m' : Member}
    (hm : m ∈ snapshot.state.members) (hm' : m' ∈ snapshot.state.members) (hsource : change.source = some m.identity)
    (htarget : change.target = m'.identity) (hadm : Admissible type m.state m'.state) (hne : change.ranges ≠ [])
    (hsep : Separated change.ranges) : validateOwnerChange snapshot type change = .ok () := by
  have hranges := validateRanges_of_ascending hsep.ascending none (by simp)
  have hsort := sortRanges_eq hsep.ascending
  cases type <;>
    simp only [Admissible] at hadm <;>
    simp [validateOwnerChange,hsource,htarget,hne,findMemberByAddress_eq hm,
      findMemberByAddress_eq hm',hadm,hsort,hranges,checkFailReturnStatus,bind,Except.bind]

theorem BatchMoves.unique {state : TopologyState} {type : TopologyChangeType} (t : UInt32)
    (s g s' g' : MemberIdentity) (h : BatchMoves state type t s g)
    (h' : BatchMoves state type t s' g') : s = s' ∧ g = g' := by
  cases type with
  | scaleOut => exact Moves.unique h h'
  | scaleIn => exact Moves.unique h h'
  | failure => exact h.1.unique h'.1

variable {tokensPerMember : Nat}

/-- The tasks derived for the active batch are those of the changes that list the tokens the batch
moves. -/
theorem rebuildExpected_eq {b : ActiveBatch} (hb : snapshot.state.activeBatch = some b)
    (hplan : Plannable tokensPerMember snapshot.state b.type) (hasher : Hasher) :
    ∃ changes, ChangeSpec (BatchMoves snapshot.state b.type) changes ∧
      rebuildExpected hasher tokensPerMember snapshot = expectedFromChanges hasher b changes := by
  obtain ⟨changes,heq,hspec⟩ := rebuildPlan_spec hb hplan
  refine ⟨changes,hspec,?_⟩
  have hchecks : changes.forM (validateOwnerChange snapshot b.type) = .ok () := by
    apply Except.forM_eq_ok
    intro c hc
    obtain ⟨source,hsource,hne,hsep,hcov⟩ := hspec.sound c hc
    obtain ⟨t,ht⟩ := exists_covers hne hsep.nonempty
    obtain ⟨m,hm,m',hm',rfl,htarget,hadm⟩ := ((hcov t).mp ht).admissible snapshot.valid hb
    exact validateOwnerChange_of_admissible hm hm' hsource htarget.symm hadm hne hsep
  simp only [rebuildExpected,hb,heq,buildExpected,matchesSnapshot,hchecks,bind,Except.bind,checkFailReturnStatus]
  simp

/-- The tasks derived for the active batch are the tasks of the tokens it moves. -/
theorem rebuildExpected_spec {b : ActiveBatch} (hb : snapshot.state.activeBatch = some b)
    (hplan : Plannable tokensPerMember snapshot.state b.type) (hsha : hasher.Total) :
    ∃ expected, rebuildExpected hasher tokensPerMember snapshot = .ok expected ∧
      TaskSpec b (BatchMoves snapshot.state b.type) expected.tasks := by
  obtain ⟨changes,hspec,heq⟩ := rebuildExpected_eq hb hplan hasher
  rw [heq]
  exact hspec.taskSpec BatchMoves.unique hsha

theorem plannable_of_rebuildExpected {b : ActiveBatch} (hb : snapshot.state.activeBatch = some b)
    {expected : ExpectedDerivedState} (h : rebuildExpected hasher tokensPerMember snapshot = .ok expected) :
    Plannable tokensPerMember snapshot.state b.type := by
  simp only [rebuildExpected,hb,Except.bind_eq_ok] at h
  obtain ⟨plan,hplan,_⟩ := h
  exact plannable_of_rebuildPlan hb hplan

end Datasystem.Cluster
