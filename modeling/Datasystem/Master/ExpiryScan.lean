import Datasystem.Master.ExpiryTimers

/-!
# Scans and the other calls

Every call enters its sections with the objects that they need, so the timers are in order at every moment of
every run that respects the deletions under way.
-/

namespace Datasystem.Master

open List Protocol ExpiryInv

variable {shardIndex : Bytes → ShardIndex}

/-- The deletion of some objects is under way. -/
def Deleting (objectKeys : List Bytes) (_ : ExpiredObjectManager) (n : ExpiryNote) : Prop := ∀ k ∈ objectKeys, k ∈ n.ready

/-- It is not decided whether to try again with some objects. -/
def Undecided (objectKeys : List Bytes) (_ : ExpiredObjectManager) (n : ExpiryNote) : Prop := ∀ k ∈ objectKeys, k ∈ n.window

def Idle (_ : ExpiredObjectManager) (n : ExpiryNote) : Prop := n = {}

def Anything (_ : ExpiredObjectManager) (_ : ExpiryNote) : Prop := True

abbrev ExpiryTriple {α : Type} (shardIndex : Bytes → ShardIndex) (A : ExpiredObjectManager → ExpiryNote → Prop)
    (m : ExpiryAct α) (B : α → ExpiredObjectManager → ExpiryNote → Prop) : Prop :=
  (expiryProtocol shardIndex).Triple Anything A m B

section Sections

variable {A : ExpiredObjectManager → ExpiryNote → Prop} {p : ExpiryNote → Prop}

theorem expiryTriple_ask {o : ExpiryOp} {q : o.Res → ExpiryNote → Prop}
    (hserves : ∀ n, p n → o.Serves shardIndex n) (h : ∀ n r, p n → q r (expiryNote o r n)) :
    ExpiryTriple shardIndex (fun _ => p) (Act.ask o) fun r _ => q r := by
  refine Triple.ask (fun _ _ _ _ hp => hp) ?_
  intro s n others r s' hinv hp hguard hexec
  exact ⟨exec hinv hguard (hserves n hp) hexec,fun _ _ => trivial,h n r hp⟩

theorem expiryTriple_returnStatus (status : Status) :
    ExpiryTriple shardIndex Anything (returnStatus status) fun _ => Anything :=
  .ite (fun _ => .ret fun _ _ h => h) fun _ => .fail fun _ _ h => h

end Sections

section Groups

variable {α : Type} {key : α → Bytes} {entries : List α}

theorem mem_byShard {group : ShardIndex × List α} (h : group ∈ byShard shardIndex key entries) :
    group.2 = entries.filter fun e => shardIndex (key e) = group.1 := by
  simp only [byShard,mem_filter,mem_map] at h
  obtain ⟨⟨i,-,rfl⟩,-⟩ := h
  rfl

theorem shardIndex_mem_byShard {e : α} (he : e ∈ entries) :
    shardIndex (key e) ∈ (byShard shardIndex key entries).map Prod.fst := by
  refine mem_map.mpr ⟨(shardIndex (key e), entries.filter fun e' => shardIndex (key e') = shardIndex (key e)),?_,rfl⟩
  refine mem_filter.mpr ⟨mem_map.mpr ⟨_,mem_finRange _,rfl⟩,?_⟩
  simpa using ⟨e,he,rfl⟩

theorem nodup_byShard (shardIndex : Bytes → ShardIndex) (key : α → Bytes) (entries : List α) :
    ((byShard shardIndex key entries).map Prod.fst).Nodup := by
  have hsub : ((byShard shardIndex key entries).map Prod.fst).Sublist (List.finRange kExpiredShardCount) := by
    have hmap := (filter_sublist (p := fun group : ShardIndex × List α => !group.2.isEmpty)
      (l := (List.finRange kExpiredShardCount).map fun i => (i, entries.filter fun e => shardIndex (key e) = i))).map Prod.fst
    simpa [byShard,Function.comp_def] using hmap
  exact hsub.nodup (nodup_finRange _)

/-- What holds of the entries when the groups of some shards have been treated. -/
def Treated (shardIndex : Bytes → ShardIndex) (key : α → Bytes) (entries : List α) (before after : α → ExpiryNote → Prop)
    (done : List ShardIndex) (n : ExpiryNote) : Prop :=
  ∀ e ∈ entries, if shardIndex (key e) ∈ done then after e n else before e n

theorem expiryTriple_byShard {f : ShardIndex × List α → ExpiryAct Unit} (before after : α → ExpiryNote → Prop)
    (h : ∀ (i : ShardIndex) (done : List ShardIndex), i ∉ done →
      ExpiryTriple shardIndex (fun _ => Treated shardIndex key entries before after done)
        (f (i, entries.filter fun e => shardIndex (key e) = i)) fun _ _ =>
          Treated shardIndex key entries before after (done ++ [i])) :
    ExpiryTriple shardIndex (fun _ n => ∀ e ∈ entries, before e n) (Act.forEach f (byShard shardIndex key entries))
      fun _ _ n => ∀ e ∈ entries, after e n := by
  have hloop : ExpiryTriple shardIndex (fun _ => Treated shardIndex key entries before after [])
      (Act.forEach f (byShard shardIndex key entries)) fun _ _ =>
        Treated shardIndex key entries before after ((byShard shardIndex key entries).map Prod.fst) := by
    refine Triple.forEach
      (fun (done : List (ShardIndex × List α)) _ => Treated shardIndex key entries before after (done.map Prod.fst)) ?_
    intro done group rest hgroups
    have hmem : group ∈ byShard shardIndex key entries := by
      rw [← hgroups]
      simp
    have hnew : group.1 ∉ done.map Prod.fst := by
      have hnodup := nodup_byShard shardIndex key entries
      rw [← hgroups,map_append,map_cons] at hnodup
      exact fun hold => disjoint_of_nodup_append hnodup hold mem_cons_self
    have hstep := h group.1 (done.map Prod.fst) hnew
    rw [← mem_byShard hmem] at hstep
    rw [map_append,map_singleton]
    exact hstep
  refine hloop.mono ?_ ?_
  · intro _ n hbefore e he
    simpa using hbefore e he
  · intro _ _ n hafter e he
    have hdone := hafter e he
    rwa [if_pos (shardIndex_mem_byShard he)] at hdone

end Groups

theorem expiryTriple_cleanup (objectKeys : List Bytes) :
    ExpiryTriple shardIndex (Deleting objectKeys) (cleanupShardsAfterDelete shardIndex objectKeys) fun _ =>
      Undecided objectKeys := by
  refine expiryTriple_byShard (fun k n => k ∈ n.ready) (fun k n => k ∈ n.window) ?_
  intro i done hnew
  refine expiryTriple_ask (o := .cleanup i _) ?_ ?_
  · intro n hdone k hk
    obtain ⟨hmem,hshard⟩ := mem_filter.mp hk
    have hbefore := hdone k hmem
    rwa [if_neg (by rwa [of_decide_eq_true hshard])] at hbefore
  · intro n _ hdone k hk
    have hbefore := hdone k hk
    by_cases hshard : shardIndex k = i
    · simp [expiryNote,hshard,hk]
    · by_cases hold : shardIndex k ∈ done
      · simp [hold] at hbefore
        simp [expiryNote,hold,hbefore]
      · simp [hold] at hbefore
        simp [expiryNote,hold,hshard,hbefore]

theorem expiryTriple_addFailedObject {objects : List (Bytes × Nat)} (hnodup : (objects.map Prod.fst).Nodup)
    (currentUs : Nat) :
    ExpiryTriple shardIndex (Undecided (objects.map Prod.fst)) (addFailedObject shardIndex objects currentUs) fun _ =>
      Anything := by
  have hloop : ExpiryTriple shardIndex (fun _ n => ∀ e ∈ objects, e.1 ∈ n.window)
      (addFailedObject shardIndex objects currentUs) fun _ _ n => ∀ e ∈ objects, True := by
    refine expiryTriple_byShard (fun (e : Bytes × Nat) n => e.1 ∈ n.window) (fun _ _ => True) ?_
    intro i done hnew
    refine expiryTriple_ask (o := .addFailed i _ currentUs) ?_ ?_
    · intro n hdone
      refine ⟨fun e he => of_decide_eq_true (mem_filter.mp he).2,?_,?_⟩
      · intro e he
        obtain ⟨hmem,hshard⟩ := mem_filter.mp he
        have hbefore := hdone e hmem
        rwa [if_neg (by rwa [of_decide_eq_true hshard])] at hbefore
      · exact (filter_sublist.map Prod.fst).nodup hnodup
    · intro n _ hdone e he
      have hbefore := hdone e he
      by_cases hold : shardIndex e.1 ∈ done
      · simp [hold]
      · by_cases hshard : shardIndex e.1 = i
        · simp [hshard]
        · simp [hold] at hbefore
          simp [expiryNote,hold,hshard,hbefore]
  refine hloop.mono ?_ fun _ _ _ _ => trivial
  intro _ n hall e he
  exact hall e.1 (mem_map_of_mem he)

theorem expiryTriple_kept {f : ShardIndex × List Bytes → ExpiryAct Unit} {objectKeys : List Bytes}
    (h : ∀ i, ExpiryTriple shardIndex (fun _ => p) (f (i, objectKeys.filter fun k => shardIndex k = i)) fun _ _ => p) :
    ExpiryTriple shardIndex (fun _ => p) (Act.forEach f (byShard shardIndex id objectKeys)) fun _ _ => p := by
  refine Triple.forEach (fun _ _ => p) ?_
  intro done group rest hgroups
  have hmem : group ∈ byShard shardIndex id objectKeys := by
    rw [← hgroups]
    simp
  have hstep := h group.1
  rw [show (objectKeys.filter fun k => shardIndex k = group.1) = group.2 from (mem_byShard hmem).symm] at hstep
  exact hstep

variable {kept objectKeys : List Bytes}

theorem mem_sdiff_of_disjoint (h : kept.Disjoint objectKeys) {p : Bytes → Bool} {held : Finset Bytes}
    (hheld : ∀ k ∈ kept, k ∈ held) : ∀ k ∈ kept, k ∈ held \ (objectKeys.filter p).toFinset := by
  intro k hk
  refine Finset.mem_sdiff.mpr ⟨hheld k hk,fun hmem => ?_⟩
  exact h hk (mem_of_mem_filter (mem_toFinset.mp hmem))

theorem expiryTriple_addSucceed (hkept : kept.Disjoint objectKeys) :
    ExpiryTriple shardIndex (Undecided kept) (addSucceedObject shardIndex objectKeys) fun _ => Undecided kept := by
  refine expiryTriple_kept fun i => expiryTriple_ask (o := .addSucceed i _) (fun _ _ => trivial) ?_
  exact fun n _ hn => mem_sdiff_of_disjoint hkept hn

theorem expiryTriple_discard (hkept : kept.Disjoint objectKeys) :
    ExpiryTriple shardIndex (Deleting kept) (discardAsyncDeleteObjects shardIndex objectKeys) (fun _ => Deleting kept) ∧
      ExpiryTriple shardIndex (Undecided kept) (discardAsyncDeleteObjects shardIndex objectKeys) fun _ =>
        Undecided kept := by
  constructor
  · refine expiryTriple_kept fun i => expiryTriple_ask (o := .discard i _) (fun _ _ => trivial) ?_
    exact fun n _ hn => mem_sdiff_of_disjoint hkept hn
  · refine expiryTriple_kept fun i => expiryTriple_ask (o := .discard i _) (fun _ _ => trivial) ?_
    exact fun n _ hn => mem_sdiff_of_disjoint hkept hn

theorem mem_retryObjects {request : List (Bytes × Nat)} {outcome : DeleteOutcome} {e : Bytes × Nat}
    (he : e ∈ retryObjects request outcome) :
    e.1 ∈ outcome.failedIds ∧ getObjectVersionInRequest request e.1 = some e.2 ∧ outcome.shouldRetry e.1 = true := by
  obtain ⟨k,hk,hretry⟩ := mem_filterMap.mp he
  obtain ⟨expireTime,hversion,hite⟩ := Option.bind_eq_some_iff.mp hretry
  split_ifs at hite with hshould
  cases hite
  exact ⟨mem_dedup.mp hk,hversion,hshould⟩

theorem mem_request_of_version {request : List (Bytes × Nat)} {k : Bytes} {expireTime : Nat}
    (h : getObjectVersionInRequest request k = some expireTime) : k ∈ request.map Prod.fst := by
  obtain ⟨e,hlookup,-⟩ := Option.bind_eq_some_iff.mp h
  exact mem_map.mpr ⟨e,Keyed.mem_of_lookup Prod.fst hlookup,Keyed.lookup_key Prod.fst hlookup⟩

theorem nodup_retryObjects (request : List (Bytes × Nat)) (outcome : DeleteOutcome) :
    ((retryObjects request outcome).map Prod.fst).Nodup := by
  have hsub : ∀ l : List Bytes, ((l.filterMap fun key => (getObjectVersionInRequest request key).bind fun expireTime =>
      if outcome.shouldRetry key then some (key, expireTime) else none).map Prod.fst).Sublist l := by
    intro l
    induction l with
    | nil => exact List.Sublist.slnil
    | cons key l ih =>
      rw [filterMap_cons]
      split
      · exact ih.cons key
      · rename_i e hsome
        obtain ⟨expireTime,-,hite⟩ := Option.bind_eq_some_iff.mp hsome
        split_ifs at hite
        cases hite
        exact ih.cons_cons key
  exact (hsub _).nodup (nodup_dedup _)

theorem expiryTriple_asyncDelete (expiredObjMap : List (Bytes × Nat)) (outcome : DeleteOutcome) (currentUs : Nat) :
    ExpiryTriple shardIndex (Deleting (expiredObjMap.map Prod.fst)) (asyncDelete shardIndex expiredObjMap outcome currentUs)
      fun _ => Anything := by
  have hkept : ((expiredObjMap.filter fun e => outcome.shouldContinue e.1).map Prod.fst).Disjoint
      ((expiredObjMap.map Prod.fst).filter fun key => !outcome.shouldContinue key) := by
    intro k hk hdiscarded
    obtain ⟨e,he,rfl⟩ := mem_map.mp hk
    have hstop := (mem_filter.mp hdiscarded).2
    simp [(mem_filter.mp he).2] at hstop
  have hretry : ∀ request : List (Bytes × Nat), ∀ k ∈ (retryObjects request outcome).map Prod.fst,
      k ∈ request.map Prod.fst ∧ k ∉ succeedIds request outcome ∧ k ∉ discardedFailedObjects request outcome := by
    intro request k hk
    obtain ⟨e,he,rfl⟩ := mem_map.mp hk
    obtain ⟨hfailed,hversion,hshould⟩ := mem_retryObjects he
    exact ⟨mem_request_of_version hversion,by simp [succeedIds,hfailed],by simp [discardedFailedObjects,hversion,hshould]⟩
  refine .bind (B := fun _ => Deleting ((expiredObjMap.filter fun e => outcome.shouldContinue e.1).map Prod.fst)) ?_ fun _ =>
    .ite (fun _ => .ret fun _ _ _ => trivial) fun _ => ?_
  · refine (expiryTriple_discard hkept).1.mono ?_ fun _ _ _ h => h
    intro _ n hall k hk
    obtain ⟨e,he,rfl⟩ := mem_map.mp hk
    exact hall e.1 (mem_map_of_mem (mem_of_mem_filter he))
  · refine .bind ((expiryTriple_cleanup _).mono (fun _ _ h => h) ?_) fun _ =>
      .bind (expiryTriple_addSucceed ?_) fun _ => .bind (expiryTriple_discard ?_).2 fun _ =>
        expiryTriple_addFailedObject (nodup_retryObjects _ outcome) currentUs
    · intro _ _ n hall k hk
      exact hall k (hretry _ k hk).1
    · exact fun k hk hmem => (hretry _ k hk).2.1 hmem
    · exact fun k hk hmem => (hretry _ k hk).2.2 hmem

theorem mem_putAll {map entries : List (Bytes × Nat)} {e : Bytes × Nat} (h : e ∈ putAll map entries) :
    e ∈ map ∨ e ∈ entries := by
  induction entries generalizing map with
  | nil => exact Or.inl h
  | cons a entries ih =>
    rcases ih h with hmem | hmem
    · rcases Keyed.mem_upsert hmem with rfl | hmem
      · exact Or.inr mem_cons_self
      · exact Or.inl hmem
    · exact Or.inr (mem_cons_of_mem _ hmem)

theorem expiryTriple_bestShard (currentTime : Nat) (is : List ShardIndex) (best : Option ShardIndex) (bestTime : Nat) :
    ExpiryTriple shardIndex (fun _ => p) (bestShard currentTime is best bestTime) fun _ _ => p := by
  induction is generalizing best bestTime with
  | nil => exact .ret fun _ _ h => h
  | cons i is ih =>
    refine .bind (expiryTriple_ask (o := .headTime i) (fun _ _ => trivial) fun _ _ h => h) ?_
    intro headTime
    cases headTime with
    | none => exact ih best bestTime
    | some headTime => exact .ite (fun _ => ih _ _) fun _ => ih _ _

theorem expiryTriple_getExpiredObject (currentTime rounds : Nat) (expiredObject : List (Bytes × Nat)) :
    ExpiryTriple shardIndex (Deleting (expiredObject.map Prod.fst)) (getExpiredObject currentTime rounds expiredObject)
      fun expired => Deleting (expired.map Prod.fst) := by
  induction rounds generalizing expiredObject with
  | zero => exact .ret fun _ _ h => h
  | succ rounds ih =>
    refine .ite (fun _ => .ret fun _ _ h => h) fun _ => .bind (expiryTriple_bestShard currentTime _ none uint64Max) ?_
    intro best
    cases best with
    | none => exact .ret fun _ _ h => h
    | some i =>
      refine .bind (expiryTriple_ask (o := .popExpired i currentTime _)
        (q := fun popped n => ∀ k ∈ (putAll expiredObject popped).map Prod.fst, k ∈ n.ready) (fun _ _ => trivial) ?_)
        fun popped => ih _
      intro n popped hn k hk
      obtain ⟨e,he,rfl⟩ := mem_map.mp hk
      rcases mem_putAll he with he | he
      · exact Finset.mem_union_left _ (hn e.1 (mem_map_of_mem he))
      · exact Finset.mem_union_right _ (mem_toFinset.mpr (mem_map_of_mem he))

theorem expiryTriple_scan (currentTime rounds : Nat) (outcome : DeleteOutcome) (currentUs : Nat) :
    ExpiryTriple shardIndex Idle (scan shardIndex currentTime rounds outcome currentUs) fun _ => Anything := by
  refine .bind ((expiryTriple_getExpiredObject currentTime rounds []).mono ?_ fun _ _ _ h => h) fun expired =>
    .ite (fun _ => .ret fun _ _ _ => trivial) fun _ => expiryTriple_asyncDelete expired outcome currentUs
  simp [Deleting]

theorem expiryTriple_act (c : ExpiryCall) : ExpiryTriple shardIndex Idle (c.act shardIndex) fun _ => Anything := by
  have hend : ExpiryTriple shardIndex Anything (.ret 0 : ExpiryAct Nat) fun _ => Anything := .ret fun _ _ _ => trivial
  cases c with
  | insertObject k version ttlSecond acceptZero =>
    refine .bind (B := fun _ => Anything) (.ite (fun _ => .ret fun _ _ _ => trivial) fun _ => ?_) fun _ => hend
    refine .bind (expiryTriple_ask (o := .insertObject k version ttlSecond) ?_ fun _ _ _ => trivial)
      expiryTriple_returnStatus
    intro n hn
    simp [ExpiryOp.Serves,show n = {} from hn]
  | reloadExpireObjects objects =>
    refine .bind (B := fun _ => Anything) (.mono (.loop (A := Idle) ?_) (fun _ _ h => h) fun _ _ _ _ => trivial)
      fun _ => hend
    intro object
    refine expiryTriple_ask (o := .reloadObject object.1 object.2.1 object.2.2) ?_ fun _ _ h => h
    intro n hn
    simp [ExpiryOp.Serves,ExpiryNote.objects,show n = {} from hn]
  | removeObjectIfExist k =>
    refine .bind (.bind (expiryTriple_ask (o := .removeObjectIfExist k) ?_ fun _ _ _ => trivial)
      expiryTriple_returnStatus) fun _ => hend
    intro n hn
    simp [ExpiryOp.Serves,show n = {} from hn]
  | getObjectRemainTimeAndRemove k currentUs =>
    refine .bind (expiryTriple_ask (o := .getObjectRemainTimeAndRemove k currentUs) (q := fun _ _ => True)
      (fun _ _ => trivial) fun _ _ _ => trivial) ?_
    intro remain
    cases remain with
    | ok remain => exact .ret fun _ _ h => h
    | error e => exact .fail fun _ _ h => h
  | scan currentTime rounds outcome currentUs =>
    exact .bind (expiryTriple_scan currentTime rounds outcome currentUs) fun _ => hend

theorem flatMap_eq_of_nodup {ι α : Type} {f : ι → List α} {i : ι} {l : List ι} (hnodup : l.Nodup) (hi : i ∈ l)
    (h : ∀ j, j ≠ i → f j = []) : l.flatMap f = f i := by
  induction l with
  | nil => cases hi
  | cons a l ih =>
    obtain ⟨hnot,hl⟩ := nodup_cons.mp hnodup
    rw [flatMap_cons]
    by_cases ha : a = i
    · have hrest : l.flatMap f = [] := by
        refine flatMap_eq_nil_iff.mpr fun j hj => h j ?_
        rintro rfl
        exact hnot (ha ▸ hj)
      rw [hrest,ha,append_nil]
    · rw [h a ha,nil_append]
      exact ih hl ((mem_cons.mp hi).resolve_left (Ne.symm ha))

variable {m : ExpiredObjectManager} {ns : List ExpiryNote}

theorem ExpiryInv.pendingTimers_eq (h : ExpiryInv shardIndex m ns) (k : Bytes) :
    m.pendingTimers k = m.timersOf shardIndex k := by
  refine flatMap_eq_of_nodup (nodup_finRange _) (mem_finRange _) ?_
  intro i hi
  rw [filter_eq_nil_iff]
  intro t ht hkey
  exact hi ((h.home i t ht).symm.trans (congrArg shardIndex (of_decide_eq_true hkey)))

theorem ExpiryInv.timersInOrder (h : ExpiryInv shardIndex m ns) : TimersInOrder shardIndex m := by
  have hof : ∀ k, ∀ t ∈ m.pendingTimers k, Timed shardIndex m k (some t) := by
    intro k t ht
    obtain ⟨timer,htimed⟩ := (h.object k).timed
    rw [h.pendingTimers_eq,htimed.timers,Option.mem_toList] at ht
    obtain rfl := ht
    exact htimed
  refine ⟨?_,fun k t ht => (hof k t ht).index,fun k t ht => (hof k t ht).newest t rfl,h.fresh⟩
  intro k
  obtain ⟨timer,htimed⟩ := (h.object k).timed
  rw [h.pendingTimers_eq,htimed.timers]
  cases timer with
  | none => exact Nat.zero_le _
  | some t => exact le_rfl

/-- Any number of calls over the timers, which take turns in sections. -/
def expiryMachine (shardIndex : Bytes → ShardIndex) : Machine (ExpiryThreads ExpiryNote) (ThreadEvent ExpiryCall) :=
  Threads.machine (expiryConcurrency shardIndex) (ExpiryCall.prog shardIndex) {}

theorem ExpiryInv.init : ExpiryInv shardIndex {} [] := by
  refine ⟨by simp,by simp,by simp,?_,List.Pairwise.nil,by simp,rfl⟩
  intro k
  exact ⟨⟨none,rfl,rfl,by simp,by simp⟩,by simp,by simp⟩

theorem ExpiryInv.idle (h : ExpiryInv shardIndex m ns) : ExpiryInv shardIndex m ({} :: ns) := by
  have hempty : ∀ k, k ∉ ExpiryNote.objects {} := by simp [ExpiryNote.objects]
  refine ⟨h.home,h.ids,h.distinct,?_,pairwise_cons.mpr ⟨by simp [ExpiryNote.objects],h.apart⟩,
    forall_mem_cons.mpr ⟨by simp,h.inner⟩,h.fresh⟩
  intro k
  obtain ⟨htimed,hbusy,hready⟩ := h.object k
  exact ⟨htimed,forall_mem_cons.mpr ⟨fun hk => absurd hk (hempty k),hbusy⟩, forall_mem_cons.mpr ⟨by simp,hready⟩⟩

/-- In every run that respects the deletions under way, an object has at most one timer, which was made last and
for the TTL that it has. -/
theorem object_timers_in_order (shardIndex : Bytes → ShardIndex) {t : ExpiryThreads ExpiryNote}
    (h : (expiryMachine shardIndex).ReachableBy (expiryProtocol shardIndex).Guard t) :
    TimersInOrder shardIndex t.shared := by
  have hsound : (expiryProtocol shardIndex).Sound t := by
    refine sound_of_reachable init (fun _ _ hinv => idle hinv) ?_ h
    intro c s ns hinv
    refine (expiryTriple_act c).safe ?_ ?_ hinv rfl
    · exact fun _ _ _ _ hinv' _ => dropNote hinv'
    · exact fun _ _ _ hinv' _ => dropNote hinv'
  exact timersInOrder hsound.inv

/-- A hash by which all objects are in the first shard. -/
def firstShard (_ : Bytes) : ShardIndex := ⟨0,by decide⟩

/-- A TTL is set, set anew and removed. -/
theorem object_timers_in_order_after_removal : ∃ t, (expiryMachine firstShard).run (expiryMachine firstShard).init
        [.call (.insertObject [97] 10 1 false),.work 0,.call (.insertObject [97] 20 2 false),.work 1,
          .call (.removeObjectIfExist [97]),.work 2] = some t ∧ TimersInOrder firstShard t.shared := by
  have hinit : (expiryMachine firstShard).ReachableBy (expiryProtocol firstShard).Guard (expiryMachine firstShard).init :=
    .init
  have hset := reachable_work (reachable_call hinit (ExpiryCall.insertObject [97] 10 1 false)) 0 rfl
    (forall_mem_nil _) rfl
  have hrenewed := reachable_work (reachable_call hset (ExpiryCall.insertObject [97] 20 2 false)) 1 rfl
    (forall_mem_cons.mpr ⟨Finset.notMem_empty _,forall_mem_nil _⟩) rfl
  have hremoved := reachable_work (reachable_call hrenewed (ExpiryCall.removeObjectIfExist [97])) 2 rfl
    (forall_mem_cons.mpr ⟨Finset.notMem_empty _,forall_mem_cons.mpr ⟨Finset.notMem_empty _,forall_mem_nil _⟩⟩) rfl
  exact ⟨_,rfl,object_timers_in_order _ hremoved⟩

/-- An object with a TTL is reloaded and its TTL removed, and a scan hands it out. -/
theorem object_timers_not_in_order : ∃ t, (expiryMachine firstShard).run (expiryMachine firstShard).init
        ([.call (.insertObject [97] 10 1 false),.work 0,.call (.reloadExpireObjects [([97], 20, 2)]),.work 1,
          .call (.removeObjectIfExist [97]),.work 2,.call (.scan 3000000 1 {} 3000000)] ++
            List.replicate 65 (.work 3)) = some t ∧
      t.shared.history.current [97] = none ∧ t.shared.history.stale = [[97]] := by
  refine ⟨_,rfl,rfl,rfl⟩

end Datasystem.Master
