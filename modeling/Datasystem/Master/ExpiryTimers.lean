import Datasystem.Master.ExpiredObjectManager

/-!
# The timers of objects

An object has at most one timer, which was made last for it and for the TTL that it has, as long as objects
are reloaded only when they have neither a timer nor a deletion under way, and no TTL is set or removed between
the end of a deletion and the decision to try it again.
-/

namespace Datasystem.Master

open ExpiredObjectManager Function
open List hiding Disjoint
open Finset (mem_union_left mem_union mem_sdiff sdiff_subset sdiff_empty insert_union)

section Statement

variable (shardIndex : Bytes → ShardIndex)

def ExpiredObjectManager.pendingTimers (m : ExpiredObjectManager) (objectKey : Bytes) : List Timer :=
  (List.finRange kExpiredShardCount).flatMap fun i => (m.shards i).timedObj.filter fun t => t.objectKey = objectKey

/-- Every object has at most one timer, to which the index points and which was made last, and no object was
handed out for a TTL that it no longer had. -/
structure TimersInOrder (m : ExpiredObjectManager) : Prop where
  single : ∀ k, (m.pendingTimers k).length ≤ 1
  indexed : ∀ k, ∀ t ∈ m.pendingTimers k, (m.shards (shardIndex k)).obj2Timed.lookup k = some t.id
  newest : ∀ k, ∀ t ∈ m.pendingTimers k, m.history.newest k = some t.id
  fresh : m.history.stale = []

end Statement

/-- The objects that a call has handed out. -/
structure ExpiryNote where
  /-- Their deletion is under way. -/
  ready : Finset Bytes := ∅
  /-- It is over, but it is not decided whether to try again. -/
  window : Finset Bytes := ∅

def ExpiryNote.objects (n : ExpiryNote) : Finset Bytes := n.ready ∪ n.window

def expiryNote : (o : ExpiryOp) → o.Res → ExpiryNote → ExpiryNote
  | .popExpired _ _ _, (popped : List (Bytes × Nat)), n =>
    { n with ready := n.ready ∪ (popped.map Prod.fst).toFinset }
  | .cleanup _ objectKeys, _, n => ⟨n.ready \ objectKeys.toFinset,n.window ∪ objectKeys.toFinset⟩
  | .addSucceed _ objectKeys, _, n => { n with window := n.window \ objectKeys.toFinset }
  | .discard _ objectKeys, _, n => ⟨n.ready \ objectKeys.toFinset,n.window \ objectKeys.toFinset⟩
  | .addFailed _ objects _, _, n => { n with window := n.window \ (objects.map Prod.fst).toFinset }
  | _, _, n => n

section Protocol

variable (shardIndex : Bytes → ShardIndex)

def ExpiredObjectManager.timersOf (m : ExpiredObjectManager) (k : Bytes) : List Timer :=
  (m.shards (shardIndex k)).timedObj.filter fun t => t.objectKey = k

/-- What a section has to respect of the deletions under way. -/
def expiryGuard : ExpiryOp → ExpiredObjectManager → List ExpiryNote → Prop
  | .insertObject k _ _, _, others => ∀ n ∈ others, k ∉ n.window
  | .removeObjectIfExist k, _, others => ∀ n ∈ others, k ∉ n.window
  | .reloadObject k _ _, m, others => m.timersOf shardIndex k = [] ∧ ∀ n ∈ others, k ∉ n.objects
  | .discard _ objectKeys, _, others => ∀ k ∈ objectKeys, ∀ n ∈ others, k ∉ n.objects
  | _, _, _ => True

/-- The timer that an object has, if any. -/
structure Timed (m : ExpiredObjectManager) (k : Bytes) (timer : Option Timer) : Prop where
  timers : m.timersOf shardIndex k = timer.toList
  index : (m.shards (shardIndex k)).obj2Timed.lookup k = timer.map Timer.id
  newest : ∀ t ∈ timer, m.history.newest k = some t.id
  current : ∀ t ∈ timer, m.history.current k = some t.ttl

/-- What holds of one object, with the deletions under way. -/
structure ObjectInv (m : ExpiredObjectManager) (ns : List ExpiryNote) (k : Bytes) : Prop where
  timed : ∃ timer, Timed shardIndex m k timer
  busy : ∀ n ∈ ns, k ∈ n.objects → m.timersOf shardIndex k = [] ∧ m.history.current k = some (m.history.handed k)
  ready : ∀ n ∈ ns, k ∈ n.ready → k ∈ (m.shards (shardIndex k)).readyExpiredObjects

structure ExpiryInv (m : ExpiredObjectManager) (ns : List ExpiryNote) : Prop where
  home : ∀ i, ∀ t ∈ (m.shards i).timedObj, shardIndex t.objectKey = i
  ids : ∀ i, ∀ t ∈ (m.shards i).timedObj, t.id < m.nextId
  distinct : ∀ i, ∀ t ∈ (m.shards i).timedObj, ∀ t' ∈ (m.shards i).timedObj, t.id = t'.id → t = t'
  object : ∀ k, ObjectInv shardIndex m ns k
  apart : ns.Pairwise fun n n' => Disjoint n.objects n'.objects
  inner : ∀ n ∈ ns, Disjoint n.ready n.window
  fresh : m.history.stale = []

def expiryConcurrency : Concurrency ExpiryOp ExpiryOp.Res ExpiredObjectManager ExpiryNote :=
  ⟨ExpiredObjectManager.exec shardIndex,{},expiryNote⟩

theorem ExpiryInv.of_perm {m : ExpiredObjectManager} {ns ns' : List ExpiryNote} (hperm : ns.Perm ns')
    (h : ExpiryInv shardIndex m ns) : ExpiryInv shardIndex m ns' := by
  refine ⟨h.home,h.ids,h.distinct,?_,?_,fun n hn => h.inner n (hperm.mem_iff.mpr hn),h.fresh⟩
  · intro k
    obtain ⟨htimed,hbusy,hready⟩ := h.object k
    exact ⟨htimed,fun n hn => hbusy n (hperm.mem_iff.mpr hn),fun n hn => hready n (hperm.mem_iff.mpr hn)⟩
  · exact (hperm.pairwise_iff fun hmn => hmn.symm).mp h.apart

def expiryProtocol : Protocol (expiryConcurrency shardIndex) where
  guard o m _ others := expiryGuard shardIndex o m others
  inv := ExpiryInv shardIndex
  inv_perm hperm h := h.of_perm shardIndex hperm
  rely _ _ _ := True
  rely_refl _ _ := trivial
  rely_trans _ _ := trivial

end Protocol

theorem filter_orderedInsert_of_neg {α : Type} {r : α → α → Prop} [DecidableRel r] {p : α → Bool} {a : α}
    (ha : p a = false) (l : List α) : (l.orderedInsert r a).filter p = l.filter p := by
  induction l with
  | nil => simp [ha]
  | cons b l ih =>
    rw [orderedInsert_cons]
    split_ifs
    · simp [ha]
    · simp [filter_cons,ih]

theorem filter_orderedInsert_of_nil {α : Type} {r : α → α → Prop} [DecidableRel r] {p : α → Bool} {a : α}
    (ha : p a = true) {l : List α} (hl : l.filter p = []) : (l.orderedInsert r a).filter p = [a] := by
  induction l with
  | nil => simp [ha]
  | cons b l ih =>
    have hb : p b = false := by simpa using filter_eq_nil_iff.mp hl b mem_cons_self
    have hrest : l.filter p = [] := by simpa [hb] using hl
    rw [orderedInsert_cons]
    split_ifs
    · rw [filter_cons_of_pos ha,hl]
    · rw [filter_cons_of_neg (by simp [hb]),ih hrest]

section Objects

variable {shardIndex : Bytes → ShardIndex} {m m' : ExpiredObjectManager} {ns ns' : List ExpiryNote} {k : Bytes}

/-- A section that leaves the timer of an object alone. -/
structure SameObject (shardIndex : Bytes → ShardIndex) (m m' : ExpiredObjectManager) (k : Bytes) : Prop where
  timers : m'.timersOf shardIndex k = m.timersOf shardIndex k
  index : (m'.shards (shardIndex k)).obj2Timed.lookup k = (m.shards (shardIndex k)).obj2Timed.lookup k
  newest : m'.history.newest k = m.history.newest k
  current : m'.history.current k = m.history.current k
  handed : m'.history.handed k = m.history.handed k

theorem SameObject.timed (h : SameObject shardIndex m m' k) {timer : Option Timer} (ht : Timed shardIndex m k timer) :
    Timed shardIndex m' k timer :=
  ⟨h.timers.trans ht.timers,h.index.trans ht.index,fun t hm => h.newest.trans (ht.newest t hm),
    fun t hm => h.current.trans (ht.current t hm)⟩

structure NotedBefore (ns ns' : List ExpiryNote) (k : Bytes) : Prop where
  objects : ∀ n' ∈ ns', k ∈ n'.objects → ∃ n ∈ ns, k ∈ n.objects
  ready : ∀ n' ∈ ns', k ∈ n'.ready → ∃ n ∈ ns, k ∈ n.ready

theorem NotedBefore.refl (ns : List ExpiryNote) (k : Bytes) : NotedBefore ns ns k :=
  ⟨fun n hn hk => ⟨n,hn,hk⟩,fun n hn hk => ⟨n,hn,hk⟩⟩

theorem NotedBefore.replace {n n' : ExpiryNote} {others : List ExpiryNote} (hobjects : k ∈ n'.objects → k ∈ n.objects)
    (hready : k ∈ n'.ready → k ∈ n.ready) : NotedBefore (n :: others) (n' :: others) k := by
  constructor
  · intro a ha hk
    rcases mem_cons.mp ha with rfl | ha
    · exact ⟨n,mem_cons_self,hobjects hk⟩
    · exact ⟨a,mem_cons_of_mem _ ha,hk⟩
  · intro a ha hk
    rcases mem_cons.mp ha with rfl | ha
    · exact ⟨n,mem_cons_self,hready hk⟩
    · exact ⟨a,mem_cons_of_mem _ ha,hk⟩

theorem ObjectInv.same (ho : ObjectInv shardIndex m ns k) (h : SameObject shardIndex m m' k)
    (hnotes : NotedBefore ns ns' k)
    (hready : (∃ n ∈ ns', k ∈ n.ready) → k ∈ (m.shards (shardIndex k)).readyExpiredObjects →
      k ∈ (m'.shards (shardIndex k)).readyExpiredObjects) : ObjectInv shardIndex m' ns' k := by
  obtain ⟨hobjects,hbefore⟩ := hnotes
  obtain ⟨timer,htimed⟩ := ho.timed
  refine ⟨⟨timer,h.timed htimed⟩,?_,?_⟩
  · intro n' hn' hk
    obtain ⟨n,hn,hkn⟩ := hobjects n' hn' hk
    obtain ⟨htimers,hcurrent⟩ := ho.busy n hn hkn
    exact ⟨h.timers.trans htimers,by rw [h.current,h.handed,hcurrent]⟩
  · intro n' hn' hk
    obtain ⟨n,hn,hkn⟩ := hbefore n' hn' hk
    exact hready ⟨n',hn',hk⟩ (ho.ready n hn hkn)

theorem Timed.eq_none (h : m.timersOf shardIndex k = []) {timer : Option Timer} (ht : Timed shardIndex m k timer) :
    timer = none := by
  have htimers := ht.timers
  rw [h] at htimers
  cases timer with
  | none => rfl
  | some t => cases htimers

variable {i : ShardIndex}

theorem ObjectInv.of_shard (ho : ObjectInv shardIndex m ns k) {shard : ExpiredShard}
    (hshards : m'.shards = update m.shards i shard)
    (htimers : (shard.timedObj.filter fun t => t.objectKey = k) = (m.shards i).timedObj.filter fun t => t.objectKey = k)
    (hindex : shard.obj2Timed.lookup k = (m.shards i).obj2Timed.lookup k)
    (hready : (∃ n ∈ ns', k ∈ n.ready) → k ∈ (m.shards i).readyExpiredObjects → k ∈ shard.readyExpiredObjects)
    (hnewest : m'.history.newest k = m.history.newest k) (hcurrent : m'.history.current k = m.history.current k)
    (hhanded : m'.history.handed k = m.history.handed k) (hnotes : NotedBefore ns ns' k) :
    ObjectInv shardIndex m' ns' k := by
  by_cases hi : shardIndex k = i
  · subst hi
    have hshard : m'.shards (shardIndex k) = shard := by rw [hshards,update_self]
    refine ho.same ⟨?_,?_,hnewest,hcurrent,hhanded⟩ hnotes ?_
    · rw [timersOf,hshard]
      exact htimers
    · rw [hshard]
      exact hindex
    · rw [hshard]
      exact hready
  · have hshard : m'.shards (shardIndex k) = m.shards (shardIndex k) := by rw [hshards,update_of_ne hi]
    refine ho.same ⟨?_,?_,hnewest,hcurrent,hhanded⟩ hnotes ?_
    · rw [timersOf,hshard]
      rfl
    · rw [hshard]
    · rw [hshard]
      exact fun _ hready => hready

namespace ExpiryInv

section Calls

variable (h : ExpiryInv shardIndex m ns)

include h

theorem shardChange {shard : ExpiredShard}
    (hshards : m'.shards = update m.shards i shard) (hnext : m.nextId ≤ m'.nextId)
    (hhome : ∀ t ∈ shard.timedObj, shardIndex t.objectKey = i) (hids : ∀ t ∈ shard.timedObj, t.id < m'.nextId)
    (hdistinct : ∀ t ∈ shard.timedObj, ∀ t' ∈ shard.timedObj, t.id = t'.id → t = t')
    (hobject : ∀ k, ObjectInv shardIndex m' ns' k) (hapart : ns'.Pairwise fun n n' => Disjoint n.objects n'.objects)
    (hinner : ∀ n ∈ ns', Disjoint n.ready n.window) (hfresh : m'.history.stale = []) :
    ExpiryInv shardIndex m' ns' := by
  have hshard : ∀ j, m'.shards j = if j = i then shard else m.shards j := by
    intro j
    rw [hshards,update_apply]
  refine ⟨?_,?_,?_,hobject,hapart,hinner,hfresh⟩
  · intro j
    rw [hshard]
    split_ifs with hj
    · rw [hj]
      exact hhome
    · exact h.home j
  · intro j
    rw [hshard]
    split_ifs with hj
    · exact hids
    · intro t ht
      exact (h.ids j t ht).trans_le hnext
  · intro j
    rw [hshard]
    split_ifs with hj
    · exact hdistinct
    · exact h.distinct j

theorem addTimer {ttl expireTime : Nat} {failed : Finmap fun _ : Bytes => FailedObjectInfo}
    (hshards : m'.shards = update m.shards (shardIndex k)
      { (m.shards (shardIndex k)).addTimer ⟨m.nextId,expireTime,k,ttl⟩ with failedObjects := failed })
    (hnext : m'.nextId = m.nextId + 1)
    (hnewest : m'.history.newest = update m.history.newest k (some m.nextId))
    (hself : m'.history.current k = some ttl) (hcurrent : ∀ j, j ≠ k → m'.history.current j = m.history.current j)
    (hhanded : m'.history.handed = m.history.handed) (hstale : m'.history.stale = m.history.stale)
    (hnone : m.timersOf shardIndex k = []) (hnotes : ∀ j, j ≠ k → NotedBefore ns ns' j)
    (hk : ∀ n ∈ ns', k ∉ n.objects) (hapart : ns'.Pairwise fun n n' => Disjoint n.objects n'.objects)
    (hinner : ∀ n ∈ ns', Disjoint n.ready n.window) :
    ExpiryInv shardIndex m' ns' := by
  have hmem : ∀ t ∈ ((m.shards (shardIndex k)).addTimer ⟨m.nextId,expireTime,k,ttl⟩).timedObj,
      t = ⟨m.nextId,expireTime,k,ttl⟩ ∨ t ∈ (m.shards (shardIndex k)).timedObj :=
    fun t ht => (mem_orderedInsert _).mp ht
  have hold : ∀ t ∈ (m.shards (shardIndex k)).timedObj, t.id ≠ m.nextId := fun t ht => (h.ids _ t ht).ne
  refine h.shardChange hshards (by omega) ?_ ?_ ?_ ?_ hapart hinner (hstale.trans h.fresh)
  · intro t ht
    rcases hmem t ht with rfl | ht
    · rfl
    · exact h.home _ t ht
  · intro t ht
    rcases hmem t ht with rfl | ht
    · rw [hnext]
      exact Nat.lt_succ_self _
    · have hlt := h.ids _ t ht
      omega
  · intro t ht t' ht' heq
    rcases hmem t ht with rfl | ht
    · rcases hmem t' ht' with rfl | ht'
      · rfl
      · exact absurd heq.symm (hold t' ht')
    · rcases hmem t' ht' with rfl | ht'
      · exact absurd heq (hold t ht)
      · exact h.distinct _ t ht t' ht' heq
  · intro j
    by_cases hj : j = k
    · subst hj
      have hshard : m'.shards (shardIndex j) =
          { (m.shards (shardIndex j)).addTimer ⟨m.nextId,expireTime,j,ttl⟩ with failedObjects := failed } := by
        rw [hshards,update_self]
      refine ⟨⟨some ⟨m.nextId,expireTime,j,ttl⟩,?_,?_,?_,?_⟩,fun n hn hjn => absurd hjn (hk n hn),?_⟩
      · rw [timersOf,hshard]
        exact filter_orderedInsert_of_nil (by simp) hnone
      · rw [hshard]
        exact Finmap.lookup_insert _
      · intro t ht
        obtain rfl := Option.mem_some.mp ht
        rw [hnewest,update_self]
      · intro t ht
        obtain rfl := Option.mem_some.mp ht
        exact hself
      · intro n hn hjn
        exact absurd (mem_union_left _ hjn) (hk n hn)
    · refine (h.object j).of_shard hshards ?_ ?_ (fun _ hready => hready) ?_ (hcurrent j hj) (by rw [hhanded]) (hnotes j hj)
      · exact filter_orderedInsert_of_neg (by simpa using Ne.symm hj) _
      · exact Finmap.lookup_insert_of_ne _ hj
      · rw [hnewest,update_of_ne hj]

theorem removeObjectIfExistUnlock (hk : ∀ n ∈ ns, k ∉ n.objects) :
    ExpiryInv shardIndex (m.removeObjectIfExistUnlock shardIndex k) ns ∧
      (m.removeObjectIfExistUnlock shardIndex k).timersOf shardIndex k = [] := by
  obtain ⟨timer,htimed⟩ := (h.object k).timed
  have hshards : (m.removeObjectIfExistUnlock shardIndex k).shards =
      update m.shards (shardIndex k) ((m.shards (shardIndex k)).removeObjectIfExistUnlock k) := rfl
  have hself : (m.removeObjectIfExistUnlock shardIndex k).shards (shardIndex k) =
      (m.shards (shardIndex k)).removeObjectIfExistUnlock k := by rw [hshards,update_self]
  -- What is left of the shard: the other timers, and nothing in the index for the object.
  have hshard : (∀ t ∈ ((m.shards (shardIndex k)).removeObjectIfExistUnlock k).timedObj,
        t ∈ (m.shards (shardIndex k)).timedObj) ∧
      (∀ j, j ≠ k → (((m.shards (shardIndex k)).removeObjectIfExistUnlock k).timedObj.filter fun t => t.objectKey = j) =
        (m.shards (shardIndex k)).timedObj.filter fun t => t.objectKey = j) ∧
      (((m.shards (shardIndex k)).removeObjectIfExistUnlock k).timedObj.filter fun t => t.objectKey = k) = [] ∧
      (∀ j, ((m.shards (shardIndex k)).removeObjectIfExistUnlock k).obj2Timed.lookup j =
        if j = k then none else (m.shards (shardIndex k)).obj2Timed.lookup j) ∧
      ((m.shards (shardIndex k)).removeObjectIfExistUnlock k).readyExpiredObjects =
        (m.shards (shardIndex k)).readyExpiredObjects := by
    have htimers := htimed.timers
    have hindex := htimed.index
    unfold ExpiredShard.removeObjectIfExistUnlock
    cases timer with
    | none =>
      rw [hindex]
      refine ⟨fun t ht => ht,fun j _ => rfl,htimers,?_,rfl⟩
      intro j
      split_ifs with hj
      · rw [hj]
        exact hindex
      · rfl
    | some t =>
      have ht : t ∈ (m.shards (shardIndex k)).timedObj ∧ t.objectKey = k := by
        have hmem : t ∈ m.timersOf shardIndex k := by rw [htimers]; exact mem_singleton.mpr rfl
        simpa [timersOf] using hmem
      rw [hindex]
      dsimp only [Option.map_some]
      refine ⟨fun t' ht' => mem_of_mem_filter ht',?_,?_,?_,rfl⟩
      · intro j hj
        simp only [filter_filter]
        apply filter_congr
        intro t' ht'
        by_cases hid : t'.id = t.id
        · have hne : t'.objectKey ≠ j := by
            rw [h.distinct _ t' ht' t ht.1 hid,ht.2]
            exact Ne.symm hj
          simp [hne]
        · simp [hid]
      · simp only [filter_filter]
        rw [filter_eq_nil_iff]
        intro t' ht' hboth
        simp only [ne_eq,decide_not,Bool.and_eq_true,decide_eq_true_eq,Bool.not_eq_true',decide_eq_false_iff_not] at hboth
        have hmem : t' ∈ m.timersOf shardIndex k := by
          simpa [timersOf] using And.intro ht' hboth.1
        rw [htimers] at hmem
        exact hboth.2 (congrArg Timer.id (mem_singleton.mp hmem))
      · intro j
        split_ifs with hj
        · rw [hj]
          exact Finmap.lookup_erase _ _
        · exact Finmap.lookup_erase_ne hj
  obtain ⟨hmem,hfilter,hnone,hlookup,hready⟩ := hshard
  have htimers : (m.removeObjectIfExistUnlock shardIndex k).timersOf shardIndex k = [] := by
    rw [timersOf,hself]
    exact hnone
  refine ⟨?_,htimers⟩
  refine h.shardChange hshards le_rfl (fun t ht => h.home _ t (hmem t ht)) (fun t ht => h.ids _ t (hmem t ht))
    (fun t ht t' ht' => h.distinct _ t (hmem t ht) t' (hmem t' ht')) ?_ h.apart h.inner h.fresh
  intro j
  by_cases hj : j = k
  · subst hj
    refine ⟨⟨none,htimers,?_,by simp,by simp⟩,fun n hn hjn => absurd hjn (hk n hn),?_⟩
    · rw [hself,hlookup,if_pos rfl]
      rfl
    · intro n hn hjn
      exact absurd (mem_union_left _ hjn) (hk n hn)
  · refine (h.object j).of_shard hshards (hfilter j hj) ?_ ?_ rfl ?_ rfl (.refl ns j)
    · rw [hlookup,if_neg hj]
    · rw [hready]
      exact fun _ hmem => hmem
    · exact update_of_ne hj _ _

theorem insertObjectUnlock (hnone : m.timersOf shardIndex k = [])
    (hk : ∀ n ∈ ns, k ∉ n.objects) (version ttlSecond : Nat) :
    ExpiryInv shardIndex (m.insertObjectUnlock shardIndex k version ttlSecond) ns :=
  h.addTimer rfl rfl rfl (update_self _ _ _) (fun _ hj => update_of_ne hj _ _) rfl rfl hnone
    (fun j _ => .refl ns j) hk h.apart h.inner

theorem not_mem_objects (hfree : m.checkObjectInAsyncDelete shardIndex k = false)
    (hwindow : ∀ n ∈ ns, k ∉ n.window) : ∀ n ∈ ns, k ∉ n.objects := by
  intro n hn hk
  rcases mem_union.mp hk with hk | hk
  · have hready := (h.object k).ready n hn hk
    simp [checkObjectInAsyncDelete,hready] at hfree
  · exact hwindow n hn hk

theorem insertObject (hwindow : ∀ n ∈ ns, k ∉ n.window) (version ttlSecond : Nat) :
    ExpiryInv shardIndex (m.insertObject shardIndex k version ttlSecond).2 ns := by
  unfold ExpiredObjectManager.insertObject
  split_ifs with hbusy
  · exact h
  · have hk := h.not_mem_objects (by simpa using hbusy) hwindow
    obtain ⟨hremoved,hnone⟩ := h.removeObjectIfExistUnlock hk
    exact hremoved.insertObjectUnlock hnone hk version ttlSecond

theorem removeObjectIfExist (hwindow : ∀ n ∈ ns, k ∉ n.window) :
    ExpiryInv shardIndex (m.removeObjectIfExist shardIndex k).2 ns := by
  unfold ExpiredObjectManager.removeObjectIfExist
  split_ifs with hbusy
  · exact h
  · exact (h.removeObjectIfExistUnlock (h.not_mem_objects (by simpa using hbusy) hwindow)).1

theorem getObjectRemainTimeAndRemove (k : Bytes) (currentUs : Nat) :
    ExpiryInv shardIndex (m.getObjectRemainTimeAndRemove shardIndex k currentUs).2 ns := by
  unfold ExpiredObjectManager.getObjectRemainTimeAndRemove
  dsimp only
  split
  · exact h
  · -- An object with a timer is not being deleted.
    rename_i id hindex
    refine (h.removeObjectIfExistUnlock ?_).1
    intro n hn hk
    obtain ⟨timer,htimed⟩ := (h.object k).timed
    have hnone := Timed.eq_none ((h.object k).busy n hn hk).1 htimed
    have hlookup := htimed.index
    rw [hindex,hnone] at hlookup
    cases hlookup

end Calls

variable {others : List ExpiryNote}

theorem apart_replace {n n' : ExpiryNote} (h : ExpiryInv shardIndex m (n :: others)) (hsub : n'.objects ⊆ n.objects) :
    (n' :: others).Pairwise fun a b => Disjoint a.objects b.objects := by
  obtain ⟨hhead,htail⟩ := pairwise_cons.mp h.apart
  exact pairwise_cons.mpr ⟨fun b hb => Finset.disjoint_of_subset_left hsub (hhead b hb),htail⟩

theorem inner_replace {n n' : ExpiryNote} (h : ExpiryInv shardIndex m (n :: others))
    (hn' : Disjoint n'.ready n'.window) : ∀ a ∈ n' :: others, Disjoint a.ready a.window :=
  forall_mem_cons.mpr ⟨hn',fun a ha => h.inner a (mem_cons_of_mem _ ha)⟩

theorem not_mem_other {n : ExpiryNote} (h : ExpiryInv shardIndex m (n :: others)) (hk : k ∈ n.objects) :
    ∀ a ∈ others, k ∉ a.objects := by
  intro a ha hka
  exact Finset.disjoint_left.mp ((pairwise_cons.mp h.apart).1 a ha) hk hka

theorem endDeletion (h : ExpiryInv shardIndex m ns) {keys : Finset Bytes}
    {failed : Finmap fun _ : Bytes => FailedObjectInfo}
    (hshards : m'.shards = update m.shards i
      { m.shards i with readyExpiredObjects := (m.shards i).readyExpiredObjects \ keys, failedObjects := failed })
    (hnext : m'.nextId = m.nextId) (hhistory : m'.history = m.history) (hnotes : ∀ j, NotedBefore ns ns' j)
    (hkeys : ∀ j ∈ keys, ∀ n ∈ ns', j ∉ n.ready)
    (hapart : ns'.Pairwise fun n n' => Disjoint n.objects n'.objects) (hinner : ∀ n ∈ ns', Disjoint n.ready n.window) :
    ExpiryInv shardIndex m' ns' := by
  refine h.shardChange hshards hnext.ge (h.home i) ?_ (h.distinct i) ?_ hapart hinner (by rw [hhistory]; exact h.fresh)
  · rw [hnext]
    exact h.ids i
  · intro j
    refine (h.object j).of_shard hshards rfl rfl ?_ (by rw [hhistory]) (by rw [hhistory]) (by rw [hhistory]) (hnotes j)
    rintro ⟨n,hn,hj⟩ hready
    exact mem_sdiff.mpr ⟨hready,fun hmem => hkeys j hmem n hn hj⟩

theorem dropNote {n : ExpiryNote} (h : ExpiryInv shardIndex m (n :: others)) :
    ExpiryInv shardIndex m ({} :: others) := by
  refine ⟨h.home,h.ids,h.distinct,?_,h.apart_replace (by simp [ExpiryNote.objects]), h.inner_replace (by simp),h.fresh⟩
  intro j
  refine (h.object j).same ⟨rfl,rfl,rfl,rfl,rfl⟩ (.replace ?_ ?_) fun _ hready => hready
  · simp [ExpiryNote.objects]
  · simp

section Deletions

variable {n : ExpiryNote} {others : List ExpiryNote} {i : ShardIndex} (h : ExpiryInv shardIndex m (n :: others))

include h

theorem cleanup {objectKeys : List Bytes} (hkeys : ∀ k ∈ objectKeys, k ∈ n.ready) :
    ExpiryInv shardIndex (m.cleanup i objectKeys)
      (⟨n.ready \ objectKeys.toFinset,n.window ∪ objectKeys.toFinset⟩ :: others) := by
  have hsub : objectKeys.toFinset ⊆ n.ready := fun k hk => hkeys k (mem_toFinset.mp hk)
  have hobjects : ExpiryNote.objects ⟨n.ready \ objectKeys.toFinset,n.window ∪ objectKeys.toFinset⟩ ⊆ n.objects := by
    intro k hk
    simp only [ExpiryNote.objects,mem_union,mem_sdiff] at hk ⊢
    have hready := @hsub k
    tauto
  refine h.endDeletion rfl rfl rfl (fun j => .replace (@hobjects j) ?_) ?_ (h.apart_replace hobjects) (h.inner_replace ?_)
  · exact fun hj => (mem_sdiff.mp hj).1
  · intro j hj a ha hready
    rcases mem_cons.mp ha with rfl | ha
    · exact (mem_sdiff.mp hready).2 hj
    · exact h.not_mem_other (mem_union_left _ (hsub hj)) a ha (mem_union_left _ hready)
  · refine Finset.disjoint_union_right.mpr ⟨?_,Finset.sdiff_disjoint⟩
    exact Finset.disjoint_of_subset_left sdiff_subset (h.inner n mem_cons_self)

theorem addSucceed (objectKeys : List Bytes) :
    ExpiryInv shardIndex (m.addSucceed i objectKeys) ({ n with window := n.window \ objectKeys.toFinset } :: others) := by
  have hobjects : ({ n with window := n.window \ objectKeys.toFinset } : ExpiryNote).objects ⊆ n.objects :=
    Finset.union_subset_union_right sdiff_subset
  have hshards : (m.addSucceed i objectKeys).shards = update m.shards i { m.shards i with
        readyExpiredObjects := (m.shards i).readyExpiredObjects \ ∅
        failedObjects := objectKeys.foldl (fun failed key => failed.erase key) (m.shards i).failedObjects } := by
    rw [sdiff_empty]
    rfl
  refine h.endDeletion hshards rfl rfl (fun j => .replace (@hobjects j) id) (by simp) (h.apart_replace hobjects)
    (h.inner_replace ?_)
  exact Finset.disjoint_of_subset_right sdiff_subset (h.inner n mem_cons_self)

theorem discard {objectKeys : List Bytes} (hkeys : ∀ k ∈ objectKeys, ∀ a ∈ others, k ∉ a.objects) :
    ExpiryInv shardIndex (m.discard i objectKeys)
      (⟨n.ready \ objectKeys.toFinset,n.window \ objectKeys.toFinset⟩ :: others) := by
  have hobjects : ExpiryNote.objects ⟨n.ready \ objectKeys.toFinset,n.window \ objectKeys.toFinset⟩ ⊆ n.objects :=
    Finset.union_subset_union sdiff_subset sdiff_subset
  refine h.endDeletion rfl rfl rfl (fun j => .replace (@hobjects j) ?_) ?_ (h.apart_replace hobjects) (h.inner_replace ?_)
  · exact fun hj => (mem_sdiff.mp hj).1
  · intro j hj a ha hready
    rcases mem_cons.mp ha with rfl | ha
    · exact (mem_sdiff.mp hready).2 hj
    · exact hkeys j (mem_toFinset.mp hj) a ha (mem_union_left _ hready)
  · exact Finset.disjoint_of_subset_left sdiff_subset
      (Finset.disjoint_of_subset_right sdiff_subset (h.inner n mem_cons_self))

theorem addFailedObject {e : Bytes × Nat} (hi : shardIndex e.1 = i) (he : e.1 ∈ n.window) (currentUs : Nat) :
    ExpiryInv shardIndex (ExpiredObjectManager.addFailedObject i currentUs m e)
      ({ n with window := n.window \ {e.1} } :: others) := by
  subst hi
  have hmem : e.1 ∈ n.objects := Finset.mem_union_right _ he
  obtain ⟨hnone,hcurrent⟩ := (h.object e.1).busy n mem_cons_self hmem
  have hobjects : ({ n with window := n.window \ {e.1} } : ExpiryNote).objects ⊆ n.objects :=
    Finset.union_subset_union_right sdiff_subset
  have hinner := h.inner n mem_cons_self
  refine h.addTimer rfl rfl rfl hcurrent (fun _ _ => rfl) rfl rfl hnone (fun j _ => .replace (@hobjects j) id) ?_
    (h.apart_replace hobjects) (h.inner_replace (Finset.disjoint_of_subset_right sdiff_subset hinner))
  refine forall_mem_cons.mpr ⟨?_,h.not_mem_other hmem⟩
  have hready : e.1 ∉ n.ready := fun hready => Finset.disjoint_left.mp hinner hready he
  simp [ExpiryNote.objects,hready]

theorem addFailed {objects : List (Bytes × Nat)}
    (hi : ∀ e ∈ objects, shardIndex e.1 = i) (he : ∀ e ∈ objects, e.1 ∈ n.window) (hnodup : (objects.map Prod.fst).Nodup)
    (currentUs : Nat) :
    ExpiryInv shardIndex (m.addFailed i objects currentUs)
      ({ n with window := n.window \ (objects.map Prod.fst).toFinset } :: others) := by
  induction objects generalizing m n with
  | nil =>
    simp only [map_nil,toFinset_nil,sdiff_empty]
    exact h
  | cons e rest ih =>
    obtain ⟨hnot,hrest⟩ := nodup_cons.mp hnodup
    have hwindow : ∀ e' ∈ rest, e'.1 ∈ n.window \ {e.1} := by
      intro e' he'
      refine mem_sdiff.mpr ⟨he e' (mem_cons_of_mem _ he'),?_⟩
      intro heq
      exact hnot (Finset.mem_singleton.mp heq ▸ mem_map_of_mem he')
    have hnext := ih (h.addFailedObject (hi e mem_cons_self) (he e mem_cons_self) currentUs)
      (fun e' he' => hi e' (mem_cons_of_mem _ he')) hwindow hrest
    rw [map_cons,toFinset_cons,Finset.insert_eq,← Finset.sup_eq_union,← sdiff_sdiff]
    exact hnext

/-- The first timer of a shard is over: it is the timer of its object, made for the TTL that the object has. -/
theorem popTimer {timer : Timer} {rest : List Timer} (hhead : (m.shards i).timedObj = timer :: rest) :
    ExpiryInv shardIndex (m.popTimer i timer rest) ({ n with ready := insert timer.objectKey n.ready } :: others) := by
  have hmem : timer ∈ (m.shards i).timedObj := by rw [hhead]; exact mem_cons_self
  have htail : ∀ t ∈ rest, t ∈ (m.shards i).timedObj := by
    intro t ht
    rw [hhead]
    exact mem_cons_of_mem _ ht
  have hi : shardIndex timer.objectKey = i := h.home i timer hmem
  subst hi
  obtain ⟨timer',htimed⟩ := (h.object timer.objectKey).timed
  have htimers : m.timersOf shardIndex timer.objectKey =
      timer :: rest.filter fun t => t.objectKey = timer.objectKey := by
    rw [timersOf,hhead]
    simp
  have hsome : timer' = some timer ∧ (rest.filter fun t => t.objectKey = timer.objectKey) = [] := by
    have hboth := htimed.timers
    rw [htimers] at hboth
    cases timer' with
    | none => cases hboth
    | some t =>
      obtain ⟨rfl,hnil⟩ := List.cons.inj hboth
      exact ⟨rfl,hnil⟩
  obtain ⟨rfl,hrest⟩ := hsome
  have hcurrent : m.history.current timer.objectKey = some timer.ttl := htimed.current timer rfl
  -- An object with a timer is not being deleted.
  have hfree : ∀ a ∈ n :: others, timer.objectKey ∉ a.objects := by
    intro a ha hk
    have hnil := ((h.object timer.objectKey).busy a ha hk).1
    rw [htimers] at hnil
    cases hnil
  have hobjects : ({ n with ready := insert timer.objectKey n.ready } : ExpiryNote).objects =
      insert timer.objectKey n.objects := insert_union _ _ _
  refine h.shardChange rfl le_rfl (fun t ht => h.home _ t (htail t ht)) (fun t ht => h.ids _ t (htail t ht))
    (fun t ht t' ht' => h.distinct _ t (htail t ht) t' (htail t' ht')) ?_ ?_ (h.inner_replace ?_) ?_
  · intro j
    by_cases hj : j = timer.objectKey
    · subst hj
      have hself : (m.popTimer (shardIndex timer.objectKey) timer rest).shards (shardIndex timer.objectKey) =
          (m.shards (shardIndex timer.objectKey)).popTimer timer rest := update_self _ _ _
      have hnil : (m.popTimer (shardIndex timer.objectKey) timer rest).timersOf shardIndex timer.objectKey = [] := by
        rw [timersOf,hself]
        exact hrest
      refine ⟨⟨none,hnil,?_,by simp,by simp⟩,fun a _ _ => ⟨hnil,?_⟩,?_⟩
      · rw [hself]
        exact Finmap.lookup_erase _ _
      · have hhanded : (m.popTimer (shardIndex timer.objectKey) timer rest).history.handed timer.objectKey = timer.ttl := by
          simp [popTimer]
        rw [hhanded]
        exact hcurrent
      · rw [hself]
        exact fun _ _ _ => Finset.mem_insert_self _ _
    · refine (h.object j).of_shard rfl ?_ ?_ ?_ rfl rfl ?_ ?_
      · rw [hhead]
        simp [ExpiredShard.popTimer,Ne.symm hj]
      · exact Finmap.lookup_erase_ne hj
      · exact fun _ hready => Finset.mem_insert_of_mem hready
      · exact update_of_ne hj _ _
      · refine .replace ?_ ?_
        · rw [hobjects]
          exact fun hmem => Finset.mem_of_mem_insert_of_ne hmem hj
        · exact fun hmem => Finset.mem_of_mem_insert_of_ne hmem hj
  · obtain ⟨hapart,hothers⟩ := pairwise_cons.mp h.apart
    refine pairwise_cons.mpr ⟨?_,hothers⟩
    intro a ha
    rw [hobjects]
    exact Finset.disjoint_insert_left.mpr ⟨hfree a (mem_cons_of_mem _ ha),hapart a ha⟩
  · refine Finset.disjoint_insert_left.mpr ⟨?_,h.inner n mem_cons_self⟩
    exact fun hwindow => hfree n mem_cons_self (Finset.mem_union_right _ hwindow)
  · change (if m.history.current timer.objectKey = some timer.ttl then m.history.stale else _) = []
    rw [if_pos hcurrent]
    exact h.fresh

theorem popExpired (currentTime limit : Nat) : ExpiryInv shardIndex (popExpired i currentTime limit m).2
      ({ n with ready := n.ready ∪
          ((popExpired i currentTime limit m).1.map Prod.fst).toFinset } :: others) := by
  induction limit generalizing m n with
  | zero => simpa [popExpired] using h
  | succ limit ih =>
    unfold popExpired
    split
    · simpa using h
    · rename_i timer rest hhead
      split_ifs with hover
      · have hnext := ih (h.popTimer hhead)
        rw [map_cons,toFinset_cons,Finset.union_insert,← insert_union]
        exact hnext
      · simpa using h

omit h

end Deletions

end ExpiryInv

/-- What a call has to hold when it enters a section. -/
def ExpiryOp.Serves (shardIndex : Bytes → ShardIndex) : ExpiryOp → ExpiryNote → Prop
  | .insertObject k _ _, n => k ∉ n.window
  | .removeObjectIfExist k, n => k ∉ n.window
  | .reloadObject k _ _, n => k ∉ n.objects
  | .cleanup _ objectKeys, n => ∀ k ∈ objectKeys, k ∈ n.ready
  | .addFailed i objects _, n =>
    (∀ e ∈ objects, shardIndex e.1 = i) ∧ (∀ e ∈ objects, e.1 ∈ n.window) ∧ (objects.map Prod.fst).Nodup
  | _, _ => True

theorem ExpiryInv.exec {n : ExpiryNote} {others : List ExpiryNote} (h : ExpiryInv shardIndex m (n :: others)) {o : ExpiryOp}
    (hguard : expiryGuard shardIndex o m others) (hserves : o.Serves shardIndex n) {r : o.Res}
    (hexec : exec shardIndex o m = some (r, m')) :
    ExpiryInv shardIndex m' (expiryNote o r n :: others) := by
  cases o with
  | insertObject k version ttlSecond =>
    obtain ⟨rfl,rfl⟩ := Prod.mk.inj (Option.some.inj hexec)
    exact h.insertObject (forall_mem_cons.mpr ⟨hserves,hguard⟩) version ttlSecond
  | reloadObject k version ttlSecond =>
    cases hexec
    exact h.insertObjectUnlock hguard.1 (forall_mem_cons.mpr ⟨hserves,hguard.2⟩) version ttlSecond
  | removeObjectIfExist k =>
    obtain ⟨rfl,rfl⟩ := Prod.mk.inj (Option.some.inj hexec)
    exact h.removeObjectIfExist (forall_mem_cons.mpr ⟨hserves,hguard⟩)
  | getObjectRemainTimeAndRemove k currentUs =>
    obtain ⟨rfl,rfl⟩ := Prod.mk.inj (Option.some.inj hexec)
    exact h.getObjectRemainTimeAndRemove k currentUs
  | headTime i =>
    cases hexec
    exact h
  | popExpired i currentTime limit =>
    obtain ⟨rfl,rfl⟩ := Prod.mk.inj (Option.some.inj hexec)
    exact h.popExpired currentTime limit
  | cleanup i objectKeys =>
    cases hexec
    exact h.cleanup hserves
  | addSucceed i objectKeys =>
    cases hexec
    exact h.addSucceed objectKeys
  | discard i objectKeys =>
    cases hexec
    exact h.discard hguard
  | addFailed i objects currentUs =>
    cases hexec
    exact h.addFailed hserves.1 hserves.2.1 hserves.2.2 currentUs

end Objects

end Datasystem.Master
