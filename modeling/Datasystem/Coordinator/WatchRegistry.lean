import Datasystem.Coordinator.StoreLog

/-!
# Watch registry

The registry indexes live watches: exact-key watches by their key, range watches in groups of equal ranges.
-/

namespace Datasystem.Coordinator

open Keyed MemoryKvStore Option
open List hiding lookup

structure WatcherEntry where
  watchId : Int
  watcherAddr : Bytes
  registrationId : Bytes
  active : Bool
deriving DecidableEq, Repr

structure WatchRange where
  key : Bytes
  rangeEnd : Bytes
  watchIds : List Int
deriving DecidableEq, Repr

structure WatchRegistry where
  watchers : List WatcherEntry
  watchIdsByRegistrationId : List (Bytes × Int)
  watchScopesById : List (Int × Bytes × Bytes)
  exactWatchIdsByKey : List (Bytes × List Int)
  rangeWatches : List WatchRange
  nextWatchId : Int
deriving DecidableEq, Repr

namespace WatchRegistry

def empty : WatchRegistry := ⟨[],[],[],[],[],1⟩

variable (r : WatchRegistry)

def watcher (id : Int) : Option WatcherEntry := lookup WatcherEntry.watchId id r.watchers

def scopeOf (id : Int) : Option (Bytes × Bytes) := (lookup Prod.fst id r.watchScopesById).map Prod.snd

def exactIds (key : Bytes) : List Int := ((lookup Prod.fst key r.exactWatchIdsByKey).map Prod.snd).getD []

def insertRange (key rangeEnd : Bytes) (id : Int) : List WatchRange → List WatchRange
  | [] => [⟨key,rangeEnd,[id]⟩]
  | g :: gs =>
    if g.key = key ∧ g.rangeEnd = rangeEnd then { g with watchIds := g.watchIds.insert id } :: gs
    else g :: insertRange key rangeEnd id gs

def add (key rangeEnd watcherAddr registrationId : Bytes) : WatchRegistry where
  watchers := upsert WatcherEntry.watchId ⟨r.nextWatchId,watcherAddr,registrationId,true⟩ r.watchers
  watchIdsByRegistrationId :=
    if registrationId.isEmpty then r.watchIdsByRegistrationId
    else upsert Prod.fst (registrationId, r.nextWatchId) r.watchIdsByRegistrationId
  watchScopesById := upsert Prod.fst (r.nextWatchId, key, rangeEnd) r.watchScopesById
  exactWatchIdsByKey :=
    if rangeEnd.isEmpty then
      upsert Prod.fst (key, (r.exactIds key).insert r.nextWatchId) r.exactWatchIdsByKey
    else r.exactWatchIdsByKey
  rangeWatches :=
    if rangeEnd.isEmpty then r.rangeWatches
    else insertRange key rangeEnd r.nextWatchId r.rangeWatches
  nextWatchId := r.nextWatchId + 1

structure Registered where
  registry : WatchRegistry
  watchId : Int
  created : Bool

/-- Register a watch. A known registration id gives back its watch when address and scope agree. -/
def register (key rangeEnd watcherAddr registrationId : Bytes) : Except Status Registered :=
  let known :=
    if registrationId.isEmpty then none
    else lookup Prod.fst registrationId r.watchIdsByRegistrationId
  match known with
  | some (_, watchId) =>
    if (r.watcher watchId).map WatcherEntry.watcherAddr ≠ some watcherAddr then
      .error ⟨.invalid,"watch registration ID belongs to another watcher"⟩
    else if r.scopeOf watchId ≠ some (key, rangeEnd) then
      .error ⟨.invalid,"watch registration ID belongs to another key range"⟩
    else .ok ⟨r,watchId,false⟩
  | none => .ok ⟨r.add key rangeEnd watcherAddr registrationId,r.nextWatchId,true⟩

/-- Take a watch out of the index its scope puts it in. -/
def dropIndexes (id : Int) : WatchRegistry :=
  match r.scopeOf id with
  | some (key, []) =>
    match lookup Prod.fst key r.exactWatchIdsByKey with
    | some (_, ids) =>
      { r with
        exactWatchIdsByKey :=
          if (ids.erase id).isEmpty then remove Prod.fst key r.exactWatchIdsByKey
          else upsert Prod.fst (key, ids.erase id) r.exactWatchIdsByKey }
    | none => r
  | _ =>
    { r with
      rangeWatches :=
        (r.rangeWatches.map fun g => { g with watchIds := g.watchIds.erase id }).filter
          fun g => !g.watchIds.isEmpty }

def cancel (id : Int) (watcherAddr : Bytes) : Status × WatchRegistry :=
  match r.watcher id with
  | none => (⟨.notFound,"watch not found"⟩, r)
  | some w =>
    if ¬ watcherAddr.isEmpty ∧ w.watcherAddr ≠ watcherAddr then
      (⟨.invalid,"watcher address does not match watch ID"⟩, r)
    else
      let dropped := r.dropIndexes id
      (.success,
        { dropped with
          watchIdsByRegistrationId :=
            if w.registrationId.isEmpty then dropped.watchIdsByRegistrationId
            else remove Prod.fst w.registrationId dropped.watchIdsByRegistrationId
          watchScopesById := remove Prod.fst id dropped.watchScopesById
          watchers := remove WatcherEntry.watchId id dropped.watchers })

def activeWatcher (id : Int) : Option WatcherEntry := (r.watcher id).filter WatcherEntry.active

def isKeyInRange (key : Bytes) (g : WatchRange) : Bool := decide (g.key ≤ key ∧ key < g.rangeEnd)

def matchWatchers (key : Bytes) : List WatcherEntry :=
  (r.exactIds key).filterMap r.activeWatcher ++
    (r.rangeWatches.filter (isKeyInRange key)).flatMap fun g => g.watchIds.filterMap r.activeWatcher

structure WellFormed (r : WatchRegistry) : Prop where
  watcher_lt : ∀ id w, r.watcher id = some w → id < r.nextWatchId ∧ w.active = true
  scope_iff : ∀ id, (r.scopeOf id).isSome ↔ (r.watcher id).isSome
  exact_nodup : ∀ key, (r.exactIds key).Nodup
  exact_iff : ∀ key id, id ∈ r.exactIds key ↔ r.scopeOf id = some (key, [])
  group_nodup : ∀ g ∈ r.rangeWatches, g.watchIds.Nodup
  group_range : ∀ g ∈ r.rangeWatches, g.rangeEnd ≠ []
  group_scope : ∀ g ∈ r.rangeWatches, ∀ id ∈ g.watchIds, r.scopeOf id = some (g.key, g.rangeEnd)
  group_complete : ∀ id key rangeEnd, rangeEnd ≠ [] → r.scopeOf id = some (key, rangeEnd) →
    ∃ g ∈ r.rangeWatches, id ∈ g.watchIds
  groups_distinct : r.rangeWatches.Pairwise fun g g' =>
    ¬ (g.key = g'.key ∧ g.rangeEnd = g'.rangeEnd)

theorem empty_wellFormed : empty.WellFormed := by
  constructor <;> simp [empty,watcher,scopeOf,exactIds]

variable {r}

theorem watcher_key {id : Int} {w : WatcherEntry} (h : r.watcher id = some w) : w.watchId = id :=
  lookup_key WatcherEntry.watchId h

theorem WellFormed.activeWatcher_eq (h : r.WellFormed) (id : Int) : r.activeWatcher id = r.watcher id := by
  unfold activeWatcher
  cases hw : r.watcher id with
  | none => rfl
  | some w => simp [(h.watcher_lt id w hw).2]

theorem WellFormed.map_activeWatcher (h : r.WellFormed) {ids : List Int} (hids : ∀ id ∈ ids, (r.scopeOf id).isSome) :
    (ids.filterMap r.activeWatcher).map WatcherEntry.watchId = ids := by
  induction ids with
  | nil => rfl
  | cons id ids ih =>
    have hlive := (h.scope_iff id).mp (hids id mem_cons_self)
    obtain ⟨w,hw⟩ := isSome_iff_exists.mp hlive
    have hrest := ih fun x hx => hids x (mem_cons_of_mem _ hx)
    have hactive : r.activeWatcher id = some w := by
      rw [h.activeWatcher_eq id]
      exact hw
    rw [filterMap_cons,hactive]
    simp [hrest,watcher_key hw]

def matchedIds (r : WatchRegistry) (key : Bytes) : List Int := (r.matchWatchers key).map WatcherEntry.watchId

theorem WellFormed.matchedIds_eq (h : r.WellFormed) (key : Bytes) : r.matchedIds key =
      r.exactIds key ++ (r.rangeWatches.filter (isKeyInRange key)).flatMap WatchRange.watchIds := by
  rw [matchedIds,matchWatchers,map_append,map_flatMap]
  congr 1
  · refine h.map_activeWatcher ?_
    intro id hid
    rw [(h.exact_iff key id).mp hid]
    rfl
  · have hgroup : ∀ g ∈ r.rangeWatches.filter (isKeyInRange key),
        (g.watchIds.filterMap r.activeWatcher).map WatcherEntry.watchId = g.watchIds := by
      intro g hg
      refine h.map_activeWatcher ?_
      intro id hid
      rw [h.group_scope g (mem_filter.mp hg).1 id hid]
      rfl
    exact flatMap_congr hgroup

/-- Matching a key finds exactly the live watches whose scope contains the key. -/
theorem WellFormed.mem_matchedIds (h : r.WellFormed) (key : Bytes) (id : Int) : id ∈ r.matchedIds key ↔
      ∃ scope, r.scopeOf id = some scope ∧ inScope scope.1 scope.2 key := by
  rw [h.matchedIds_eq,mem_append,h.exact_iff,mem_flatMap]
  constructor
  · rintro (hexact | ⟨g,hg,hid⟩)
    · exact ⟨(key, []),hexact,by simp [inScope]⟩
    · obtain ⟨hg,hin⟩ := mem_filter.mp hg
      refine ⟨(g.key, g.rangeEnd),h.group_scope g hg id hid,?_⟩
      have hne := h.group_range g hg
      simpa [inScope,hne,isKeyInRange] using hin
  · rintro ⟨⟨k,rangeEnd⟩,hscope,hin⟩
    cases rangeEnd with
    | nil =>
      have : key = k := by simpa [inScope] using hin
      exact Or.inl (this ▸ hscope)
    | cons b bs =>
      obtain ⟨g,hg,hid⟩ := h.group_complete id k (b :: bs) (by simp) hscope
      have hscope' := h.group_scope g hg id hid
      rw [hscope,some.injEq,Prod.mk.injEq] at hscope'
      refine Or.inr ⟨g,mem_filter.mpr ⟨hg,?_⟩,hid⟩
      simpa [inScope,isKeyInRange,← hscope'.1,← hscope'.2] using hin

theorem WellFormed.matchedIds_nodup (h : r.WellFormed) (key : Bytes) : (r.matchedIds key).Nodup := by
  rw [h.matchedIds_eq]
  refine nodup_append.mpr ⟨h.exact_nodup key,?_,?_⟩
  · refine nodup_flatMap.mpr ⟨fun g hg => h.group_nodup g (mem_filter.mp hg).1,?_⟩
    refine (h.groups_distinct.filter _).imp_of_mem ?_
    intro g g' hg hg' hne
    rw [Function.onFun,disjoint_left]
    intro id hid hid'
    have hscope := h.group_scope g (mem_filter.mp hg).1 id hid
    rw [h.group_scope g' (mem_filter.mp hg').1 id hid',some.injEq,Prod.mk.injEq] at hscope
    exact hne ⟨hscope.1.symm,hscope.2.symm⟩
  · intro a ha b hb hab
    subst hab
    obtain ⟨g,hg,hid⟩ := mem_flatMap.mp hb
    have hg := (mem_filter.mp hg).1
    have hscope := h.group_scope g hg a hid
    rw [(h.exact_iff key a).mp ha,some.injEq,Prod.mk.injEq] at hscope
    exact h.group_range g hg hscope.2.symm

variable {g : WatchRange}

theorem mem_insertRange {key rangeEnd : Bytes} {id : Int} {gs : List WatchRange}
    (hg : g ∈ insertRange key rangeEnd id gs) :
    g ∈ gs ∨ (g.key = key ∧ g.rangeEnd = rangeEnd ∧
      (g.watchIds = [id] ∨ ∃ old ∈ gs, old.key = key ∧ old.rangeEnd = rangeEnd ∧
        g.watchIds = old.watchIds.insert id)) := by
  induction gs with
  | nil =>
    obtain rfl := mem_singleton.mp hg
    exact Or.inr ⟨rfl,rfl,Or.inl rfl⟩
  | cons a gs ih =>
    simp only [insertRange] at hg
    split at hg
    · rename_i hsame
      rcases mem_cons.mp hg with rfl | hg
      · exact Or.inr ⟨hsame.1,hsame.2,Or.inr ⟨a,mem_cons_self,hsame.1,hsame.2,rfl⟩⟩
      · exact Or.inl (mem_cons_of_mem _ hg)
    · rcases mem_cons.mp hg with rfl | hg
      · exact Or.inl mem_cons_self
      · rcases ih hg with hg | ⟨hk,he,hids | ⟨old,hold,hids⟩⟩
        · exact Or.inl (mem_cons_of_mem _ hg)
        · exact Or.inr ⟨hk,he,Or.inl hids⟩
        · exact Or.inr ⟨hk,he,Or.inr ⟨old,mem_cons_of_mem _ hold,hids⟩⟩

/-- The new id joins a group, and no group loses an id. -/
theorem insertRange_complete (key rangeEnd : Bytes) (id : Int) (gs : List WatchRange) :
    (∃ g ∈ insertRange key rangeEnd id gs, id ∈ g.watchIds) ∧
      ∀ old ∈ gs, ∃ g ∈ insertRange key rangeEnd id gs, ∀ x ∈ old.watchIds, x ∈ g.watchIds := by
  induction gs with
  | nil => exact ⟨⟨_,mem_singleton.mpr rfl,mem_singleton.mpr rfl⟩,by simp⟩
  | cons a gs ih =>
    simp only [insertRange]
    split
    · refine ⟨⟨_,mem_cons_self,mem_insert_self⟩,?_⟩
      intro old hold
      rcases mem_cons.mp hold with rfl | hold
      · exact ⟨_,mem_cons_self,fun x hx => mem_insert_of_mem hx⟩
      · exact ⟨old,mem_cons_of_mem _ hold,fun x hx => hx⟩
    · obtain ⟨⟨g,hg,hid⟩,hkeep⟩ := ih
      refine ⟨⟨g,mem_cons_of_mem _ hg,hid⟩,?_⟩
      intro old hold
      rcases mem_cons.mp hold with rfl | hold
      · exact ⟨old,mem_cons_self,fun x hx => hx⟩
      · obtain ⟨g',hg',hsub⟩ := hkeep old hold
        exact ⟨g',mem_cons_of_mem _ hg',hsub⟩

theorem insertRange_distinct (key rangeEnd : Bytes) (id : Int) {gs : List WatchRange}
    (h : gs.Pairwise fun g g' => ¬ (g.key = g'.key ∧ g.rangeEnd = g'.rangeEnd)) :
    (insertRange key rangeEnd id gs).Pairwise fun g g' =>
      ¬ (g.key = g'.key ∧ g.rangeEnd = g'.rangeEnd) := by
  induction gs with
  | nil => exact pairwise_singleton _ _
  | cons a gs ih =>
    obtain ⟨ha,hgs⟩ := pairwise_cons.mp h
    simp only [insertRange]
    split
    · exact pairwise_cons.mpr ⟨ha,hgs⟩
    · rename_i hne
      refine pairwise_cons.mpr ⟨?_,ih hgs⟩
      intro g hg
      rcases mem_insertRange hg with hg | ⟨hk,he,_⟩
      · exact ha g hg
      · rw [hk,he]
        exact hne

section Add

variable (r) (key rangeEnd watcherAddr registrationId : Bytes)

theorem watcher_add (id : Int) : (r.add key rangeEnd watcherAddr registrationId).watcher id =
      if id = r.nextWatchId then some ⟨r.nextWatchId,watcherAddr,registrationId,true⟩
      else r.watcher id :=
  lookup_upsert _ _ _

theorem scopeOf_add (id : Int) : (r.add key rangeEnd watcherAddr registrationId).scopeOf id =
      if id = r.nextWatchId then some (key, rangeEnd) else r.scopeOf id := by
  unfold scopeOf
  show (lookup Prod.fst id (upsert Prod.fst (r.nextWatchId, key, rangeEnd) r.watchScopesById)).map Prod.snd = _
  rw [lookup_upsert]
  split_ifs <;> rfl

theorem exactIds_add (k : Bytes) : (r.add key rangeEnd watcherAddr registrationId).exactIds k =
      if rangeEnd = [] ∧ k = key then (r.exactIds key).insert r.nextWatchId else r.exactIds k := by
  cases rangeEnd with
  | nil =>
    show ((lookup Prod.fst k (upsert Prod.fst (key, (r.exactIds key).insert r.nextWatchId)
      r.exactWatchIdsByKey)).map Prod.snd).getD [] = _
    rw [lookup_upsert]
    by_cases hk : k = key <;> simp [hk,exactIds]
  | cons b bs => simp [add,exactIds]

end Add

theorem WellFormed.scopeOf_next (h : r.WellFormed) : r.scopeOf r.nextWatchId = none := by
  have hnone : r.watcher r.nextWatchId = none := by
    cases hw : r.watcher r.nextWatchId with
    | none => rfl
    | some w => exact absurd (h.watcher_lt _ w hw).1 (Int.lt_irrefl _)
  have hiff := h.scope_iff r.nextWatchId
  rw [hnone] at hiff
  simpa using hiff

theorem WellFormed.add (h : r.WellFormed) (key rangeEnd watcherAddr registrationId : Bytes) :
    (r.add key rangeEnd watcherAddr registrationId).WellFormed := by
  have hfresh := h.scopeOf_next
  have hold : ∀ id scope, r.scopeOf id = some scope →
      (r.add key rangeEnd watcherAddr registrationId).scopeOf id = some scope := by
    intro id scope hs
    rw [scopeOf_add,if_neg,hs]
    intro heq
    rw [heq,hfresh] at hs
    cases hs
  have hnew : (r.add key rangeEnd watcherAddr registrationId).scopeOf r.nextWatchId = some (key, rangeEnd) := by
    rw [scopeOf_add,if_pos rfl]
  have hgroup : ∀ g ∈ (r.add key rangeEnd watcherAddr registrationId).rangeWatches,
      g ∈ r.rangeWatches ∨ (rangeEnd ≠ [] ∧ g.key = key ∧ g.rangeEnd = rangeEnd ∧
        (g.watchIds = [r.nextWatchId] ∨ ∃ old ∈ r.rangeWatches, old.key = key ∧
          old.rangeEnd = rangeEnd ∧ g.watchIds = old.watchIds.insert r.nextWatchId)) := by
    intro g hg
    cases rangeEnd with
    | nil => exact Or.inl (by simpa [WatchRegistry.add] using hg)
    | cons b bs =>
      have hg' : g ∈ insertRange key (b :: bs) r.nextWatchId r.rangeWatches := by
        simpa [WatchRegistry.add] using hg
      rcases mem_insertRange hg' with hg' | hg'
      · exact Or.inl hg'
      · exact Or.inr ⟨by simp,hg'⟩
  constructor
  · intro id w hw
    rw [watcher_add] at hw
    show id < r.nextWatchId + 1 ∧ _
    by_cases hid : id = r.nextWatchId
    · rw [if_pos hid,some.injEq] at hw
      exact ⟨by omega,by rw [← hw]⟩
    · rw [if_neg hid] at hw
      obtain ⟨hlt,hactive⟩ := h.watcher_lt id w hw
      exact ⟨by omega,hactive⟩
  · intro id
    rw [scopeOf_add,watcher_add]
    split_ifs
    · exact ⟨fun _ => rfl,fun _ => rfl⟩
    · exact h.scope_iff id
  · intro k
    rw [exactIds_add]
    split_ifs
    · exact (h.exact_nodup key).insert
    · exact h.exact_nodup k
  · intro k id
    rw [exactIds_add,scopeOf_add]
    by_cases hid : id = r.nextWatchId
    · subst hid
      have hnot : ∀ k, r.nextWatchId ∉ r.exactIds k := by
        intro k hmem
        rw [h.exact_iff,hfresh] at hmem
        cases hmem
      rw [if_pos rfl]
      by_cases hk : rangeEnd = [] ∧ k = key
      · rw [if_pos hk,hk.1,hk.2]
        exact ⟨fun _ => rfl,fun _ => mem_insert_self⟩
      · rw [if_neg hk]
        refine ⟨fun hmem => absurd hmem (hnot k),?_⟩
        intro heq
        rw [some.injEq,Prod.mk.injEq] at heq
        exact absurd ⟨heq.2,heq.1.symm⟩ hk
    · rw [if_neg hid,← h.exact_iff k id]
      split_ifs with hk
      · rw [mem_insert_iff,hk.2]
        exact or_iff_right hid
      · rfl
  · intro g hg
    rcases hgroup g hg with hg | ⟨_,_,_,hids | ⟨old,hmem,_,_,hids⟩⟩
    · exact h.group_nodup g hg
    · rw [hids]
      exact nodup_singleton _
    · rw [hids]
      exact (h.group_nodup old hmem).insert
  · intro g hg
    rcases hgroup g hg with hg | ⟨hne,_,he,_⟩
    · exact h.group_range g hg
    · rw [he]
      exact hne
  · intro g hg id hid
    rcases hgroup g hg with hg | ⟨_,hk,he,hids | ⟨old,hmem,hok,hoe,hids⟩⟩
    · exact hold id _ (h.group_scope g hg id hid)
    · rw [hids,mem_singleton] at hid
      rw [hid,hk,he]
      exact hnew
    · rw [hids,mem_insert_iff] at hid
      rw [hk,he]
      rcases hid with rfl | hid
      · exact hnew
      · have := h.group_scope old hmem id hid
        rw [hok,hoe] at this
        exact hold id _ this
  · intro id k e hne hs
    have hcomplete := insertRange_complete key rangeEnd r.nextWatchId r.rangeWatches
    have hgroups : rangeEnd ≠ [] → (r.add key rangeEnd watcherAddr registrationId).rangeWatches =
          insertRange key rangeEnd r.nextWatchId r.rangeWatches := by
      intro hend
      simp [WatchRegistry.add,hend]
    rw [scopeOf_add] at hs
    by_cases hid : id = r.nextWatchId
    · rw [if_pos hid,some.injEq,Prod.mk.injEq] at hs
      have hend : rangeEnd ≠ [] := by
        rw [hs.2]
        exact hne
      rw [hgroups hend,hid]
      exact hcomplete.1
    · rw [if_neg hid] at hs
      obtain ⟨g,hg,hmem⟩ := h.group_complete id k e hne hs
      by_cases hend : rangeEnd = []
      · exact ⟨g,by simpa [WatchRegistry.add,hend] using hg,hmem⟩
      · rw [hgroups hend]
        obtain ⟨g',hg',hsub⟩ := hcomplete.2 g hg
        exact ⟨g',hg',hsub id hmem⟩
  · by_cases hend : rangeEnd = []
    · simpa [WatchRegistry.add,hend] using h.groups_distinct
    · simpa [WatchRegistry.add,hend] using insertRange_distinct key rangeEnd r.nextWatchId h.groups_distinct

theorem WellFormed.register (h : r.WellFormed) {key rangeEnd watcherAddr registrationId : Bytes} {res : Registered}
    (hreg : r.register key rangeEnd watcherAddr registrationId = .ok res) :
    res.registry.WellFormed ∧ res.registry.scopeOf res.watchId = some (key, rangeEnd) ∧
      (∀ id, id ≠ res.watchId → res.registry.scopeOf id = r.scopeOf id) ∧
      r.nextWatchId ≤ res.registry.nextWatchId ∧
      (res.created = true → res.watchId = r.nextWatchId ∧ res.registry.nextWatchId = r.nextWatchId + 1) ∧
      (res.created = false → res.registry = r) := by
  unfold WatchRegistry.register at hreg
  dsimp only at hreg
  split at hreg
  · rename_i regId watchId _
    split at hreg
    · cases hreg
    · split at hreg
      · cases hreg
      · rename_i hscope
        cases hreg
        exact ⟨h,not_not.mp hscope,fun _ _ => rfl,Int.le_refl _,by simp,fun _ => rfl⟩
  · cases hreg
    refine ⟨h.add _ _ _ _,?_,?_,?_,fun _ => ⟨rfl,rfl⟩,by simp⟩
    · rw [scopeOf_add,if_pos rfl]
    · intro id hid
      rw [scopeOf_add,if_neg hid]
    · show r.nextWatchId ≤ r.nextWatchId + 1
      omega

theorem dropIndexes_watchers (r : WatchRegistry) (id : Int) : (r.dropIndexes id).watchers = r.watchers ∧
      (r.dropIndexes id).watchScopesById = r.watchScopesById ∧
      (r.dropIndexes id).nextWatchId = r.nextWatchId := by
  unfold dropIndexes
  split
  · split <;> exact ⟨rfl,rfl,rfl⟩
  · exact ⟨rfl,rfl,rfl⟩

theorem WellFormed.exactIds_dropIndexes (h : r.WellFormed) (id : Int) (k : Bytes) :
    (r.dropIndexes id).exactIds k = (r.exactIds k).erase id := by
  have hnot : ∀ k, r.scopeOf id ≠ some (k, []) → (r.exactIds k).erase id = r.exactIds k := by
    intro k hk
    apply erase_of_not_mem
    rw [h.exact_iff]
    exact hk
  unfold dropIndexes
  split
  · rename_i key hscope
    split
    · rename_i k' ids hl
      show ((lookup Prod.fst k (if (ids.erase id).isEmpty = true then _ else _)).map Prod.snd).getD [] = _
      have hids : r.exactIds key = ids := by simp [exactIds,hl]
      by_cases hk : k = key
      · subst hk
        rw [hids]
        split_ifs with hempty
        · rw [lookup_remove,if_pos rfl,List.isEmpty_iff.mp hempty]
          rfl
        · rw [lookup_upsert,if_pos rfl]
          rfl
      · have hsame : (r.exactIds k).erase id = r.exactIds k := by
          refine hnot k ?_
          rw [hscope]
          simpa using Ne.symm hk
        rw [hsame]
        split_ifs
        · rw [lookup_remove,if_neg hk]
          rfl
        · rw [lookup_upsert,if_neg hk]
          rfl
    · rename_i hl
      by_cases hk : k = key
      · subst hk
        simp [exactIds,hl]
      · refine (hnot k ?_).symm
        rw [hscope]
        simpa using Ne.symm hk
  · rename_i hother
    exact (hnot k (fun hk => hother k hk)).symm

theorem mem_rangeWatches_dropIndexes (h : r.WellFormed) {id : Int} (hg : g ∈ (r.dropIndexes id).rangeWatches) :
    ∃ old ∈ r.rangeWatches, g.key = old.key ∧ g.rangeEnd = old.rangeEnd ∧ g.watchIds = old.watchIds.erase id := by
  have hexact : ∀ key, r.scopeOf id = some (key, []) → g ∈ r.rangeWatches →
      ∃ old ∈ r.rangeWatches, g.key = old.key ∧ g.rangeEnd = old.rangeEnd ∧ g.watchIds = old.watchIds.erase id := by
    intro key hscope hg
    refine ⟨g,hg,rfl,rfl,(erase_of_not_mem ?_).symm⟩
    intro hid
    have := h.group_scope g hg id hid
    rw [hscope,some.injEq,Prod.mk.injEq] at this
    exact h.group_range g hg this.2.symm
  unfold dropIndexes at hg
  split at hg
  · rename_i key hscope
    split at hg
    · exact hexact key hscope hg
    · exact hexact key hscope hg
  · obtain ⟨hmem,_⟩ := mem_filter.mp hg
    obtain ⟨old,hold,rfl⟩ := mem_map.mp hmem
    exact ⟨old,hold,rfl,rfl,rfl⟩

theorem mem_rangeWatches_of_other {id x : Int} (hg : g ∈ r.rangeWatches) (hx : x ∈ g.watchIds) (hne : x ≠ id) :
    ∃ g' ∈ (r.dropIndexes id).rangeWatches, x ∈ g'.watchIds := by
  have hkept : x ∈ g.watchIds.erase id := (mem_erase_of_ne hne).mpr hx
  unfold dropIndexes
  split
  · split <;> exact ⟨g,hg,hx⟩
  · refine ⟨{ g with watchIds := g.watchIds.erase id },mem_filter.mpr ⟨?_,?_⟩,hkept⟩
    · exact mem_map.mpr ⟨g,hg,rfl⟩
    · simpa using ne_nil_of_mem hkept

theorem rangeWatches_dropIndexes_distinct (id : Int)
    (h : r.rangeWatches.Pairwise fun g g' => ¬ (g.key = g'.key ∧ g.rangeEnd = g'.rangeEnd)) :
    (r.dropIndexes id).rangeWatches.Pairwise fun g g' =>
      ¬ (g.key = g'.key ∧ g.rangeEnd = g'.rangeEnd) := by
  unfold dropIndexes
  split
  · split <;> exact h
  · refine List.Pairwise.filter _ ?_
    rw [pairwise_map]
    exact h

/-- The registry without a watch and its entries. -/
def drop (r : WatchRegistry) (id : Int) (w : WatcherEntry) : WatchRegistry :=
  { r.dropIndexes id with
    watchIdsByRegistrationId :=
      if w.registrationId.isEmpty then (r.dropIndexes id).watchIdsByRegistrationId
      else remove Prod.fst w.registrationId (r.dropIndexes id).watchIdsByRegistrationId
    watchScopesById := remove Prod.fst id (r.dropIndexes id).watchScopesById
    watchers := remove WatcherEntry.watchId id (r.dropIndexes id).watchers }

theorem cancel_cases (r : WatchRegistry) (id : Int) (watcherAddr : Bytes) :
    ((r.cancel id watcherAddr).1.isOk = false ∧ (r.cancel id watcherAddr).2 = r) ∨
      ∃ w, r.watcher id = some w ∧ r.cancel id watcherAddr = (.success, r.drop id w) := by
  unfold cancel
  split
  · exact Or.inl ⟨rfl,rfl⟩
  · rename_i w hw
    split
    · exact Or.inl ⟨rfl,rfl⟩
    · exact Or.inr ⟨w,hw,rfl⟩

theorem watcher_drop (r : WatchRegistry) (id : Int) (w : WatcherEntry) (x : Int) :
    (r.drop id w).watcher x = if x = id then none else r.watcher x := by
  simp only [watcher,drop,(dropIndexes_watchers r id).1,lookup_remove]

theorem scopeOf_drop (r : WatchRegistry) (id : Int) (w : WatcherEntry) (x : Int) :
    (r.drop id w).scopeOf x = if x = id then none else r.scopeOf x := by
  simp only [scopeOf,drop,(dropIndexes_watchers r id).2.1,lookup_remove]
  split_ifs <;> rfl

theorem scopeOf_cancel (r : WatchRegistry) (id x : Int) (watcherAddr : Bytes) :
    (r.cancel id watcherAddr).2.scopeOf x = r.scopeOf x ∨ (x = id ∧ (r.cancel id watcherAddr).2.scopeOf x = none) := by
  obtain ⟨_,hr⟩ | ⟨w,_,hr⟩ := cancel_cases r id watcherAddr
  · rw [hr]
    exact Or.inl rfl
  · rw [hr,scopeOf_drop]
    by_cases hx : x = id
    · exact Or.inr ⟨hx,if_pos hx⟩
    · exact Or.inl (if_neg hx)

theorem nextWatchId_cancel (r : WatchRegistry) (id : Int) (watcherAddr : Bytes) :
    (r.cancel id watcherAddr).2.nextWatchId = r.nextWatchId := by
  obtain ⟨_,hr⟩ | ⟨w,_,hr⟩ := cancel_cases r id watcherAddr
  · rw [hr]
  · rw [hr]
    exact (dropIndexes_watchers r id).2.2

theorem WellFormed.drop (h : r.WellFormed) (id : Int) (w : WatcherEntry) : (r.drop id w).WellFormed := by
  constructor
  · intro x w' hw'
    rw [watcher_drop] at hw'
    split_ifs at hw'
    show x < (r.dropIndexes id).nextWatchId ∧ _
    rw [(dropIndexes_watchers r id).2.2]
    exact h.watcher_lt x w' hw'
  · intro x
    rw [scopeOf_drop,watcher_drop]
    split_ifs
    · exact ⟨fun hs => hs,fun hs => hs⟩
    · exact h.scope_iff x
  · intro k
    show ((r.dropIndexes id).exactIds k).Nodup
    rw [h.exactIds_dropIndexes]
    exact (h.exact_nodup k).erase id
  · intro k x
    rw [scopeOf_drop]
    show x ∈ (r.dropIndexes id).exactIds k ↔ _
    rw [h.exactIds_dropIndexes,(h.exact_nodup k).mem_erase_iff,h.exact_iff]
    by_cases hx : x = id <;> simp [hx]
  · intro g hg
    obtain ⟨old,hold,_,_,hids⟩ := mem_rangeWatches_dropIndexes h hg
    rw [hids]
    exact (h.group_nodup old hold).erase id
  · intro g hg
    obtain ⟨old,hold,_,he,_⟩ := mem_rangeWatches_dropIndexes h hg
    rw [he]
    exact h.group_range old hold
  · intro g hg x hx
    obtain ⟨old,hold,hk,he,hids⟩ := mem_rangeWatches_dropIndexes h hg
    rw [hids,(h.group_nodup old hold).mem_erase_iff] at hx
    rw [scopeOf_drop,if_neg hx.1,hk,he]
    exact h.group_scope old hold x hx.2
  · intro x k e hne hs
    rw [scopeOf_drop] at hs
    split_ifs at hs with hx
    obtain ⟨g,hg,hmem⟩ := h.group_complete x k e hne hs
    exact mem_rangeWatches_of_other hg hmem hx
  · exact rangeWatches_dropIndexes_distinct id h.groups_distinct

theorem WellFormed.cancel (h : r.WellFormed) (id : Int) (watcherAddr : Bytes) :
    (r.cancel id watcherAddr).2.WellFormed := by
  obtain ⟨_,hr⟩ | ⟨w,_,hr⟩ := cancel_cases r id watcherAddr
  · rwa [hr]
  · rw [hr]
    exact h.drop id w

/-- No entry of the indexes leads nowhere. -/
structure Tidy (r : WatchRegistry) : Prop where
  registration : ∀ e ∈ r.watchIdsByRegistrationId, e.1 ≠ [] ∧ ∃ w, r.watcher e.2 = some w ∧ w.registrationId = e.1
  exact : ∀ e ∈ r.exactWatchIdsByKey, e.2 ≠ []
  range : ∀ g ∈ r.rangeWatches, g.watchIds ≠ []

theorem Tidy.add (h : r.Tidy) (hwf : r.WellFormed) (key rangeEnd watcherAddr registrationId : Bytes) :
    (r.add key rangeEnd watcherAddr registrationId).Tidy := by
  constructor
  · intro e he
    simp only [WatchRegistry.add] at he
    split_ifs at he with hreg
    on_goal 2 => obtain rfl | he := mem_upsert he
    on_goal 2 => exact ⟨by simpa using hreg,_,by rw [watcher_add,if_pos rfl],rfl⟩
    all_goals
      obtain ⟨hne,w,hw,hid⟩ := h.registration e he
      refine ⟨hne,w,?_,hid⟩
      rw [watcher_add,if_neg (hwf.watcher_lt _ w hw).1.ne,hw]
  · intro e he
    simp only [WatchRegistry.add] at he
    split_ifs at he
    · obtain rfl | he := mem_upsert he
      · exact ne_nil_of_mem mem_insert_self
      · exact h.exact e he
    · exact h.exact e he
  · intro g hg
    simp only [WatchRegistry.add] at hg
    split_ifs at hg
    · exact h.range g hg
    · obtain hg | ⟨_,_,hids | ⟨_,_,_,_,hids⟩⟩ := mem_insertRange hg
      · exact h.range g hg
      · simp [hids]
      · rw [hids]
        exact ne_nil_of_mem mem_insert_self

theorem Tidy.dropIndexes (h : r.Tidy) (id : Int) : (r.dropIndexes id).Tidy := by
  unfold WatchRegistry.dropIndexes
  split
  · split
    · refine ⟨h.registration,?_,h.range⟩
      intro e he
      dsimp only at he
      split_ifs at he with hempty
      · exact h.exact e (mem_filter.mp he).1
      · obtain rfl | he := mem_upsert he
        · simpa using hempty
        · exact h.exact e he
    · exact h
  · refine ⟨h.registration,h.exact,?_⟩
    intro g hg
    simpa using (mem_filter.mp hg).2

theorem Tidy.drop (h : r.Tidy) {id : Int} {w : WatcherEntry} (hw : r.watcher id = some w) : (r.drop id w).Tidy := by
  have h' := h.dropIndexes id
  refine ⟨?_,h'.exact,h'.range⟩
  intro e he
  have hold : e ∈ (r.dropIndexes id).watchIdsByRegistrationId ∧ (w.registrationId ≠ [] → e.1 ≠ w.registrationId) := by
    simp only [WatchRegistry.drop] at he
    split_ifs at he with hempty
    · exact ⟨he,fun hne => absurd (List.isEmpty_iff.mp hempty) hne⟩
    · exact ⟨(mem_filter.mp he).1,fun _ => by simpa using (mem_filter.mp he).2⟩
  obtain ⟨hne,w',hw',hreg⟩ := h'.registration e hold.1
  rw [watcher,(dropIndexes_watchers r id).1] at hw'
  refine ⟨hne,w',?_,hreg⟩
  rw [watcher_drop,if_neg]
  · exact hw'
  · rintro rfl
    cases hw.symm.trans hw'
    exact hold.2 (hreg ▸ hne) hreg.symm

end WatchRegistry

inductive RegistryCall where
  | register (key rangeEnd watcherAddr registrationId : Bytes)
  | cancel (watchId : Int) (watcherAddr : Bytes)

/-- A registry with the watches that were created and not cancelled: the address, the key and the range end. -/
structure Watches where
  registry : WatchRegistry := .empty
  live : Int → Option (Bytes × Bytes × Bytes) := fun _ => none

namespace Watches

open WatchRegistry

def call (w : Watches) : RegistryCall → Watches
  | .register key rangeEnd watcherAddr registrationId =>
    match w.registry.register key rangeEnd watcherAddr registrationId with
    | .ok res =>
      ⟨res.registry,
        if res.created then Function.update w.live res.watchId (some (watcherAddr, key, rangeEnd)) else w.live⟩
    | .error _ => w
  | .cancel watchId watcherAddr =>
    let res := w.registry.cancel watchId watcherAddr
    ⟨res.2,if res.1.isOk then Function.update w.live watchId none else w.live⟩

structure Inv (w : Watches) : Prop where
  wellFormed : w.registry.WellFormed
  tidy : w.registry.Tidy
  live : ∀ id, w.live id =
    (w.registry.watcher id).bind fun e => (w.registry.scopeOf id).map fun scope => (e.watcherAddr, scope)

theorem Inv.call {w : Watches} (h : w.Inv) (c : RegistryCall) : (w.call c).Inv := by
  cases c with
  | register key rangeEnd watcherAddr registrationId =>
    simp only [Watches.call]
    split
    · rename_i res hres
      unfold WatchRegistry.register at hres
      dsimp only at hres
      split at hres
      · split_ifs at hres
        cases hres
        exact ⟨h.wellFormed,h.tidy,h.live⟩
      · cases hres
        refine ⟨h.wellFormed.add _ _ _ _,h.tidy.add h.wellFormed _ _ _ _,?_⟩
        intro id
        rw [watcher_add,scopeOf_add]
        by_cases hid : id = w.registry.nextWatchId
        · simp [hid]
        · simpa [hid] using h.live id
    · exact h
  | cancel watchId watcherAddr =>
    simp only [Watches.call]
    obtain ⟨hst,hr⟩ | ⟨e,he,hr⟩ := cancel_cases w.registry watchId watcherAddr
    · rw [hst,hr]
      exact h
    · rw [hr]
      refine ⟨h.wellFormed.drop _ _,h.tidy.drop he,?_⟩
      intro id
      rw [watcher_drop,scopeOf_drop]
      by_cases hid : id = watchId
      · simp [hid,Status.success,Status.isOk]
      · simpa [hid,Status.success,Status.isOk] using h.live id

def Indexed (r : WatchRegistry) (id : Int) : Prop :=
  (r.watcher id).isSome ∨ (r.scopeOf id).isSome ∨
    (∃ e ∈ r.watchIdsByRegistrationId, e.2 = id) ∨
    (∃ key, id ∈ r.exactIds key) ∨ ∃ g ∈ r.rangeWatches, id ∈ g.watchIds

theorem Inv.live_of_indexed {w : Watches} (h : w.Inv) {id : Int} (hid : Indexed w.registry id) : (w.live id).isSome := by
  have hscope : (w.registry.scopeOf id).isSome := by
    rcases hid with hw | hs | ⟨e,he,rfl⟩ | ⟨key,hkey⟩ | ⟨g,hg,hid⟩
    · exact (h.wellFormed.scope_iff id).mpr hw
    · exact hs
    · obtain ⟨_,w',hw',_⟩ := h.tidy.registration e he
      exact (h.wellFormed.scope_iff _).mpr (by simp [hw'])
    · simp [(h.wellFormed.exact_iff key id).mp hkey]
    · simp [h.wellFormed.group_scope g hg id hid]
  obtain ⟨scope,hs⟩ := isSome_iff_exists.mp hscope
  obtain ⟨e,he⟩ := isSome_iff_exists.mp ((h.wellFormed.scope_iff id).mp hscope)
  simp [h.live,hs,he]

end Watches

end Datasystem.Coordinator
