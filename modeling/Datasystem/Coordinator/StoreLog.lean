import Datasystem.Coordinator.MemoryKvStore

/-!
# The event log of the store

This module replays events on the result of a range read and shows that a reader who applies, in revision
order, the events above the revision of its read holds the current contents of the range.
-/

namespace Datasystem.Coordinator

open Keyed MemoryKvStore KeyValueEntry MemoryKvStore ValueEntry
open List hiding lookup lookup_cons

inductive StoreOp where
  | put (req : PutRequest)
  | delete (req : DeleteRequest)
  | deleteIfTtlExpired (key : Bytes) (revision : Int) (ttlGeneration : Nat)
  | keepAlive (key : Bytes) (expectedModRevision : Int)
deriving DecidableEq, Repr

def Outcome.discardOutput {β : Type} (o : Outcome β) : Outcome Unit := ⟨o.status,o.store,o.events,none⟩

def StoreOp.apply (op : StoreOp) (s : MemoryKvStore) : Outcome Unit :=
  match op with
  | .put req => (s.put req).discardOutput
  | .delete req => (s.delete req).discardOutput
  | .deleteIfTtlExpired key revision gen => (s.deleteIfTtlExpired key revision gen).discardOutput
  | .keepAlive key expectedModRevision => (s.keepAlive key expectedModRevision).discardOutput

/-- Run operations one after another, collecting the events in the order of the commits. -/
def runOps (s : MemoryKvStore) : List StoreOp → MemoryKvStore × List WatchEvent
  | [] => (s, [])
  | op :: ops =>
    let o := op.apply s
    let r := runOps o.store ops
    (r.1, o.events ++ r.2)

variable (kvs : List KeyValueEntry)

def WatchEvent.applyTo (e : WatchEvent) : List KeyValueEntry :=
  match e.type with
  | .put => upsert key e.entry kvs
  | .delete => remove key e.entry.key kvs
  | .rewatch => kvs

def replay (events : List WatchEvent) : List KeyValueEntry := events.foldl WatchEvent.applyTo kvs

/-- What one event does to the visible entry of one key. -/
def WatchEvent.effect (k : Bytes) (entry : Option KeyValueEntry) (e : WatchEvent) : Option KeyValueEntry :=
  if e.entry.key = k then
    match e.type with
    | .put => some e.entry
    | .delete => none
    | .rewatch => entry
  else entry

theorem applyTo_sorted {kvs : List KeyValueEntry} (h : Sorted key kvs)
    (e : WatchEvent) : Sorted key (e.applyTo kvs) := by
  unfold WatchEvent.applyTo
  cases e.type with
  | put => exact h.upsert _
  | delete => exact h.remove _
  | rewatch => exact h

theorem replay_sorted {kvs : List KeyValueEntry} (h : Sorted key kvs)
    (events : List WatchEvent) : Sorted key (replay kvs events) := by
  induction events generalizing kvs with
  | nil => exact h
  | cons e events ih => exact ih (applyTo_sorted h e)

theorem lookup_applyTo (e : WatchEvent) (k : Bytes) : lookup key k (e.applyTo kvs) = e.effect k (lookup key k kvs) := by
  unfold WatchEvent.applyTo WatchEvent.effect
  by_cases hk : e.entry.key = k
  · subst hk
    cases e.type <;> simp [lookup_upsert,lookup_remove]
  · cases e.type <;> simp [lookup_upsert,lookup_remove,hk,Ne.symm hk]

theorem lookup_replay (events : List WatchEvent) (k : Bytes) : lookup key k (replay kvs events) =
      events.foldl (fun entry e => e.effect k entry) (lookup key k kvs) := by
  induction events generalizing kvs with
  | nil => rfl
  | cons e events ih =>
    rw [replay,foldl_cons,foldl_cons,← lookup_applyTo]
    exact ih (e.applyTo kvs)

/-- The whole visible behaviour of one store operation. -/
structure StepSpec (s s' : MemoryKvStore) (events : List WatchEvent) : Prop where
  revision_le : s.revision ≤ s'.revision
  stamped : ∀ e ∈ events, s.revision < e.revision ∧ e.revision = s'.revision
  mutation : ∀ e ∈ events, e.type ≠ .rewatch
  keys_nodup : (events.map fun e => e.entry.key).Nodup
  effect : ∀ k, s'.visible k = events.foldl (fun entry e => e.effect k entry) (s.visible k)

variable (s : MemoryKvStore)

theorem StepSpec.refl : StepSpec s s [] where
  revision_le := Int.le_refl _
  stamped := by simp
  mutation := by simp
  keys_nodup := nodup_nil
  effect _ := rfl

theorem put_spec (req : PutRequest) : StepSpec s (s.put req).store (s.put req).events := by
  unfold put
  dsimp only
  split
  · constructor
    · rw [store_revision]
      omega
    · intro e he
      rw [mem_singleton.mp he]
      exact ⟨by dsimp only; omega,rfl⟩
    · simp
    · simp
    · intro k
      by_cases hk : k = req.key
      · subst hk
        simp [visible,WatchEvent.effect,toKeyValue]
      · simp [visible,WatchEvent.effect,toKeyValue,hk,Ne.symm hk]
  · exact StepSpec.refl s

/-- Folding the deletions of distinct scanned entries clears exactly their keys. -/
private theorem foldl_delete_effect (entries : List (Bytes × ValueEntry)) (revision : Int)
    (k : Bytes) (entry : Option KeyValueEntry) :
    ((entries.map fun e => e.2.toKeyValue e.1).map
        fun e => (⟨.delete,e,revision⟩ : WatchEvent)).foldl (fun entry e => e.effect k entry) entry =
      if k ∈ entries.map Prod.fst then none else entry := by
  induction entries generalizing entry with
  | nil => simp
  | cons e entries ih =>
    simp only [map_cons,foldl_cons,ih]
    by_cases hk : e.1 = k
    · subst hk
      simp [WatchEvent.effect,toKeyValue]
    · by_cases hmem : k ∈ entries.map Prod.fst
      · simp [hmem]
      · simp [hmem,hk,Ne.symm hk,WatchEvent.effect,toKeyValue]

private theorem eraseAll_spec (entries : List (Bytes × ValueEntry)) (hsorted : Sorted Prod.fst entries) :
    StepSpec s (s.eraseAll (entries.map Prod.fst) (s.revision + 1))
      ((entries.map fun e => e.2.toKeyValue e.1).map fun e => ⟨.delete,e,s.revision + 1⟩) := by
  constructor
  · rw [eraseAll_revision]
    omega
  · intro e he
    obtain ⟨kve,-,rfl⟩ := mem_map.mp he
    exact ⟨by dsimp only; omega,rfl⟩
  · intro e he
    obtain ⟨kve,-,rfl⟩ := mem_map.mp he
    simp
  · have hkeys : (entries.map Prod.fst).Nodup := by
      rw [List.Nodup,pairwise_map]
      exact hsorted.imp fun h => ne_of_lt h
    simpa [map_map,Function.comp_def,toKeyValue] using hkeys
  · intro k
    rw [foldl_delete_effect]
    rw [visible,find_eraseAll]
    split_ifs <;> rfl

theorem delete_spec (req : DeleteRequest) : StepSpec s (s.delete req).store (s.delete req).events := by
  have hsorted := s.scan_sorted req.key req.rangeEnd
  unfold delete
  split
  · exact StepSpec.refl s
  · split
    · exact StepSpec.refl s
    · rename_i front rest hscan
      rw [hscan] at hsorted
      split
      · exact StepSpec.refl s
      · exact eraseAll_spec s (front :: rest) hsorted

theorem deleteIfTtlExpired_spec (key : Bytes) (revision : Int) (gen : Nat) :
    StepSpec s (s.deleteIfTtlExpired key revision gen).store (s.deleteIfTtlExpired key revision gen).events := by
  unfold deleteIfTtlExpired
  split
  · exact StepSpec.refl s
  · rename_i entry _
    split
    · exact StepSpec.refl s
    · split
      · exact StepSpec.refl s
      · exact eraseAll_spec s [(key, entry)] (by simp [Sorted])

/-- A renewal only counts up the TTL generation, which no range read shows. -/
theorem keepAlive_spec (key : Bytes) (expectedModRevision : Int) :
    StepSpec s (s.keepAlive key expectedModRevision).store (s.keepAlive key expectedModRevision).events := by
  unfold keepAlive
  split
  · exact StepSpec.refl s
  · rename_i entry hfind
    split
    · exact StepSpec.refl s
    · split
      · exact StepSpec.refl s
      · constructor
        · simp
        · simp
        · simp
        · simp
        · intro k
          by_cases hk : k = key
          · subst hk
            simp [visible,hfind,toKeyValue]
          · simp [visible,hk]

theorem apply_spec (op : StoreOp) (s : MemoryKvStore) : StepSpec s (op.apply s).store (op.apply s).events := by
  cases op with
  | put req => exact put_spec s req
  | delete req => exact delete_spec s req
  | deleteIfTtlExpired key revision gen => exact deleteIfTtlExpired_spec s key revision gen
  | keepAlive key expectedModRevision => exact keepAlive_spec s key expectedModRevision

theorem apply_rejected (op : StoreOp) (s : MemoryKvStore) (h : (op.apply s).status.code ≠ .ok) :
    (op.apply s).store = s ∧ (op.apply s).events = [] := by
  revert h
  cases op with
  | put req =>
    simp only [StoreOp.apply,Outcome.discardOutput,put]
    split
    · rename_i hok
      exact fun h => absurd (by simpa [Status.isOk] using hok) h
    · exact fun _ => ⟨rfl,rfl⟩
  | delete | deleteIfTtlExpired | keepAlive =>
    simp only [StoreOp.apply,Outcome.discardOutput,delete,deleteIfTtlExpired,keepAlive]
    -- three checks precede the change
    split
    · exact fun _ => ⟨rfl,rfl⟩
    · split
      · exact fun _ => ⟨rfl,rfl⟩
      · split
        · exact fun _ => ⟨rfl,rfl⟩
        · exact fun h => absurd rfl h

theorem deleteIfTtlExpired_rejected (key : Bytes) (revision : Int) (gen : Nat)
    (h : (s.deleteIfTtlExpired key revision gen).output = some false) :
    (s.deleteIfTtlExpired key revision gen).store = s ∧ (s.deleteIfTtlExpired key revision gen).events = [] := by
  revert h
  unfold deleteIfTtlExpired
  split
  · exact fun _ => ⟨rfl,rfl⟩
  · split
    · exact fun _ => ⟨rfl,rfl⟩
    · split
      · exact fun _ => ⟨rfl,rfl⟩
      · exact fun h => absurd h (by simp)

/-- The log between two stores of a run: revisions grow, strictly so for each single key, and
folding the log over a key leads from its old visible entry to its new one. -/
structure LogSpec (s s' : MemoryKvStore) (log : List WatchEvent) : Prop where
  revision_le : s.revision ≤ s'.revision
  bounds : ∀ e ∈ log, s.revision < e.revision ∧ e.revision ≤ s'.revision
  mutation : ∀ e ∈ log, e.type ≠ .rewatch
  ordered : log.Pairwise fun a b =>
    a.revision ≤ b.revision ∧ (a.entry.key = b.entry.key → a.revision < b.revision)
  effect : ∀ k, s'.visible k = log.foldl (fun entry e => e.effect k entry) (s.visible k)

variable {events : List WatchEvent} {s s' : MemoryKvStore}

theorem StepSpec.toLog (h : StepSpec s s' events) : LogSpec s s' events where
  revision_le := h.revision_le
  bounds e he := ⟨(h.stamped e he).1,(h.stamped e he).2.le⟩
  mutation := h.mutation
  ordered := by
    have hkeys : events.Pairwise fun a b => a.entry.key ≠ b.entry.key := by
      rw [← pairwise_map]
      exact h.keys_nodup
    refine hkeys.imp_of_mem ?_
    intro a b ha hb hne
    refine ⟨?_,fun heq => absurd heq hne⟩
    exact ((h.stamped a ha).2.trans (h.stamped b hb).2.symm).le
  effect := h.effect

theorem LogSpec.append {s s' s'' : MemoryKvStore} {log log' : List WatchEvent}
    (h : LogSpec s s' log) (h' : LogSpec s' s'' log') : LogSpec s s'' (log ++ log') where
  revision_le := Int.le_trans h.revision_le h'.revision_le
  bounds e he := by
    have hle := h.revision_le
    have hle' := h'.revision_le
    rcases mem_append.mp he with he | he
    · have hb := h.bounds e he
      omega
    · have hb := h'.bounds e he
      omega
  mutation e he := (mem_append.mp he).elim (h.mutation e) (h'.mutation e)
  ordered := by
    refine pairwise_append.mpr ⟨h.ordered,h'.ordered,?_⟩
    intro a ha b hb
    have hab : a.revision < b.revision := by
      have h1 := (h.bounds a ha).2
      have h2 := (h'.bounds b hb).1
      omega
    exact ⟨hab.le,fun _ => hab⟩
  effect k := by
    rw [foldl_append,← h.effect k,h'.effect k]

theorem runOps_spec (s : MemoryKvStore) (ops : List StoreOp) : LogSpec s (runOps s ops).1 (runOps s ops).2 := by
  induction ops generalizing s with
  | nil => exact (StepSpec.refl s).toLog
  | cons op ops ih => exact (apply_spec op s).toLog.append (ih (op.apply s).store)

theorem runOps_append (s : MemoryKvStore) (pre post : List StoreOp) : runOps s (pre ++ post) =
      ((runOps (runOps s pre).1 post).1, (runOps s pre).2 ++ (runOps (runOps s pre).1 post).2) := by
  induction pre generalizing s with
  | nil => rfl
  | cons op pre ih => simp only [cons_append,runOps,ih,append_assoc]

theorem foldl_effect_filter (k : Bytes) (events : List WatchEvent) (entry : Option KeyValueEntry) :
    (events.filter fun e => e.entry.key = k).foldl (fun entry e => e.effect k entry) entry =
      events.foldl (fun entry e => e.effect k entry) entry := by
  induction events generalizing entry with
  | nil => rfl
  | cons e events ih =>
    rw [filter_cons]
    by_cases hk : e.entry.key = k
    · simp only [hk,decide_true,if_true,foldl_cons,ih]
    · simp only [hk,decide_false,Bool.false_eq_true,if_false,foldl_cons,ih]
      simp [WatchEvent.effect,hk]

/-- Any arrangement of a log in revision order lists the events of one key in log order. -/
theorem filter_key_eq_of_perm {log events : List WatchEvent} (k : Bytes) (hlog : log.Pairwise fun a b =>
      a.revision ≤ b.revision ∧ (a.entry.key = b.entry.key → a.revision < b.revision))
    (hperm : events.Perm log) (hsorted : events.Pairwise fun a b => a.revision ≤ b.revision) :
    (events.filter fun e => e.entry.key = k) = log.filter fun e => e.entry.key = k := by
  have hstrict : (log.filter fun e => e.entry.key = k).Pairwise fun a b => a.revision < b.revision := by
    refine (hlog.filter _).imp_of_mem ?_
    intro a b ha hb hab
    have hka : a.entry.key = k := by simpa using (mem_filter.mp ha).2
    have hkb : b.entry.key = k := by simpa using (mem_filter.mp hb).2
    exact hab.2 (hka.trans hkb.symm)
  have hnodup : ((log.filter fun e => e.entry.key = k).map WatchEvent.revision).Nodup := by
    rw [List.Nodup,pairwise_map]
    exact hstrict.imp fun h => ne_of_lt h
  have hp := hperm.filter fun e => decide (e.entry.key = k)
  refine hp.eq_of_pairwise ?_ (hsorted.filter _) (hstrict.imp fun h => le_of_lt h)
  intro a b ha hb hab hba
  exact inj_on_of_nodup_map hnodup (hp.mem_iff.mp ha) hb (le_antisymm hab hba)

theorem range_sorted (s : MemoryKvStore) (key rangeEnd : Bytes) :
    Sorted KeyValueEntry.key (s.range key rangeEnd).1 := by
  rw [MemoryKvStore.range,Sorted,pairwise_map]
  exact s.scan_sorted key rangeEnd

theorem lookup_range (s : MemoryKvStore) (key rangeEnd k : Bytes) :
    lookup KeyValueEntry.key k (s.range key rangeEnd).1 =
      if inScope key rangeEnd k then s.visible k else none := by
  have hmap : ∀ entries : List (Bytes × ValueEntry),
      lookup KeyValueEntry.key k (entries.map fun e => e.2.toKeyValue e.1) =
        ((lookup Prod.fst k entries).map Prod.snd).map (toKeyValue k) := by
    intro entries
    induction entries with
    | nil => rfl
    | cons e entries ih =>
      rw [List.map_cons,lookup_cons,lookup_cons,ih]
      by_cases hk : e.1 = k
      · subst hk
        simp [toKeyValue]
      · simp [toKeyValue,hk]
  have h := hmap (s.scan key rangeEnd)
  rw [lookup_scan] at h
  rw [MemoryKvStore.range,visible,h]
  split_ifs <;> rfl

/-- Replaying the in-scope part of a log, in any revision order, turns the entries read before
the log into the entries read after it. -/
theorem LogSpec.replay_range {log : List WatchEvent} (h : LogSpec s s' log) (key rangeEnd : Bytes)
    (hperm : events.Perm (log.filter fun e => inScope key rangeEnd e.entry.key))
    (hsorted : events.Pairwise fun a b => a.revision ≤ b.revision) :
    replay (s.range key rangeEnd).1 events = (s'.range key rangeEnd).1 := by
  refine (replay_sorted (range_sorted s key rangeEnd) events).ext (range_sorted s' key rangeEnd) ?_
  intro k
  have hkey := filter_key_eq_of_perm k (h.ordered.filter _) hperm hsorted
  rw [lookup_replay,lookup_range,lookup_range,← foldl_effect_filter,hkey,filter_filter]
  by_cases hscope : inScope key rangeEnd k
  · -- in scope the filter keeps every event of the key
    have hall : (log.filter fun e => decide (e.entry.key = k) && inScope key rangeEnd e.entry.key) =
        log.filter fun e => e.entry.key = k := by
      apply filter_congr
      intro e _
      by_cases he : e.entry.key = k
      · simp [he,hscope]
      · simp [he]
    rw [hall,if_pos hscope,if_pos hscope,foldl_effect_filter,← h.effect k]
  · have hnone : (log.filter fun e => decide (e.entry.key = k) && inScope key rangeEnd e.entry.key) = [] := by
      rw [filter_eq_nil_iff]
      intro e _
      by_cases he : e.entry.key = k
      · simp [he,hscope]
      · simp [he]
    rw [hnone,if_neg hscope,if_neg hscope]
    rfl

/-- An operation that changes what a range read shows of a key publishes an event for that key
under a revision above every revision the store has issued. -/
theorem StepSpec.changed_key (h : StepSpec s s' events) {k : Bytes} (hk : s'.visible k ≠ s.visible k) :
    ∃ e ∈ events, e.entry.key = k ∧ s.revision < e.revision ∧ e.revision = s'.revision := by
  by_contra hnone
  apply hk
  rw [h.effect k,← foldl_effect_filter]
  have hempty : (events.filter fun e => e.entry.key = k) = [] := by
    rw [filter_eq_nil_iff]
    intro e he hkey
    exact hnone ⟨e,he,by simpa using hkey,h.stamped e he⟩
  rw [hempty]
  rfl

/-- The log determines the contents. Take any run, any earlier point of it and any range: the
events above the revision of a read at that point, replayed in revision order, give the contents
at the end of the run; revisions never decrease; an operation that changes a key stamps it above
every earlier event; a rejected operation changes and publishes nothing. -/
theorem store_log_reconstructs_contents (pre post : List StoreOp) (key rangeEnd : Bytes) :
    let read := (runOps .empty pre).1.range key rangeEnd
    let now := (runOps .empty (pre ++ post)).1
    let log := (runOps .empty (pre ++ post)).2
    (∀ events : List WatchEvent, events.Perm (log.filter fun e =>
        decide (read.2 < e.revision) && inScope key rangeEnd e.entry.key) →
      events.Pairwise (fun a b => a.revision ≤ b.revision) →
      replay read.1 events = (now.range key rangeEnd).1) ∧
    read.2 ≤ now.revision ∧
    (∀ (op : StoreOp) (k : Bytes), (op.apply now).store.visible k ≠ now.visible k →
      ∃ e ∈ (op.apply now).events, e.entry.key = k ∧ e.revision = (op.apply now).store.revision ∧
        now.revision < e.revision ∧ ∀ earlier ∈ log, earlier.revision < e.revision) ∧
    (∀ op : StoreOp, (op.apply now).status.code ≠ .ok → (op.apply now).store = now ∧ (op.apply now).events = []) ∧
    (∀ (k : Bytes) (revision : Int) (gen : Nat), (now.deleteIfTtlExpired k revision gen).output = some false →
      (now.deleteIfTtlExpired k revision gen).store = now ∧ (now.deleteIfTtlExpired k revision gen).events = []) := by
  have hpre := runOps_spec .empty pre
  have hpost := runOps_spec (runOps .empty pre).1 post
  have hall := runOps_spec .empty (pre ++ post)
  have happ := runOps_append .empty pre post
  dsimp only
  refine ⟨?_,?_,?_,fun op h => apply_rejected op _ h,
    fun k revision gen h => deleteIfTtlExpired_rejected _ k revision gen h⟩
  · intro events hperm hsorted
    -- the events above the revision of the read are exactly those of the later operations
    have hsplit : ((runOps .empty (pre ++ post)).2.filter fun e =>
        decide ((runOps .empty pre).1.revision < e.revision) && inScope key rangeEnd e.entry.key) =
        (runOps (runOps .empty pre).1 post).2.filter fun e => inScope key rangeEnd e.entry.key := by
      rw [happ,filter_append]
      have hnone : ((runOps .empty pre).2.filter fun e =>
          decide ((runOps .empty pre).1.revision < e.revision) && inScope key rangeEnd e.entry.key) = [] := by
        rw [filter_eq_nil_iff]
        intro e he
        have hb := (hpre.bounds e he).2
        simp [not_lt.mpr hb]
      rw [hnone,nil_append]
      apply filter_congr
      intro e he
      simp [(hpost.bounds e he).1]
    have hperm' : events.Perm ((runOps (runOps .empty pre).1 post).2.filter
        fun e => inScope key rangeEnd e.entry.key) := hsplit ▸ hperm
    rw [happ]
    exact hpost.replay_range key rangeEnd hperm' hsorted
  · rw [happ]
    exact hpost.revision_le
  · intro op k hk
    obtain ⟨e,he,hkey,hlt,hrev⟩ := (apply_spec op _).changed_key hk
    refine ⟨e,he,hkey,hrev,hlt,?_⟩
    intro earlier hearlier
    have hb := (hall.bounds earlier hearlier).2
    omega

end Datasystem.Coordinator
