import Datasystem.Lib.Bytes
import Datasystem.Lib.Keyed
import Datasystem.Lib.MapWrites

/-!
# The queue of metadata writes

An operation is queued under its object key, table and key; a later operation of the same identity takes the
place of the queued one and goes to the end, except that a removal meeting a queued addition cancels it and is
not queued itself.
-/

namespace Datasystem.Master

open Bytes List

/-- Items with pairwise different identities in the order of their last insertion. -/
structure LinkedHashSet {α ι : Type} (ident : α → ι) where
  itemList : List α := []
  capacity : Nat
  nodup : (itemList.map ident).Nodup := by simp

namespace LinkedHashSet

variable {α ι : Type} [DecidableEq ι] {ident : α → ι} (s : LinkedHashSet ident)

def without (i : ι) : List α := s.itemList.filter fun x => ident x ≠ i

theorem nodup_without (i : ι) : ((s.without i).map ident).Nodup := s.nodup.sublist (filter_sublist.map ident)

theorem nodup_put (element : α) : ((s.without (ident element) ++ [element]).map ident).Nodup := by
  rw [map_append,nodup_append]
  refine ⟨s.nodup_without _,nodup_singleton _,?_⟩
  intro i hi j hj heq
  obtain ⟨x,hx,rfl⟩ := mem_map.mp hi
  rw [map_singleton,mem_singleton] at hj
  simp [without] at hx
  exact hx.2 (heq.trans hj)

/-- Insert at the end, in place of the item of the same identity. The oldest item goes when the
capacity is exceeded, and is returned. -/
def put (element : α) : Option α × LinkedHashSet ident :=
  let items := s.without (ident element) ++ [element]
  if 0 < s.capacity ∧ s.capacity < items.length then
    (items.head?, ⟨items.tail,s.capacity,(s.nodup_put element).sublist ((tail_sublist _).map ident)⟩)
  else (none, ⟨items,s.capacity,s.nodup_put element⟩)

def remove (element : α) : Bool × LinkedHashSet ident :=
  (s.itemList.any fun x => ident x = ident element,
    ⟨s.without (ident element),s.capacity,s.nodup_without _⟩)

def poll : Option α := s.itemList.head?

def find (s : LinkedHashSet ident) (i : ι) : Option α := s.itemList.find? fun x => ident x = i

theorem find_eq_some {s : LinkedHashSet ident} {i : ι} {x : α} : s.find i = some x ↔ x ∈ s.itemList ∧ ident x = i := by
  unfold find
  constructor
  · intro h
    exact ⟨mem_of_find?_eq_some h,by simpa using find?_some h⟩
  · rintro ⟨hx,rfl⟩
    exact Keyed.find?_of_nodup s.nodup hx

theorem put_of_fits {s : LinkedHashSet ident} {element : α} (h : (s.put element).1 = none) :
    (s.put element).2.itemList = s.without (ident element) ++ [element] := by
  unfold put at h ⊢
  dsimp only at h ⊢
  split_ifs at h ⊢
  · simp at h
  · rfl

end LinkedHashSet

inductive ReqType where
  | add
  | del
deriving DecidableEq, Repr

structure AsyncElement where
  objectKey : Bytes
  table : Bytes
  key : Bytes
  value : Bytes
  reqType : ReqType
deriving DecidableEq, Repr

namespace AsyncElement

/-- What `operator==` and the hash look at. -/
def identity (e : AsyncElement) : Bytes × Bytes × Bytes := (e.objectKey, e.table, e.key)

/-- The write that the handler performs. -/
def toWrite (e : AsyncElement) : (Bytes × Bytes) × Option Bytes :=
  ((e.table, e.key), match e.reqType with | .add => some e.value | .del => none)

@[simp] theorem toWrite_fst (e : AsyncElement) : e.toWrite.1 = (e.table, e.key) := rfl

end AsyncElement

abbrev ObjectOps := Finmap fun _ : Bytes × Bytes × Bytes => AsyncElement

structure MetaAsyncQueue where
  orderedSet : LinkedHashSet AsyncElement.identity
  objectMap : Finmap fun _ : Bytes => ObjectOps := ∅

/-- The queue after an append, the element that was eliminated and the change of the count. -/
structure Appended where
  queue : MetaAsyncQueue
  eliminatedEle : Option AsyncElement
  incrCnt : Int

namespace MetaAsyncQueue

variable (q : MetaAsyncQueue)

def opsOf (objectKey : Bytes) : ObjectOps := (q.objectMap.lookup objectKey).getD ∅

variable (element : AsyncElement)

/-- The end of both append functions: the element replaces the queued one of its identity. -/
def enqueue : Appended :=
  let ops := q.opsOf element.objectKey
  let replaced := (ops.lookup element.identity).isSome
  let put := q.orderedSet.put element
  { queue :=
      { orderedSet := put.2
        objectMap := q.objectMap.insert element.objectKey
          ((ops.erase element.identity).insert element.identity element) }
    eliminatedEle := put.1
    incrCnt := if replaced then 0 else 1 }

def appendAddTaskInternal : Appended := q.enqueue element

def appendDelTaskInternal : Appended :=
  match (q.opsOf element.objectKey).lookup element.identity with
  | none => q.enqueue element
  | some queued =>
    if queued.reqType = .add then
      { queue :=
          { orderedSet := (q.orderedSet.remove element).2
            objectMap := q.objectMap.insert element.objectKey
              ((q.opsOf element.objectKey).erase element.identity) }
        eliminatedEle := none
        incrCnt := -1 }
    else q.enqueue element

def appendAsyncTask : Appended :=
  match element.reqType with
  | .add => q.appendAddTaskInternal element
  | .del => q.appendDelTaskInternal element

/-- The map of the objects without an element; an object without operations goes. -/
def objectMapWithout : Finmap fun _ : Bytes => ObjectOps :=
  match q.objectMap.lookup element.objectKey with
  | none => q.objectMap
  | some ops =>
    if ops.erase element.identity = ∅ then q.objectMap.erase element.objectKey
    else q.objectMap.insert element.objectKey (ops.erase element.identity)

/-- The oldest element and the queue without it; `none` when the queue is empty. -/
def poll (q : MetaAsyncQueue) : Option (AsyncElement × MetaAsyncQueue) :=
  q.orderedSet.poll.map fun element =>
    (element, ⟨(q.orderedSet.remove element).2,q.objectMapWithout element⟩)

/-- A removal meets a queued addition of its identity. -/
def Cancels : Prop :=
  element.reqType = .del ∧
    ∃ queued, q.orderedSet.find element.identity = some queued ∧ queued.reqType = .add

end MetaAsyncQueue

abbrev MetaStore := Bytes × Bytes → Option Bytes

structure MetaSystem where
  queue : MetaAsyncQueue
  store : MetaStore

inductive QueueEvent where
  | append (element : AsyncElement)
  | poll
deriving DecidableEq, Repr

namespace MetaSystem

def start (capacity : Nat) (store : MetaStore) : MetaSystem := ⟨{ orderedSet := { capacity } },store⟩

variable (s : MetaSystem)

def step : QueueEvent → MetaSystem
  | .append element => { s with queue := (s.queue.appendAsyncTask element).queue }
  | .poll =>
    match s.queue.poll with
    | none => s
    | some (element, queue) => ⟨queue,MapWrites.write s.store element.toWrite⟩

def run (events : List QueueEvent) : MetaSystem := events.foldl step s

/-- The store after as many polls as there are elements in the queue. -/
def drained : MetaStore := (s.run (List.replicate s.queue.orderedSet.itemList.length .poll)).store

def appended (events : List QueueEvent) : List AsyncElement :=
  events.filterMap fun
    | .append element => some element
    | .poll => none

/-- The store after all operations applied in the order in which they were appended. -/
def direct (store : MetaStore) (events : List QueueEvent) : MetaStore :=
  MapWrites.writeAll store ((appended events).map AsyncElement.toWrite)

def neverExceeds (s : MetaSystem) : List QueueEvent → Bool
  | [] => true
  | .append element :: events =>
    (s.queue.appendAsyncTask element).eliminatedEle.isNone &&
      (s.step (.append element)).neverExceeds events
  | .poll :: events => (s.step .poll).neverExceeds events

def pending : MetaStore := MapWrites.writeAll s.store (s.queue.orderedSet.itemList.map AsyncElement.toWrite)

/-- The store with the queued operations applied, except the one of an identity. -/
def pendingWithout (i : Bytes × Bytes × Bytes) : MetaStore :=
  MapWrites.writeAll s.store ((s.queue.orderedSet.without i).map AsyncElement.toWrite)

/-- A removal cancels a queued addition although the store, or another queued addition, has an entry
to be removed. -/
def CancelsWrongly (element : AsyncElement) : Prop :=
  s.queue.Cancels element ∧ s.pendingWithout element.identity (element.table, element.key) ≠ none

end MetaSystem

def MetaAsyncQueue.Consistent (q : MetaAsyncQueue) : Prop :=
  ∀ i : Bytes × Bytes × Bytes, (q.opsOf i.1).lookup i = q.orderedSet.find i

namespace LinkedHashSet

variable {α ι : Type} [DecidableEq ι] {ident : α → ι}

theorem find_of_without {s s' : LinkedHashSet ident} {i : ι} (h : s'.itemList = s.without i) (j : ι) :
    s'.find j = if j = i then none else s.find j := by
  apply Option.ext
  intro x
  rw [find_eq_some,h]
  by_cases hj : j = i
  · simp [without,hj]
  · simp only [hj,if_false,find_eq_some,without,mem_filter,decide_eq_true_eq]
    constructor
    · rintro ⟨⟨hx,_⟩,hid⟩
      exact ⟨hx,hid⟩
    · rintro ⟨hx,hid⟩
      exact ⟨⟨hx,fun heq => hj (hid.symm.trans heq)⟩,hid⟩

theorem find_of_put {s s' : LinkedHashSet ident} {element : α}
    (h : s'.itemList = s.without (ident element) ++ [element]) (j : ι) :
    s'.find j = if j = ident element then some element else s.find j := by
  apply Option.ext
  intro x
  rw [find_eq_some,h]
  by_cases hj : j = ident element
  · simp only [hj,if_true,Option.some_inj,mem_append,mem_singleton,without,mem_filter,decide_eq_true_eq]
    constructor
    · rintro ⟨⟨_,hne⟩ | rfl,hid⟩
      · exact absurd hid hne
      · rfl
    · rintro rfl
      exact ⟨Or.inr rfl,rfl⟩
  · simp only [hj,if_false,find_eq_some,without,mem_append,mem_filter,decide_eq_true_eq,mem_singleton]
    constructor
    · rintro ⟨⟨hx,_⟩ | rfl,hid⟩
      · exact ⟨hx,hid⟩
      · exact absurd hid.symm hj
    · rintro ⟨hx,hid⟩
      exact ⟨Or.inl ⟨hx,fun heq => hj (hid.symm.trans heq)⟩,hid⟩

theorem without_head {s : LinkedHashSet ident} {x : α} {rest : List α} (h : s.itemList = x :: rest) :
    s.without (ident x) = rest := by
  have hnodup := s.nodup
  rw [h,map_cons,nodup_cons] at hnodup
  simp only [without,h,filter_cons,ne_eq,not_true_eq_false,decide_false,Bool.false_eq_true,if_false]
  apply filter_eq_self.mpr
  intro y hy
  simpa using fun heq : ident y = ident x => hnodup.1 (heq ▸ mem_map_of_mem hy)

end LinkedHashSet

namespace MetaAsyncQueue

theorem opsOf_insert (q : MetaAsyncQueue) (orderedSet : LinkedHashSet AsyncElement.identity)
    (objectKey o : Bytes) (ops : ObjectOps) :
    (MetaAsyncQueue.mk orderedSet (q.objectMap.insert objectKey ops)).opsOf o =
      if o = objectKey then ops else q.opsOf o := by
  unfold opsOf
  split_ifs with h
  · rw [h,Finmap.lookup_insert,Option.getD_some]
  · rw [Finmap.lookup_insert_of_ne _ h]

theorem opsOf_objectMapWithout (q : MetaAsyncQueue)
    (orderedSet : LinkedHashSet AsyncElement.identity) (element : AsyncElement) (o : Bytes) :
    (MetaAsyncQueue.mk orderedSet (q.objectMapWithout element)).opsOf o =
      if o = element.objectKey then (q.opsOf o).erase element.identity else q.opsOf o := by
  unfold opsOf objectMapWithout
  by_cases ho : o = element.objectKey
  · subst ho
    cases hops : q.objectMap.lookup element.objectKey with
    | none =>
      simp only [hops,Option.getD_none,if_true]
      rfl
    | some ops =>
      by_cases hempty : ops.erase element.identity = ∅
      · simp [hempty]
      · simp [hempty]
  · cases hops : q.objectMap.lookup element.objectKey with
    | none => simp [ho]
    | some ops =>
      by_cases hempty : ops.erase element.identity = ∅
      · simp [hempty,ho,Finmap.lookup_erase_ne]
      · simp [hempty,ho,Finmap.lookup_insert_of_ne]

variable {element : AsyncElement} {q : MetaAsyncQueue}

theorem Consistent.enqueue (h : q.Consistent) (hfits : (q.enqueue element).eliminatedEle = none) :
    (q.enqueue element).queue.Consistent := by
  intro i
  have hfind := LinkedHashSet.find_of_put (LinkedHashSet.put_of_fits hfits) i
  simp only [MetaAsyncQueue.enqueue,opsOf_insert,hfind]
  by_cases hi : i = element.identity
  · subst hi
    simp [AsyncElement.identity]
  · rw [if_neg hi,← h i]
    split_ifs with ho
    · rw [Finmap.lookup_insert_of_ne _ hi,Finmap.lookup_erase_ne hi,← ho]
    · rfl

theorem Consistent.erase {q q' : MetaAsyncQueue} (h : q.Consistent)
    (hset : q'.orderedSet.itemList = q.orderedSet.without element.identity) (hops : ∀ o, q'.opsOf o =
      if o = element.objectKey then (q.opsOf o).erase element.identity else q.opsOf o) : q'.Consistent := by
  intro i
  rw [LinkedHashSet.find_of_without hset,hops]
  by_cases hi : i = element.identity
  · subst hi
    simp [AsyncElement.identity]
  · rw [if_neg hi,← h i]
    split_ifs with ho
    · exact Finmap.lookup_erase_ne hi
    · rfl

/-- An append queues its element, or is a removal that meets an addition in the map of the objects. -/
theorem appendAsyncTask_eq (q : MetaAsyncQueue) (element : AsyncElement) :
    q.appendAsyncTask element = q.enqueue element ∧ (element.reqType = .del → ∀ queued,
      (q.opsOf element.objectKey).lookup element.identity = some queued → queued.reqType ≠ .add) ∨
    (element.reqType = .del ∧ ∃ queued, (q.opsOf element.objectKey).lookup element.identity = some queued ∧
      queued.reqType = .add) ∧ q.appendAsyncTask element =
        ⟨⟨(q.orderedSet.remove element).2,q.objectMap.insert element.objectKey
          ((q.opsOf element.objectKey).erase element.identity)⟩,none,-1⟩ := by
  unfold appendAsyncTask appendAddTaskInternal appendDelTaskInternal
  cases hreq : element.reqType with
  | add => simp
  | del =>
    cases hqueued : (q.opsOf element.objectKey).lookup element.identity with
    | none => simp
    | some queued => by_cases hadd : queued.reqType = .add <;> simp [hadd]

/-- What an append does: it cancels a queued addition, or puts the element at the end in place of
what was queued for its identity. -/
theorem appendAsyncTask_cases (h : q.Consistent) (hfits : (q.appendAsyncTask element).eliminatedEle = none) :
    (q.appendAsyncTask element).queue.Consistent ∧
    (q.Cancels element ∧ (q.appendAsyncTask element).queue.orderedSet.itemList = q.orderedSet.without element.identity ∨
    ¬ q.Cancels element ∧ (q.appendAsyncTask element).queue.orderedSet.itemList =
        q.orderedSet.without element.identity ++ [element]) := by
  have hfind : (q.opsOf element.objectKey).lookup element.identity =
      q.orderedSet.find element.identity := h element.identity
  have hcases := q.appendAsyncTask_eq element
  rw [hfind] at hcases
  rcases hcases with ⟨heq,hno⟩ | ⟨hcancels,heq⟩
  · rw [heq] at hfits ⊢
    refine ⟨h.enqueue hfits,Or.inr ⟨?_,LinkedHashSet.put_of_fits hfits⟩⟩
    rintro ⟨hdel,queued,hqueued,hadd⟩
    exact hno hdel queued hqueued hadd
  · rw [heq]
    refine ⟨h.erase rfl ?_,Or.inl ⟨hcancels,rfl⟩⟩
    intro o
    rw [opsOf_insert]
    split_ifs with ho
    · rw [ho]
    · rfl

theorem poll_eq_none (h : q.poll = none) : q.orderedSet.itemList = [] := by
  simpa [poll,LinkedHashSet.poll] using h

theorem poll_eq_some {q q' : MetaAsyncQueue} (h : q.poll = some (element, q')) :
    q.orderedSet.itemList = element :: q'.orderedSet.itemList ∧ (q.Consistent → q'.Consistent) := by
  obtain ⟨x,hx,heq⟩ := Option.map_eq_some_iff.mp h
  obtain ⟨rest,hrest⟩ := head?_eq_some_iff.mp hx
  obtain ⟨rfl,rfl⟩ := Prod.mk.inj heq
  refine ⟨?_,?_⟩
  · rw [hrest]
    exact congrArg _ (LinkedHashSet.without_head hrest).symm
  · intro hq
    exact hq.erase rfl (q.opsOf_objectMapWithout _ x)

end MetaAsyncQueue

namespace MetaSystem

open MapWrites

variable (s : MetaSystem)

@[simp] theorem run_nil : s.run [] = s := rfl

@[simp] theorem run_cons (e : QueueEvent) (events : List QueueEvent) : s.run (e :: events) = (s.step e).run events :=
  rfl

@[simp] theorem run_concat (events : List QueueEvent) (e : QueueEvent) :
    s.run (events ++ [e]) = (s.run events).step e := by
  simp [run]

@[simp] theorem direct_append (store : MetaStore) (events : List QueueEvent) (e : AsyncElement) :
    direct store (events ++ [.append e]) = write (direct store events) e.toWrite := by
  simp [direct,appended]

@[simp] theorem direct_poll (store : MetaStore) (events : List QueueEvent) :
    direct store (events ++ [.poll]) = direct store events := by
  simp [direct,appended]

theorem pending_poll : (s.step .poll).pending = s.pending := by
  unfold step pending
  cases hpoll : s.queue.poll with
  | none => rfl
  | some r =>
    obtain ⟨element,queue⟩ := r
    rw [(MetaAsyncQueue.poll_eq_some hpoll).1]
    rfl

theorem length_poll : (s.step .poll).queue.orderedSet.itemList.length = s.queue.orderedSet.itemList.length - 1 := by
  unfold step
  cases hpoll : s.queue.poll with
  | none => simp [MetaAsyncQueue.poll_eq_none hpoll]
  | some r =>
    obtain ⟨element,queue⟩ := r
    simp [(MetaAsyncQueue.poll_eq_some hpoll).1]

/-- Draining the queue applies what is queued, in its order. -/
theorem drained_eq_pending : s.drained = s.pending := by
  have hdrain : ∀ n, ∀ s : MetaSystem, s.queue.orderedSet.itemList.length = n →
      (s.run (List.replicate n .poll)).store = s.pending := by
    intro n
    induction n with
    | zero =>
      intro s hlen
      simp [pending,length_eq_zero_iff.mp hlen]
    | succ n ih =>
      intro s hlen
      rw [replicate_succ,run_cons,ih _ (by rw [length_poll,hlen]; rfl),pending_poll]
  exact hdrain _ s rfl

theorem pendingWithout_of_ne (element : AsyncElement) {k : Bytes × Bytes} (hk : k ≠ (element.table, element.key)) :
    s.pendingWithout element.identity k = s.pending k := by
  unfold pendingWithout pending LinkedHashSet.without
  refine writeAll_filter_apply ?_ rfl
  intro x _ hx heq
  have hid : x.identity = element.identity := by simpa using hx
  have htable : x.table = element.table := congrArg (·.2.1) hid
  have hkey : x.key = element.key := congrArg (·.2.2) hid
  exact hk (heq.symm.trans (Prod.ext htable hkey))

variable {s : MetaSystem}

theorem pending_append (hs : s.queue.Consistent) {element : AsyncElement}
    (hfits : (s.queue.appendAsyncTask element).eliminatedEle = none) :
    (s.step (.append element)).pending = write s.pending element.toWrite ↔ ¬ s.CancelsWrongly element := by
  obtain ⟨_,⟨hcancels,hitems⟩ | ⟨hcancels,hitems⟩⟩ := MetaAsyncQueue.appendAsyncTask_cases hs hfits
  · have hpending : (s.step (.append element)).pending = s.pendingWithout element.identity := by
      simp only [step,pending,hitems,pendingWithout]
    have hdel : element.toWrite.2 = none := by simp [AsyncElement.toWrite,hcancels.1]
    rw [hpending,CancelsWrongly,not_and_not_right]
    constructor
    · intro heq _
      rw [heq,write_apply,AsyncElement.toWrite_fst,if_pos rfl,hdel]
    · intro hnone
      funext k
      rw [write_apply]
      split_ifs with hk
      · rw [hk,hdel]
        exact hnone hcancels
      · exact s.pendingWithout_of_ne element hk
  · refine iff_of_true ?_ (fun h => hcancels h.1)
    simp only [step,pending,hitems,map_append,map_singleton,writeAll_concat]
    funext k
    rw [write_apply,write_apply]
    split_ifs with hk
    · rfl
    · exact s.pendingWithout_of_ne element hk

theorem consistent_start (capacity : Nat) (store : MetaStore) : (start capacity store).queue.Consistent := fun _ => rfl

theorem eliminatedEle_of_neverExceeds {events before : List QueueEvent}
    {element : AsyncElement} (h : s.neverExceeds events = true)
    (happend : before ++ [.append element] <+: events) :
    ((s.run before).queue.appendAsyncTask element).eliminatedEle = none := by
  induction before generalizing s events with
  | nil =>
    obtain ⟨rest,rfl⟩ := happend
    simp [neverExceeds] at h
    exact h.1
  | cons e before ih =>
    obtain ⟨rest,rfl⟩ := happend
    rw [run_cons]
    refine ih ?_ (prefix_append _ rest)
    cases e with
    | append x =>
      simp [neverExceeds] at h
      simpa using h.2
    | poll => simpa [neverExceeds] using h

theorem consistent_run (hs : s.queue.Consistent) {events before : List QueueEvent}
    (h : s.neverExceeds events = true) (hbefore : before <+: events) :
    (s.run before).queue.Consistent := by
  induction before using List.reverseRecOn with
  | nil => exact hs
  | append_singleton before e ih =>
    have hprefix := ih ((prefix_append _ _).trans hbefore)
    rw [run_concat]
    cases e with
    | append element =>
      exact (MetaAsyncQueue.appendAsyncTask_cases hprefix (eliminatedEle_of_neverExceeds h hbefore)).1
    | poll =>
      unfold step
      cases hpoll : (s.run before).queue.poll with
      | none => exact hprefix
      | some r => exact (MetaAsyncQueue.poll_eq_some hpoll).2 hprefix

/-- With a capacity that is never exceeded, draining the queue at any time leaves the store as if the
operations had been applied in the order in which they were appended, just when no removal has
cancelled a queued addition while the store or another queued operation had an entry for it. -/
theorem drained_eq_direct_iff (capacity : Nat) (store : MetaStore) (events : List QueueEvent)
    (hfits : (start capacity store).neverExceeds events = true) :
    (∀ before, before <+: events → ((start capacity store).run before).drained = direct store before) ↔
    ∀ before element, before ++ [.append element] <+: events →
      ¬ ((start capacity store).run before).CancelsWrongly element := by
  have hconsistent : ∀ before, before <+: events → ((start capacity store).run before).queue.Consistent :=
    fun before => consistent_run (consistent_start capacity store) hfits
  simp only [drained_eq_pending]
  constructor
  · intro hall before element happend
    have hbefore : before <+: events := (prefix_append _ _).trans happend
    rw [← pending_append (hconsistent before hbefore) (eliminatedEle_of_neverExceeds hfits happend),
      hall before hbefore,← direct_append,← hall _ happend,run_concat]
  · intro hall before hbefore
    -- along the events: each one changes what is pending as it changes the direct store
    induction before using List.reverseRecOn with
    | nil => rfl
    | append_singleton before e ih =>
      have hprefix : before <+: events := (prefix_append _ _).trans hbefore
      rw [run_concat]
      cases e with
      | append element =>
        rw [direct_append,← ih hprefix]
        exact (pending_append (hconsistent before hprefix)
          (eliminatedEle_of_neverExceeds hfits hbefore)).mpr (hall before element hbefore)
      | poll => rw [direct_poll,pending_poll,ih hprefix]

/-- An addition and a removal of an entry that the store has already: they cancel each other and the
entry stays. -/
theorem drained_ne_direct_stored_entry :
    let store : MetaStore := fun k => if k = (ascii "t", ascii "k") then some (ascii "old") else none
    let add : AsyncElement := ⟨ascii "o",ascii "t",ascii "k",ascii "new",.add⟩
    let events := [QueueEvent.append add,.append { add with value := [], reqType := .del }]
    ((start 0 store).run events).drained (ascii "t", ascii "k") = some (ascii "old") ∧
      direct store events (ascii "t", ascii "k") = none := by
  decide

/-- An addition that a later one replaces, then a poll and a removal: nothing is cancelled. -/
theorem drained_eq_direct_replaced_addition :
    let add : AsyncElement := ⟨ascii "o",ascii "t",ascii "k",ascii "v",.add⟩
    let events := [QueueEvent.append add,.append { add with value := ascii "w" },.poll,
      .append { add with value := [], reqType := .del }]
    (start 1 fun _ => none).neverExceeds events = true ∧ ((∀ before, before <+: events →
        ((start 1 fun _ => none).run before).drained = direct (fun _ => none) before) ↔
      ∀ before element, before ++ [.append element] <+: events →
        ¬ ((start 1 fun _ => none).run before).CancelsWrongly element) :=
  ⟨by decide,drained_eq_direct_iff 1 _ _ (by decide)⟩

end MetaSystem

end Datasystem.Master
