import Datasystem.Lib.Machine
import Datasystem.Master.MetaAsyncQueue

/-!
# The index and the count of the metadata queue

The queue finds the elements of an object by a map beside the ordered set, and reports by how much each append
changes the number of its elements.
-/

namespace Datasystem.Master

open Bytes List Finmap MetaAsyncQueue LinkedHashSet

namespace LinkedHashSet

variable {α ι : Type} [DecidableEq ι] {ident : α → ι} (s : LinkedHashSet ident)

/-- `Remove` for every element of a set of identities. -/
def removeAll (gone : Finset ι) : LinkedHashSet ident :=
  ⟨s.itemList.filter fun x => ident x ∉ gone,s.capacity,s.nodup.sublist (filter_sublist.map ident)⟩

theorem find_removeAll (gone : Finset ι) (i : ι) : (s.removeAll gone).find i = if i ∈ gone then none else s.find i := by
  apply Option.ext
  intro x
  rw [find_eq_some]
  by_cases hi : i ∈ gone
  · simp only [removeAll,mem_filter,decide_eq_true_eq,hi,if_true,reduceCtorEq,iff_false]
    rintro ⟨⟨_,hx⟩,hid⟩
    exact hx (hid ▸ hi)
  · simp only [removeAll,mem_filter,decide_eq_true_eq,hi,if_false,find_eq_some]
    constructor
    · rintro ⟨⟨hx,_⟩,hid⟩
      exact ⟨hx,hid⟩
    · rintro ⟨hx,hid⟩
      exact ⟨⟨hx,hid ▸ hi⟩,hid⟩

/-- Each of the identities is met exactly once when all of them are in the set. -/
theorem length_removeAll (gone : Finset ι) (h : ∀ i ∈ gone, (s.find i).isSome) :
    (s.removeAll gone).itemList.length + gone.card = s.itemList.length := by
  have hgone : ((s.itemList.filter fun x => ident x ∈ gone).map ident).toFinset = gone := by
    ext i
    simp only [mem_toFinset,mem_map,mem_filter,decide_eq_true_eq]
    constructor
    · rintro ⟨x,⟨_,hx⟩,rfl⟩
      exact hx
    · intro hi
      obtain ⟨x,hx⟩ := Option.isSome_iff_exists.mp (h i hi)
      obtain ⟨hmem,rfl⟩ := find_eq_some.mp hx
      exact ⟨x,⟨hmem,hi⟩,rfl⟩
  have hcard : (s.itemList.filter fun x => ident x ∈ gone).length = gone.card := by
    rw [← length_map ident,← toFinset_card_of_nodup,hgone]
    exact s.nodup.sublist (filter_sublist.map ident)
  have hsplit := s.itemList.length_eq_length_filter_add fun x => decide (ident x ∈ gone)
  simp only [removeAll,decide_not]
  omega

theorem length_without (i : ι) : (s.without i).length + (if (s.find i).isSome then 1 else 0) = s.itemList.length := by
  by_cases h : (s.find i).isSome
  · have hlen := s.length_removeAll {i} (by simpa using h)
    simpa [removeAll,without,h] using hlen
  · have hall : s.without i = s.itemList := by
      apply filter_eq_self.mpr
      intro x hx
      simp only [ne_eq,decide_eq_true_eq]
      intro hid
      exact h (by rw [find_eq_some.mpr ⟨hx,hid⟩]; rfl)
    simp [hall,h]

/-- The element that is eliminated was in the set before, and is not in it any more. -/
theorem put_eliminates {s : LinkedHashSet ident} {element x : α} (h : (s.put element).1 = some x) :
    s.find (ident x) = some x ∧ ident x ≠ ident element ∧ (s.put element).2.find (ident x) = none := by
  unfold put at h ⊢
  dsimp only at h ⊢
  split_ifs at h ⊢ with hfull
  obtain ⟨rest,hrest⟩ := head?_eq_some_iff.mp h
  have hnodup := s.nodup_put element
  rw [hrest,map_cons,nodup_cons] at hnodup
  have hx : x ∈ s.without (ident element) := by
    cases hitems : s.without (ident element) with
    | nil =>
      rw [hitems,nil_append,length_singleton] at hfull
      omega
    | cons y items =>
      rw [hitems,cons_append,List.cons.injEq] at hrest
      exact hrest.1 ▸ mem_cons_self
  simp only [without,mem_filter,ne_eq,decide_eq_true_eq] at hx
  refine ⟨find_eq_some.mpr ⟨hx.1,rfl⟩,hx.2,?_⟩
  simp only [hrest,tail_cons,find,find?_eq_none,decide_eq_true_eq]
  intro y hy heq
  exact hnodup.1 (heq ▸ mem_map_of_mem hy)

end LinkedHashSet

namespace MetaAsyncQueue

def pollAsyncElementsByObjectKey (q : MetaAsyncQueue) (objectKey : Bytes) : ObjectOps × MetaAsyncQueue :=
  match q.objectMap.lookup objectKey with
  | none => (∅, q)
  | some ops => (ops, ⟨q.orderedSet.removeAll ops.keys,q.objectMap.erase objectKey⟩)

/-- The elements of the objects that match leave the queue, and are counted. The map is iterated in the order
`objectKeys`. -/
def pollMetasByObjectKey (matchFunc : Bytes → Bool) : List Bytes → MetaAsyncQueue → Nat × MetaAsyncQueue
  | [], q => (0, q)
  | objectKey :: objectKeys, q =>
    if matchFunc objectKey then
      let polled := q.pollAsyncElementsByObjectKey objectKey
      let rest := pollMetasByObjectKey matchFunc objectKeys polled.2
      (polled.1.keys.card + rest.1, rest.2)
    else pollMetasByObjectKey matchFunc objectKeys q

/-- The map of the objects holds, under each object, the elements of the ordered set that belong to it. -/
def Indexed (q : MetaAsyncQueue) : Prop :=
  ∀ (objectKey : Bytes) (i : Bytes × Bytes × Bytes),
    (q.opsOf objectKey).lookup i = if i.1 = objectKey then q.orderedSet.find i else none

variable {q : MetaAsyncQueue} {element : AsyncElement}

theorem indexed_iff : q.Indexed ↔ q.Consistent ∧ ∀ objectKey, ∀ i ∈ q.opsOf objectKey, i.1 = objectKey := by
  constructor
  · intro h
    refine ⟨fun i => by simpa using h i.1 i,fun objectKey i hi => ?_⟩
    by_contra hne
    have hnone := h objectKey i
    rw [if_neg hne,lookup_eq_none] at hnone
    exact hnone hi
  · rintro ⟨hcons,hown⟩ objectKey i
    by_cases hi : i.1 = objectKey
    · subst hi
      simpa using hcons i
    · rw [if_neg hi,lookup_eq_none]
      exact fun hmem => hi (hown objectKey i hmem)

theorem Indexed.lookup (h : q.Indexed) (e : AsyncElement) :
    (q.opsOf e.objectKey).lookup e.identity = q.orderedSet.find e.identity :=
  (h e.objectKey e.identity).trans (if_pos rfl)

theorem mem_opsOf_appendAsyncTask {objectKey : Bytes} {i : Bytes × Bytes × Bytes}
    (h : i ∈ (q.appendAsyncTask element).queue.opsOf objectKey) :
    i ∈ q.opsOf objectKey ∨ i = element.identity ∧ objectKey = element.objectKey := by
  rcases q.appendAsyncTask_eq element with ⟨heq,_⟩ | ⟨_,heq⟩
  · simp only [heq,enqueue,opsOf_insert] at h
    split_ifs at h with ho
    · rw [mem_insert,mem_erase] at h
      rcases h with rfl | ⟨_,hi⟩
      · exact Or.inr ⟨rfl,ho⟩
      · exact Or.inl (ho ▸ hi)
    · exact Or.inl h
  · simp only [heq,opsOf_insert] at h
    split_ifs at h with ho
    · exact Or.inl (ho ▸ (mem_erase.mp h).2)
    · exact Or.inl h

theorem Indexed.appendAsyncTask (h : q.Indexed) (hfits : (q.appendAsyncTask element).eliminatedEle = none) :
    (q.appendAsyncTask element).queue.Indexed := by
  obtain ⟨hcons,hown⟩ := indexed_iff.mp h
  refine indexed_iff.mpr ⟨(appendAsyncTask_cases hcons hfits).1,fun objectKey i hi => ?_⟩
  rcases mem_opsOf_appendAsyncTask hi with hi | ⟨rfl,rfl⟩
  · exact hown objectKey i hi
  · rfl

theorem Indexed.poll {q' : MetaAsyncQueue} (h : q.Indexed) (hpoll : q.poll = some (element, q')) : q'.Indexed := by
  obtain ⟨hcons,hown⟩ := indexed_iff.mp h
  refine indexed_iff.mpr ⟨(poll_eq_some hpoll).2 hcons,fun objectKey i hi => hown objectKey i ?_⟩
  obtain ⟨x,_,heq⟩ := Option.map_eq_some_iff.mp hpoll
  cases heq
  rw [opsOf_objectMapWithout] at hi
  split_ifs at hi with ho
  · exact (mem_erase.mp hi).2
  · exact hi

theorem incrCnt_appendAsyncTask (h : q.Indexed) (hfits : (q.appendAsyncTask element).eliminatedEle = none) :
    ((q.appendAsyncTask element).queue.orderedSet.itemList.length : Int) =
      q.orderedSet.itemList.length + (q.appendAsyncTask element).incrCnt := by
  have hlen := q.orderedSet.length_without element.identity
  rw [← h.lookup element] at hlen
  rcases q.appendAsyncTask_eq element with ⟨heq,_⟩ | ⟨⟨_,queued,hqueued,_⟩,heq⟩
  · rw [heq] at hfits ⊢
    simp only [enqueue,put_of_fits hfits,length_append,length_singleton]
    split_ifs at hlen ⊢ <;> omega
  · -- the addition that was queued is cancelled
    rw [hqueued,Option.isSome_some,if_pos rfl] at hlen
    simp only [heq,remove]
    omega

/-- An element that is eliminated stays in the map of the objects. -/
theorem not_indexed_of_eliminated {x : AsyncElement} (h : q.Indexed)
    (hx : (q.appendAsyncTask element).eliminatedEle = some x) :
    ¬ (q.appendAsyncTask element).queue.Indexed := by
  rcases q.appendAsyncTask_eq element with ⟨henqueue,_⟩ | ⟨_,heq⟩
  swap
  · rw [heq] at hx
    cases hx
  rw [henqueue] at hx ⊢
  obtain ⟨hbefore,hne,hafter⟩ := put_eliminates hx
  intro hind
  have hnew := (hind.lookup x).trans hafter
  have hkept : ((q.enqueue element).queue.opsOf x.objectKey).lookup x.identity =
      (q.opsOf x.objectKey).lookup x.identity := by
    simp only [enqueue,opsOf_insert]
    split_ifs with ho
    · rw [lookup_insert_of_ne _ hne,lookup_erase_ne hne,ho]
    · rfl
  rw [hkept,h.lookup x,hbefore] at hnew
  contradiction

/-- A poll by object takes exactly as many elements from the ordered set as it returns. -/
theorem Indexed.pollAsyncElementsByObjectKey (h : q.Indexed) (objectKey : Bytes) :
    (q.pollAsyncElementsByObjectKey objectKey).2.Indexed ∧
    (q.pollAsyncElementsByObjectKey objectKey).2.orderedSet.itemList.length +
      (q.pollAsyncElementsByObjectKey objectKey).1.keys.card = q.orderedSet.itemList.length := by
  unfold MetaAsyncQueue.pollAsyncElementsByObjectKey
  cases hops : q.objectMap.lookup objectKey with
  | none => exact ⟨h,by simp⟩
  | some ops =>
    have hopsOf : q.opsOf objectKey = ops := by simp [opsOf,hops]
    have hlookup := h objectKey
    rw [hopsOf] at hlookup
    constructor
    · intro o i
      simp only [find_removeAll,Finmap.mem_keys]
      by_cases ho : o = objectKey
      · have hgone : i.1 = o → i ∉ ops → q.orderedSet.find i = none := by
          intro hi hnot
          rw [← lookup_eq_none.mpr hnot,hlookup i,if_pos (hi.trans ho)]
        subst ho
        rw [opsOf,lookup_erase,Option.getD_none,lookup_empty]
        split_ifs with hi hmem
        · rfl
        · exact (hgone hi hmem).symm
        · rfl
      · have hother : i.1 = o → i ∉ ops := by
          intro hi
          rw [← lookup_eq_none,hlookup i,if_neg (hi ▸ ho)]
        rw [opsOf,lookup_erase_ne ho]
        refine (h o i).trans ?_
        split_ifs with hi hmem
        · exact absurd hmem (hother hi)
        · rfl
        · rfl
    · apply length_removeAll
      intro i hi
      rw [Finmap.mem_keys,Finmap.mem_iff] at hi
      obtain ⟨x,hx⟩ := hi
      rw [hlookup i] at hx
      split_ifs at hx
      rw [hx]
      rfl

theorem Indexed.pollMetasByObjectKey (matchFunc : Bytes → Bool) (objectKeys : List Bytes) (h : q.Indexed) :
    (pollMetasByObjectKey matchFunc objectKeys q).2.Indexed ∧
    (pollMetasByObjectKey matchFunc objectKeys q).2.orderedSet.itemList.length +
      (pollMetasByObjectKey matchFunc objectKeys q).1 = q.orderedSet.itemList.length := by
  induction objectKeys generalizing q with
  | nil => exact ⟨h,rfl⟩
  | cons objectKey objectKeys ih =>
    simp only [pollMetasByObjectKey]
    split_ifs
    · obtain ⟨hpolled,hcount⟩ := h.pollAsyncElementsByObjectKey objectKey
      obtain ⟨hrest,hsum⟩ := ih hpolled
      refine ⟨hrest,?_⟩
      dsimp only
      omega
    · exact ih h

end MetaAsyncQueue

/-- A call of the queue; an append may be given no element. -/
inductive QueueCall where
  | appendAsyncTask (element : Option AsyncElement)
  | poll
  | pollMetasByObjectKey (matchFunc : Bytes → Bool) (objectKeys : List Bytes)
  | pollAsyncElementsByObjectKey (objectKey : Bytes)

structure CountedQueue where
  queue : MetaAsyncQueue
  count : Int

namespace CountedQueue

open MetaAsyncQueue

def start (capacity : Nat) : CountedQueue := ⟨{ orderedSet := { capacity, itemList := [], nodup := nodup_nil } },0⟩

def eliminated (s : CountedQueue) : QueueCall → Option AsyncElement
  | .appendAsyncTask (some element) => (s.queue.appendAsyncTask element).eliminatedEle
  | _ => none

/-- Appends count as they report, less an eliminated element; polls count the elements they return. -/
def step (s : CountedQueue) : QueueCall → CountedQueue
  | .appendAsyncTask none => s
  | .appendAsyncTask (some element) =>
    let appended := s.queue.appendAsyncTask element
    ⟨appended.queue,s.count + appended.incrCnt - appended.eliminatedEle.toList.length⟩
  | .poll =>
    match s.queue.poll with
    | none => s
    | some (_, queue) => ⟨queue,s.count - 1⟩
  | .pollMetasByObjectKey matchFunc objectKeys =>
    let polled := pollMetasByObjectKey matchFunc objectKeys s.queue
    ⟨polled.2,s.count - polled.1⟩
  | .pollAsyncElementsByObjectKey objectKey =>
    let polled := s.queue.pollAsyncElementsByObjectKey objectKey
    ⟨polled.2,s.count - polled.1.keys.card⟩

def run (s : CountedQueue) (calls : List QueueCall) : CountedQueue := calls.foldl step s

def NeverEliminates : CountedQueue → List QueueCall → Prop := EachStep step fun s call => s.eliminated call = none

/-- The index holds the elements of the ordered set, and the count is their number. -/
def Exact (s : CountedQueue) : Prop := s.queue.Indexed ∧ s.count = s.queue.orderedSet.itemList.length

theorem exact_start (capacity : Nat) : (start capacity).Exact := by
  refine ⟨fun objectKey i => ?_,rfl⟩
  simp [start,opsOf,find]

variable {s : CountedQueue}

/-- One call keeps the index and the count if and only if it eliminates no element. -/
theorem Exact.step_iff (h : s.Exact) (call : QueueCall) : (s.step call).Exact ↔ s.eliminated call = none := by
  obtain ⟨hindexed,hcount⟩ := h
  cases call with
  | appendAsyncTask element =>
    cases element with
    | none => exact ⟨fun _ => rfl,fun _ => ⟨hindexed,hcount⟩⟩
    | some element =>
      simp only [step,eliminated]
      cases hfits : (s.queue.appendAsyncTask element).eliminatedEle with
      | none =>
        have hlen := incrCnt_appendAsyncTask hindexed hfits
        refine iff_of_true ⟨hindexed.appendAsyncTask hfits,?_⟩ rfl
        simp only [Option.toList_none,length_nil]
        omega
      | some x => exact iff_of_false (fun hexact => not_indexed_of_eliminated hindexed hfits hexact.1) (by simp)
  | poll =>
    refine iff_of_true ?_ rfl
    unfold step
    cases hpoll : s.queue.poll with
    | none => exact ⟨hindexed,hcount⟩
    | some polled =>
      refine ⟨hindexed.poll hpoll,?_⟩
      have hitems := (poll_eq_some hpoll).1
      rw [hitems,length_cons] at hcount
      dsimp only
      omega
  | pollMetasByObjectKey matchFunc objectKeys =>
    obtain ⟨hpolled,hlen⟩ := hindexed.pollMetasByObjectKey matchFunc objectKeys
    refine iff_of_true ⟨hpolled,?_⟩ rfl
    simp only [step]
    omega
  | pollAsyncElementsByObjectKey objectKey =>
    obtain ⟨hpolled,hlen⟩ := hindexed.pollAsyncElementsByObjectKey objectKey
    refine iff_of_true ⟨hpolled,?_⟩ rfl
    simp only [step]
    omega

/-- The index holds the elements of the queue and the reported counts add up to its size, in every state of a
run, if and only if the run eliminates no element. -/
theorem index_and_count_exact_iff (capacity : Nat) (calls : List QueueCall) :
    (∀ before, before <+: calls → ((start capacity).run before).Exact) ↔ (start capacity).NeverEliminates calls :=
  good_along_iff step (fun _ h => h) (fun _ call h => (h.step_iff call).mp) (fun _ call h => (h.step_iff call).mpr)
    (exact_start capacity) calls

def addition (key : Bytes) : QueueCall := .appendAsyncTask (some ⟨key,[],key,[],.add⟩)

/-- The second append eliminates the first element. The element stays in the index, so appending it again is
reported as a replacement, and the queue of one element counts none. -/
theorem eliminated_element_stays_indexed :
    let s := (start 1).run [addition [1],addition [2]]
    s.queue.orderedSet.itemList.map AsyncElement.objectKey = [[2]] ∧
    (s.queue.opsOf [1]).lookup ([1], [], [1]) = some ⟨[1],[],[1],[],.add⟩ ∧
    let again := s.step (addition [1])
    again.queue.orderedSet.itemList.length = 1 ∧ again.count = 0 := by
  decide

end CountedQueue

end Datasystem.Master
