import Datasystem.Lib.Machine
import Datasystem.Coordinator.StoreLog

/-!
# Leases

A put or a renewal commits in the store first and schedules afterwards, and the expiration thread pops records
before it calls back into the store, so all of these steps interleave.
-/

namespace Datasystem.Coordinator

open Keyed MemoryKvStore
open List hiding lookup

def maxExpiredKeysPerCheck : Nat := 1024

/-- The lease a schedule or an expiry speaks about. -/
structure Lease where
  key : Bytes
  revision : Int
  ttlGeneration : Nat
deriving DecidableEq, Repr

structure TtlScheduleRecord extends Lease where
  expireTime : Int
deriving DecidableEq, Repr

/-- The multimap from expiry times to records with the iterators into it, and the index from keys
to iterators. -/
structure TtlManager where
  expiryMap : List (Nat × TtlScheduleRecord)
  expiryIndex : List (Bytes × Nat)
  nextIterator : Nat
deriving DecidableEq, Repr

namespace TtlManager

def empty : TtlManager := ⟨[],[],0⟩

def records (m : TtlManager) : List TtlScheduleRecord := m.expiryMap.map Prod.snd

/-- Insert behind all records that expire no later, as a multimap does. -/
def emplaceOrdered (x : Nat × TtlScheduleRecord) : List (Nat × TtlScheduleRecord) → List (Nat × TtlScheduleRecord)
  | [] => [x]
  | y :: ys =>
    if y.2.expireTime ≤ x.2.expireTime then y :: emplaceOrdered x ys else x :: y :: ys

variable (m : TtlManager)

/-- Store a record under a new iterator and point the index of its key to it. -/
def emplace (record : TtlScheduleRecord) : TtlManager where
  expiryMap := emplaceOrdered (m.nextIterator, record) m.expiryMap
  expiryIndex := upsert Prod.fst (record.key, m.nextIterator) m.expiryIndex
  nextIterator := m.nextIterator + 1

def eraseIterator (it : Nat) : TtlManager := { m with expiryMap := m.expiryMap.filter fun x => x.1 ≠ it }

def indexed (key : Bytes) : Option (Nat × TtlScheduleRecord) :=
  (lookup Prod.fst key m.expiryIndex).bind fun e => m.expiryMap.find? fun x => x.1 = e.2

/-- `existing` belongs to a later lease of the key than `lease`. -/
def newer (existing lease : Lease) : Bool :=
  decide (lease.revision < existing.revision ∨
    (lease.revision = existing.revision ∧ lease.ttlGeneration < existing.ttlGeneration))

theorem newer_iff {existing lease : Lease} : newer existing lease ↔ lease.revision < existing.revision ∨
      (lease.revision = existing.revision ∧ lease.ttlGeneration < existing.ttlGeneration) :=
  decide_eq_true_iff

def schedule (now : Int) (lease : Lease) (ttlMs : Int) : TtlManager :=
  if ttlMs ≤ 0 then m
  else
    let record : TtlScheduleRecord := ⟨lease,now + ttlMs⟩
    match m.indexed lease.key with
    | none => m.emplace record
    | some (it, existing) =>
      if newer existing.toLease lease then m else (m.eraseIterator it).emplace record

/-- Drop the first record and its index entry, provided the index still points to it. -/
def popFront (it : Nat) (record : TtlScheduleRecord) (rest : List (Nat × TtlScheduleRecord)) : TtlManager :=
  { m with
    expiryMap := rest
    expiryIndex :=
      if lookup Prod.fst record.key m.expiryIndex = some (record.key, it) then
        remove Prod.fst record.key m.expiryIndex
      else m.expiryIndex }

def popExpired (now : Int) : Nat → TtlManager → List Lease × TtlManager
  | 0, m => ([], m)
  | budget + 1, m =>
    match m.expiryMap with
    | [] => ([], m)
    | (it, record) :: rest =>
      if record.expireTime ≤ now then
        let popped := popExpired now budget (m.popFront it record rest)
        (record.toLease :: popped.1, popped.2)
      else ([], m)

structure WellFormed (m : TtlManager) : Prop where
  ordered : m.expiryMap.Pairwise fun a b => a.2.expireTime ≤ b.2.expireTime
  fresh : ∀ x ∈ m.expiryMap, x.1 < m.nextIterator
  iterators : (m.expiryMap.map Prod.fst).Nodup
  pointed : ∀ x ∈ m.expiryMap, lookup Prod.fst x.2.key m.expiryIndex = some (x.2.key, x.1)
  linked : ∀ key e, lookup Prod.fst key m.expiryIndex = some e →
    ∃ r, (e.2, r) ∈ m.expiryMap ∧ r.key = key

theorem empty_wellFormed : empty.WellFormed := by
  constructor <;> simp [empty]

variable {m}

theorem mem_records {r : TtlScheduleRecord} : r ∈ m.records ↔ ∃ it, (it, r) ∈ m.expiryMap := by
  simp [records]

theorem WellFormed.unique (h : m.WellFormed) {x y : Nat × TtlScheduleRecord} (hx : x ∈ m.expiryMap)
    (hy : y ∈ m.expiryMap) (hkey : x.2.key = y.2.key) : x = y := by
  have hpx := h.pointed x hx
  have hpy := h.pointed y hy
  rw [hkey,hpy,Option.some.injEq] at hpx
  exact inj_on_of_nodup_map h.iterators hx hy (congrArg Prod.snd hpx).symm

theorem WellFormed.indexed_eq_some (h : m.WellFormed) {key : Bytes} {x : Nat × TtlScheduleRecord} :
    m.indexed key = some x ↔ x ∈ m.expiryMap ∧ x.2.key = key := by
  constructor
  · intro hx
    obtain ⟨e,he,hfind⟩ := Option.bind_eq_some_iff.mp hx
    have hmem := mem_of_find?_eq_some hfind
    have hit : x.1 = e.2 := by simpa using find?_some hfind
    obtain ⟨r,hr,hkey⟩ := h.linked key e he
    have : x = (e.2, r) := inj_on_of_nodup_map h.iterators hmem hr hit
    exact ⟨hmem,by rw [this]; exact hkey⟩
  · rintro ⟨hx,rfl⟩
    rw [indexed,h.pointed x hx,Option.bind_some,find?_of_nodup h.iterators hx]

theorem mem_emplaceOrdered {x y : Nat × TtlScheduleRecord} {l : List (Nat × TtlScheduleRecord)} :
    y ∈ emplaceOrdered x l ↔ y = x ∨ y ∈ l := by
  induction l with
  | nil => simp [emplaceOrdered]
  | cons z l ih =>
    simp only [emplaceOrdered]
    split
    · simp only [mem_cons,ih]
      exact or_left_comm
    · simp only [mem_cons]

theorem emplaceOrdered_perm (x : Nat × TtlScheduleRecord) (l : List (Nat × TtlScheduleRecord)) :
    (emplaceOrdered x l).Perm (x :: l) := by
  induction l with
  | nil => exact List.Perm.refl _
  | cons z l ih =>
    simp only [emplaceOrdered]
    split
    · exact (ih.cons z).trans (List.Perm.swap x z l)
    · exact List.Perm.refl _

theorem emplaceOrdered_ordered (x : Nat × TtlScheduleRecord) {l : List (Nat × TtlScheduleRecord)}
    (h : l.Pairwise fun a b => a.2.expireTime ≤ b.2.expireTime) :
    (emplaceOrdered x l).Pairwise fun a b => a.2.expireTime ≤ b.2.expireTime := by
  induction l with
  | nil => simp [emplaceOrdered]
  | cons z l ih =>
    obtain ⟨hz,hl⟩ := pairwise_cons.mp h
    simp only [emplaceOrdered]
    split
    · rename_i hle
      refine pairwise_cons.mpr ⟨?_,ih hl⟩
      intro y hy
      rcases mem_emplaceOrdered.mp hy with rfl | hy
      · exact hle
      · exact hz y hy
    · rename_i hgt
      refine pairwise_cons.mpr ⟨?_,h⟩
      intro y hy
      rcases mem_cons.mp hy with rfl | hy
      · omega
      · have := hz y hy
        omega

def withoutKey (m : TtlManager) (key : Bytes) : TtlManager :=
  { m with expiryMap := m.expiryMap.filter fun x => x.2.key ≠ key }

/-- Scheduling either finds a record of a later lease and does nothing, or replaces the record of
the key. -/
theorem WellFormed.schedule_cases (h : m.WellFormed) (now : Int) (lease : Lease) {ttlMs : Int} (httl : 0 < ttlMs) :
    (m.schedule now lease ttlMs = m ∧ ∃ r ∈ m.records, r.key = lease.key ∧ newer r.toLease lease) ∨
    (m.schedule now lease ttlMs = (m.withoutKey lease.key).emplace ⟨lease,now + ttlMs⟩ ∧
      ∀ r ∈ m.records, r.key = lease.key → ¬ newer r.toLease lease) := by
  rw [schedule,if_neg (by omega)]
  cases hidx : m.indexed lease.key with
  | none =>
    have hkey : ∀ x ∈ m.expiryMap, x.2.key ≠ lease.key := by
      intro x hx hk
      rw [h.indexed_eq_some.mpr ⟨hx,hk⟩] at hidx
      cases hidx
    have hsame : m.withoutKey lease.key = m := by
      have : (m.expiryMap.filter fun x => x.2.key ≠ lease.key) = m.expiryMap := by
        rw [filter_eq_self]
        intro x hx
        simpa using hkey x hx
      rw [withoutKey,this]
    refine Or.inr ⟨by rw [hsame],?_⟩
    intro r hr hk
    obtain ⟨it,hit⟩ := mem_records.mp hr
    exact absurd hk (hkey _ hit)
  | some x =>
    obtain ⟨hx,hk⟩ := h.indexed_eq_some.mp hidx
    by_cases hnew : newer x.2.toLease lease
    · refine Or.inl ⟨by simp [hnew],x.2,mem_records.mpr ⟨x.1,hx⟩,hk,hnew⟩
    · have hsame : m.eraseIterator x.1 = m.withoutKey lease.key := by
        have : (m.expiryMap.filter fun y => y.1 ≠ x.1) = m.expiryMap.filter fun y => y.2.key ≠ lease.key := by
          apply filter_congr
          intro y hy
          have : y.1 = x.1 ↔ y.2.key = lease.key := by
            constructor
            · intro hit
              rw [inj_on_of_nodup_map h.iterators hy hx hit]
              exact hk
            · intro hyk
              rw [h.unique hy hx (hyk.trans hk.symm)]
          simp [this]
        rw [eraseIterator,withoutKey,this]
      refine Or.inr ⟨by simp [hnew,hsame],?_⟩
      intro r hr hrk
      obtain ⟨it,hit⟩ := mem_records.mp hr
      have : (it, r) = x := h.unique hit hx (hrk.trans hk.symm)
      have hrx : r = x.2 := congrArg Prod.snd this
      rw [hrx]
      exact hnew

theorem mem_records_replace {record r : TtlScheduleRecord} :
    r ∈ ((m.withoutKey record.key).emplace record).records ↔ r = record ∨ (r ∈ m.records ∧ r.key ≠ record.key) := by
  simp only [mem_records,emplace,withoutKey,mem_emplaceOrdered,mem_filter,Prod.mk.injEq]
  constructor
  · rintro ⟨it,⟨_,rfl⟩ | ⟨hmem,hk⟩⟩
    · exact Or.inl rfl
    · exact Or.inr ⟨⟨it,hmem⟩,by simpa using hk⟩
  · rintro (rfl | ⟨⟨it,hmem⟩,hk⟩)
    · exact ⟨m.nextIterator,Or.inl ⟨rfl,rfl⟩⟩
    · exact ⟨it,Or.inr ⟨hmem,by simpa using hk⟩⟩

theorem WellFormed.replace (h : m.WellFormed) (record : TtlScheduleRecord) :
    ((m.withoutKey record.key).emplace record).WellFormed := by
  have hfilter : ∀ x ∈ m.expiryMap.filter (fun x => x.2.key ≠ record.key), x ∈ m.expiryMap ∧ x.2.key ≠ record.key := by
    intro x hx
    simpa using mem_filter.mp hx
  have hmem : ∀ x, x ∈ ((m.withoutKey record.key).emplace record).expiryMap ↔
      x = (m.nextIterator, record) ∨ x ∈ m.expiryMap.filter (fun x => x.2.key ≠ record.key) :=
    fun x => mem_emplaceOrdered
  constructor
  · exact emplaceOrdered_ordered _ (h.ordered.filter _)
  · intro x hx
    show x.1 < m.nextIterator + 1
    rcases (hmem x).mp hx with rfl | hx
    · exact Nat.lt_succ_self _
    · exact Nat.lt_succ_of_lt (h.fresh x (hfilter x hx).1)
  · have hperm := (emplaceOrdered_perm (m.nextIterator, record)
      (m.expiryMap.filter fun x => x.2.key ≠ record.key)).map Prod.fst
    refine hperm.nodup_iff.mpr ?_
    rw [map_cons,nodup_cons]
    refine ⟨?_,h.iterators.sublist (filter_sublist.map Prod.fst)⟩
    intro hin
    obtain ⟨x,hx,hit⟩ := mem_map.mp hin
    have := h.fresh x (hfilter x hx).1
    omega
  · intro x hx
    show lookup Prod.fst x.2.key (upsert Prod.fst (record.key, m.nextIterator) m.expiryIndex) = some (x.2.key, x.1)
    rw [lookup_upsert]
    rcases (hmem x).mp hx with rfl | hx
    · exact if_pos rfl
    · rw [if_neg (hfilter x hx).2]
      exact h.pointed x (hfilter x hx).1
  · intro key e he
    have he' : lookup Prod.fst key (upsert Prod.fst (record.key, m.nextIterator) m.expiryIndex) = some e := he
    rw [lookup_upsert] at he'
    by_cases hk : key = record.key
    · rw [if_pos hk,Option.some.injEq] at he'
      subst he' hk
      exact ⟨record,(hmem _).mpr (Or.inl rfl),rfl⟩
    · rw [if_neg hk] at he'
      obtain ⟨r,hr,hrk⟩ := h.linked key e he'
      refine ⟨r,(hmem _).mpr (Or.inr (mem_filter.mpr ⟨hr,?_⟩)),hrk⟩
      simpa [hrk] using hk

theorem WellFormed.schedule (h : m.WellFormed) (now : Int) (lease : Lease) (ttlMs : Int) :
    (m.schedule now lease ttlMs).WellFormed := by
  by_cases httl : 0 < ttlMs
  · rcases h.schedule_cases now lease httl with ⟨heq,_⟩ | ⟨heq,_⟩
    · rw [heq]
      exact h
    · rw [heq]
      exact h.replace ⟨lease,now + ttlMs⟩
  · rw [TtlManager.schedule,if_pos (by omega)]
    exact h

theorem WellFormed.popFront (h : m.WellFormed) {it : Nat} {record : TtlScheduleRecord}
    {rest : List (Nat × TtlScheduleRecord)} (hmap : m.expiryMap = (it, record) :: rest) :
    (m.popFront it record rest).WellFormed := by
  have hrest : ∀ x ∈ rest, x ∈ m.expiryMap := by
    intro x hx
    rw [hmap]
    exact mem_cons_of_mem _ hx
  have hfront : (it, record) ∈ m.expiryMap := by
    rw [hmap]
    exact mem_cons_self
  have hnodup : it ∉ rest.map Prod.fst ∧ (rest.map Prod.fst).Nodup := by
    have := h.iterators
    rw [hmap,map_cons,nodup_cons] at this
    exact this
  have hother : ∀ x ∈ rest, x.2.key ≠ record.key := by
    intro x hx hk
    have : x = (it, record) := h.unique (hrest x hx) hfront hk
    exact hnodup.1 (mem_map.mpr ⟨x,hx,by rw [this]⟩)
  have hindex : (m.popFront it record rest).expiryIndex =
      remove Prod.fst record.key m.expiryIndex := if_pos (h.pointed _ hfront)
  constructor
  · have := h.ordered
    rw [hmap] at this
    exact (pairwise_cons.mp this).2
  · exact fun x hx => h.fresh x (hrest x hx)
  · exact hnodup.2
  · intro x hx
    rw [hindex,lookup_remove,if_neg (hother x hx)]
    exact h.pointed x (hrest x hx)
  · intro key e he
    rw [hindex,lookup_remove] at he
    by_cases hk : key = record.key
    · rw [if_pos hk] at he
      cases he
    · rw [if_neg hk] at he
      obtain ⟨r,hr,hrk⟩ := h.linked key e he
      rw [hmap,mem_cons] at hr
      rcases hr with heq | hr
      · have : r = record := congrArg Prod.snd heq
        exact absurd (hrk.symm.trans (congrArg (fun r => r.key) this)) hk
      · exact ⟨r,hr,hrk⟩

/-- One expiration check splits the map at the front: the popped part has expired, and the check
stops at its budget, at the end of the map or at a record that has not expired. -/
theorem popExpired_split (now : Int) (budget : Nat) (m : TtlManager) :
    ∃ front, m.expiryMap = front ++ (popExpired now budget m).2.expiryMap ∧
      (popExpired now budget m).1 = front.map (fun x => x.2.toLease) ∧
      (∀ x ∈ front, x.2.expireTime ≤ now) ∧
      (front.length = budget ∨ ∀ x, (popExpired now budget m).2.expiryMap.head? = some x → now < x.2.expireTime) := by
  induction budget generalizing m with
  | zero => exact ⟨[],rfl,rfl,by simp,Or.inl rfl⟩
  | succ budget ih =>
    unfold popExpired
    split
    · rename_i hmap
      exact ⟨[],by simp [hmap],rfl,by simp,Or.inr (by simp [hmap])⟩
    · rename_i it record rest hmap
      split
      · rename_i hexpired
        obtain ⟨front,hsplit,hpopped,hall,hstop⟩ := ih (m.popFront it record rest)
        refine ⟨(it, record) :: front,?_,?_,?_,?_⟩
        · rw [hmap,cons_append,← hsplit]
          rfl
        · rw [map_cons,← hpopped]
        · intro x hx
          rcases mem_cons.mp hx with rfl | hx
          · exact hexpired
          · exact hall x hx
        · rcases hstop with hlen | hhead
          · exact Or.inl (by simp [hlen])
          · exact Or.inr hhead
      · rename_i hlive
        refine ⟨[],rfl,rfl,by simp,Or.inr ?_⟩
        intro x hx
        rw [hmap,head?_cons,Option.some.injEq] at hx
        subst hx
        exact Int.not_le.mp hlive

theorem WellFormed.popExpired (h : m.WellFormed) (now : Int) (budget : Nat) :
    (popExpired now budget m).2.WellFormed := by
  induction budget generalizing m with
  | zero => exact h
  | succ budget ih =>
    unfold TtlManager.popExpired
    split
    · exact h
    · rename_i it record rest hmap
      split
      · exact ih (h.popFront hmap)
      · exact h

end TtlManager

end Datasystem.Coordinator
