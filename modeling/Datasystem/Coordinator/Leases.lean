import Datasystem.Coordinator.TtlManager

/-!
# Leases across all interleavings

The store, the TTL manager, the calls that have committed but not yet scheduled, and the popped leases whose
callbacks are still to run form one machine.
-/

namespace Datasystem.Coordinator

open Keyed MemoryKvStore TtlManager List MemoryKvStore

/-- `pending` are the schedules of committed calls, `expired` the leases the expiration thread has
popped and not yet handed to its callback. -/
structure LeaseState where
  store : MemoryKvStore
  ttl : TtlManager
  pending : List (Lease × Int)
  expired : List Lease

inductive LeaseAction where
  | put (req : PutRequest)
  | keepAlive (key : Bytes) (expectedModRevision : Int)
  | delete (req : DeleteRequest)
  | schedule (i : Nat) (now : Int)
  | checkExpiration (now : Int)
  | expireCallback
deriving DecidableEq, Repr

def putSchedule (req : PutRequest) (out : PutOutput) : List (Lease × Int) :=
  if 0 < req.ttlMs then [(⟨req.key,out.revision,out.ttlGeneration⟩, req.ttlMs)] else []

def keepAliveSchedule (key : Bytes) (out : KeepAliveOutput) : List (Lease × Int) :=
  [(⟨key,out.revision,out.ttlGeneration⟩, out.ttlMs)]

def leaseStep (st : LeaseState) : LeaseAction → Option LeaseState
  | .put req =>
    let o := st.store.put req
    some { st with store := o.store, pending := st.pending ++ (o.output.map (putSchedule req)).getD [] }
  | .keepAlive key expectedModRevision =>
    let o := st.store.keepAlive key expectedModRevision
    some { st with
      store := o.store
      pending := st.pending ++ (o.output.map (keepAliveSchedule key)).getD [] }
  | .delete req => some { st with store := (st.store.delete req).store }
  | .schedule i now =>
    (st.pending[i]?).map fun call =>
      { st with ttl := st.ttl.schedule now call.1 call.2, pending := st.pending.eraseIdx i }
  | .checkExpiration now =>
    -- one expiration thread: it checks again only after its last callback
    if st.expired.isEmpty then
      let popped := popExpired now maxExpiredKeysPerCheck st.ttl
      some { st with ttl := popped.2, expired := popped.1 }
    else none
  | .expireCallback =>
    match st.expired with
    | [] => none
    | lease :: rest =>
      some { st with
        store := (st.store.deleteIfTtlExpired lease.key lease.revision lease.ttlGeneration).store
        expired := rest }

def leaseMachine : Machine LeaseState LeaseAction where
  init := ⟨.empty,.empty,[],[]⟩
  step := leaseStep

def ValueEntry.lease (key : Bytes) (entry : ValueEntry) : Lease := ⟨key,entry.modRevision,entry.ttlGeneration⟩

/-- A lease is not newer than the entry of its key, and its revision has been issued. -/
def Lease.NotAfter (lease : Lease) (s : MemoryKvStore) : Prop :=
  lease.revision ≤ s.revision ∧
    ∀ entry, s.find lease.key = some entry → ¬ newer lease (entry.lease lease.key)

/-- The places where the current lease of a key may be. -/
def Covered (st : LeaseState) (lease : Lease) : Prop :=
  lease ∈ st.pending.map Prod.fst ∨ (∃ r ∈ st.ttl.records, r.toLease = lease) ∨ lease ∈ st.expired

structure LeaseInv (st : LeaseState) : Prop where
  wellFormed : st.ttl.WellFormed
  positive : ∀ call ∈ st.pending, 0 < call.2
  stamped : ∀ k entry, st.store.find k = some entry → entry.modRevision ≤ st.store.revision
  pending_notAfter : ∀ call ∈ st.pending, call.1.NotAfter st.store
  record_notAfter : ∀ r ∈ st.ttl.records, r.toLease.NotAfter st.store
  covered : ∀ k entry, st.store.find k = some entry → 0 < entry.ttlMs → Covered st (entry.lease k)

/-- A store change as the leases see it: an entry is kept, dropped, or given a lease that is newer
than all leases of its key. -/
structure LeaseStep (s s' : MemoryKvStore) (key : Bytes) (entry' : Option ValueEntry) : Prop where
  revision_le : s.revision ≤ s'.revision
  find_other : ∀ k entry, k ≠ key → s'.find k = some entry → s.find k = some entry
  find_key : s'.find key = entry'
  stamped : ∀ entry, entry' = some entry → entry.modRevision ≤ s'.revision
  newer : ∀ entry, entry' = some entry → ∀ lease : Lease, lease.key = key → lease.NotAfter s →
    ¬ TtlManager.newer lease (entry.lease key)

theorem not_newer_self (lease : Lease) : ¬ newer lease lease := by
  rw [newer_iff]
  omega

variable {lease : Lease}

theorem LeaseStep.notAfter {s s' : MemoryKvStore} {key : Bytes} {entry' : Option ValueEntry}
    (h : LeaseStep s s' key entry') (hl : lease.NotAfter s) : lease.NotAfter s' := by
  refine ⟨Int.le_trans hl.1 h.revision_le,?_⟩
  intro entry hfind
  by_cases hk : lease.key = key
  · rw [hk,h.find_key] at hfind
    rw [hk]
    exact h.newer entry hfind lease hk hl
  · exact hl.2 entry (h.find_other _ _ hk hfind)

theorem put_leaseStep (s : MemoryKvStore) (req : PutRequest) (hok : (s.checkPut req).isOk) :
    LeaseStep s (s.put req).store req.key (some (putEntry (s.find req.key) req (s.revision + 1))) := by
  have hput : (s.put req).store =
      s.store req.key (putEntry (s.find req.key) req (s.revision + 1)) (s.revision + 1) := by
    simp [put,hok]
  have hmod : (putEntry (s.find req.key) req (s.revision + 1)).modRevision = s.revision + 1 := by
    cases s.find req.key <;> rfl
  rw [hput]
  constructor
  · rw [store_revision]
    omega
  · intro k entry hk hfind
    rwa [find_store,if_neg hk] at hfind
  · rw [find_store,if_pos rfl]
  · intro entry hentry
    cases hentry
    rw [hmod,store_revision]
  · intro entry hentry lease _ hl
    cases hentry
    have hle := hl.1
    rw [newer_iff]
    simp only [ValueEntry.lease,hmod]
    omega

theorem keepAlive_leaseStep (s : MemoryKvStore) (key : Bytes) (entry : ValueEntry)
    (hfind : s.find key = some entry) (hstamp : entry.modRevision ≤ s.revision) :
    LeaseStep s (s.store key { entry with ttlGeneration := entry.ttlGeneration + 1 } s.revision) key
      (some { entry with ttlGeneration := entry.ttlGeneration + 1 }) := by
  constructor
  · rw [store_revision]
  · intro k entry' hk hf
    rwa [find_store,if_neg hk] at hf
  · rw [find_store,if_pos rfl]
  · intro entry' hentry
    cases hentry
    exact hstamp
  · intro entry' hentry lease hkey hl
    cases hentry
    have hold := hl.2 entry (hkey ▸ hfind)
    rw [newer_iff] at hold ⊢
    simp only [ValueEntry.lease] at hold ⊢
    omega

theorem eraseAll_notAfter {s : MemoryKvStore} (hl : lease.NotAfter s) (keys : List Bytes) {revision : Int}
    (hrev : s.revision ≤ revision) : lease.NotAfter (s.eraseAll keys revision) := by
  refine ⟨Int.le_trans hl.1 hrev,?_⟩
  intro entry hfind
  rw [find_eraseAll] at hfind
  split_ifs at hfind
  exact hl.2 entry hfind

variable {st : LeaseState} (hinv : LeaseInv st)

include hinv

/-- Committing a new lease for a key and queueing its schedule keeps the invariant; a lease
without TTL needs no schedule. -/
theorem LeaseInv.commit {s' : MemoryKvStore} {key : Bytes} {entry' : ValueEntry}
    (hstep : LeaseStep st.store s' key (some entry')) (calls : List (Lease × Int))
    (hcalls : ∀ call ∈ calls, call.1 = entry'.lease key ∧ 0 < call.2)
    (httl : 0 < entry'.ttlMs → entry'.lease key ∈ calls.map Prod.fst) :
    LeaseInv { st with store := s', pending := st.pending ++ calls } := by
  have hnew : (entry'.lease key).NotAfter s' := by
    refine ⟨hstep.stamped entry' rfl,?_⟩
    intro entry hfind
    have : entry' = entry := Option.some.inj (hstep.find_key.symm.trans hfind)
    rw [this]
    exact not_newer_self _
  constructor
  · exact hinv.wellFormed
  · intro call hcall
    rcases mem_append.mp hcall with h | h
    · exact hinv.positive call h
    · exact (hcalls call h).2
  · intro k entry hfind
    by_cases hk : k = key
    · exact hstep.stamped entry (hstep.find_key.symm.trans (hk ▸ hfind))
    · exact Int.le_trans (hinv.stamped k entry (hstep.find_other k entry hk hfind)) hstep.revision_le
  · intro call hcall
    rcases mem_append.mp hcall with h | h
    · exact hstep.notAfter (hinv.pending_notAfter call h)
    · rw [(hcalls call h).1]
      exact hnew
  · exact fun r hr => hstep.notAfter (hinv.record_notAfter r hr)
  · intro k entry hfind hpos
    by_cases hk : k = key
    · subst hk
      have : entry' = entry := Option.some.inj (hstep.find_key.symm.trans hfind)
      subst this
      exact Or.inl (by rw [map_append]; exact mem_append_right _ (httl hpos))
    · rcases hinv.covered k entry (hstep.find_other k entry hk hfind) hpos with h | h | h
      · exact Or.inl (by rw [map_append]; exact mem_append_left _ h)
      · exact Or.inr (Or.inl h)
      · exact Or.inr (Or.inr h)

theorem put_inv (req : PutRequest) : LeaseInv { st with
      store := (st.store.put req).store
      pending := st.pending ++ ((st.store.put req).output.map (putSchedule req)).getD [] } := by
  by_cases hok : (st.store.checkPut req).isOk
  · have hstep := put_leaseStep st.store req hok
    have hmod : (putEntry (st.store.find req.key) req (st.store.revision + 1)).modRevision = st.store.revision + 1 := by
      cases st.store.find req.key <;> rfl
    have hms : (putEntry (st.store.find req.key) req (st.store.revision + 1)).ttlMs = req.ttlMs := by
      cases st.store.find req.key <;> rfl
    have hout : (st.store.put req).output = some
        ⟨(putEntry (st.store.find req.key) req (st.store.revision + 1)).version,st.store.revision + 1,
          (putEntry (st.store.find req.key) req (st.store.revision + 1)).ttlGeneration⟩ := by
      simp [put,hok]
    rw [hout,Option.map_some,Option.getD_some]
    refine hinv.commit hstep _ ?_ ?_
    · intro call hcall
      unfold putSchedule at hcall
      split at hcall
      · rename_i hpos
        obtain rfl := mem_singleton.mp hcall
        exact ⟨by simp [ValueEntry.lease,hmod],hpos⟩
      · cases hcall
    · intro hpos
      rw [hms] at hpos
      simp [putSchedule,hpos,ValueEntry.lease,hmod]
  · have hstore : (st.store.put req).store = st.store := by simp [put,hok]
    have hout : (st.store.put req).output = none := by simp [put,hok]
    rw [hstore,hout,Option.map_none,Option.getD_none,append_nil]
    exact hinv

theorem keepAlive_inv (key : Bytes) (expectedModRevision : Int) : LeaseInv { st with
      store := (st.store.keepAlive key expectedModRevision).store
      pending := st.pending ++
        ((st.store.keepAlive key expectedModRevision).output.map (keepAliveSchedule key)).getD [] } := by
  have hsame : LeaseInv { st with store := st.store, pending := st.pending ++ [] } := by
    rw [append_nil]
    exact hinv
  unfold keepAlive
  split
  · exact hsame
  · rename_i entry hfind
    split
    · exact hsame
    · rename_i hpos
      split
      · exact hsame
      · refine hinv.commit (keepAlive_leaseStep st.store key entry hfind (hinv.stamped _ _ hfind)) _
          ?_ ?_
        · intro call hcall
          obtain rfl := mem_singleton.mp hcall
          exact ⟨rfl,Int.not_le.mp hpos⟩
        · exact fun _ => mem_singleton.mpr rfl

theorem LeaseInv.eraseAll (keys : List Bytes) {revision : Int}
    (hrev : st.store.revision ≤ revision) : LeaseInv { st with store := st.store.eraseAll keys revision } := by
  have hold : ∀ k entry, (st.store.eraseAll keys revision).find k = some entry → st.store.find k = some entry := by
    intro k entry hfind
    rw [find_eraseAll] at hfind
    split_ifs at hfind
    exact hfind
  constructor
  · exact hinv.wellFormed
  · exact hinv.positive
  · exact fun k entry hfind => Int.le_trans (hinv.stamped k entry (hold k entry hfind)) hrev
  · exact fun call hcall => eraseAll_notAfter (hinv.pending_notAfter call hcall) keys hrev
  · exact fun r hr => eraseAll_notAfter (hinv.record_notAfter r hr) keys hrev
  · exact fun k entry hfind hpos => hinv.covered k entry (hold k entry hfind) hpos

theorem delete_inv (req : DeleteRequest) : LeaseInv { st with store := (st.store.delete req).store } := by
  unfold delete
  split
  · exact hinv
  · split
    · exact hinv
    · split
      · exact hinv
      · exact hinv.eraseAll _ (Int.le_of_lt (Int.lt_succ _))

omit hinv

theorem mem_of_mem_eraseIdx_or {α : Type} {l : List α} {i : Nat} {x y : α} (hi : l[i]? = some y)
    (hx : x ∈ l) : x = y ∨ x ∈ l.eraseIdx i := by
  induction l generalizing i with
  | nil => cases hx
  | cons a l ih =>
    cases i with
    | zero =>
      obtain rfl : a = y := by simpa using hi
      simpa using hx
    | succ i =>
      rcases mem_cons.mp hx with rfl | hx
      · exact Or.inr mem_cons_self
      · rcases ih (by simpa using hi) hx with h | h
        · exact Or.inl h
        · exact Or.inr (mem_cons_of_mem _ h)

variable {entry : ValueEntry}

/-- Of two leases of a live key that are both not after its entry, only the entry's own lease can
be at least as new as the entry's own lease. -/
theorem eq_of_not_newer {s : MemoryKvStore} {k : Bytes} (hfind : s.find k = some entry) (hkey : lease.key = k)
    (hle : lease.NotAfter s) (hge : ¬ newer (entry.lease k) lease) : lease = entry.lease k := by
  have hle' := hle.2 entry (hkey ▸ hfind)
  obtain ⟨key,revision,gen⟩ := lease
  simp only at hkey
  subst hkey
  rw [newer_iff] at hle' hge
  simp only [ValueEntry.lease] at hle' hge
  have hrev : revision = entry.modRevision := by omega
  have hgen : gen = entry.ttlGeneration := by omega
  rw [hrev,hgen]
  rfl

theorem schedule_inv (hinv : LeaseInv st) {i : Nat} {call : Lease × Int} (hcall : st.pending[i]? = some call)
    (now : Int) : LeaseInv { st with ttl := st.ttl.schedule now call.1 call.2, pending := st.pending.eraseIdx i } := by
  have hmem : call ∈ st.pending := mem_of_getElem? hcall
  have hcases := hinv.wellFormed.schedule_cases now call.1 (hinv.positive call hmem)
  constructor
  · exact hinv.wellFormed.schedule now call.1 call.2
  · exact fun c hc => hinv.positive c (mem_of_mem_eraseIdx hc)
  · exact hinv.stamped
  · exact fun c hc => hinv.pending_notAfter c (mem_of_mem_eraseIdx hc)
  · intro r hr
    rcases hcases with ⟨heq,_⟩ | ⟨heq,_⟩
    · rw [heq] at hr
      exact hinv.record_notAfter r hr
    · rw [heq] at hr
      rcases mem_records_replace.mp hr with rfl | ⟨hr,_⟩
      · exact hinv.pending_notAfter call hmem
      · exact hinv.record_notAfter r hr
  · intro k entry hfind hpos
    rcases hinv.covered k entry hfind hpos with h | ⟨r,hr,hlease⟩ | h
    · obtain ⟨c,hc,hlease⟩ := mem_map.mp h
      rcases mem_of_mem_eraseIdx_or hcall hc with rfl | hrest
      · -- the current lease itself is scheduled: no record can be newer
        rcases hcases with ⟨_,r,hr,hrk,hnew⟩ | ⟨heq,_⟩
        · rw [hlease] at hrk hnew
          have hle := (hinv.record_notAfter r hr).2 entry (by rw [hrk]; exact hfind)
          rw [hrk] at hle
          exact absurd hnew hle
        · refine Or.inr (Or.inl ⟨⟨c.1,now + c.2⟩,?_,hlease⟩)
          rw [heq]
          exact mem_records_replace.mpr (Or.inl rfl)
      · exact Or.inl (mem_map.mpr ⟨c,hrest,hlease⟩)
    · rcases hcases with ⟨heq,_⟩ | ⟨heq,hno⟩
      · exact Or.inr (Or.inl ⟨r,by rw [heq]; exact hr,hlease⟩)
      · by_cases hk : r.key = call.1.key
        · -- the record of the current lease is replaced by a schedule that is not older
          have hkey : call.1.key = k := by
            rw [← hk]
            exact congrArg Lease.key hlease
          have hsame : call.1 = entry.lease k := eq_of_not_newer hfind hkey (hinv.pending_notAfter call hmem)
              (by rw [← hlease]; exact hno r hr hk)
          refine Or.inr (Or.inl ⟨⟨call.1,now + call.2⟩,?_,hsame⟩)
          rw [heq]
          exact mem_records_replace.mpr (Or.inl rfl)
        · refine Or.inr (Or.inl ⟨r,?_,hlease⟩)
          rw [heq]
          exact mem_records_replace.mpr (Or.inr ⟨hr,hk⟩)
    · exact Or.inr (Or.inr h)

theorem checkExpiration_inv (hinv : LeaseInv st) (hidle : st.expired = []) (now : Int) (budget : Nat) :
    LeaseInv { st with ttl := (popExpired now budget st.ttl).2
                       expired := (popExpired now budget st.ttl).1 } := by
  obtain ⟨front,hsplit,hpopped,_,_⟩ := popExpired_split now budget st.ttl
  constructor
  · exact hinv.wellFormed.popExpired now budget
  · exact hinv.positive
  · exact hinv.stamped
  · exact hinv.pending_notAfter
  · intro r hr
    obtain ⟨it,hit⟩ := mem_records.mp hr
    exact hinv.record_notAfter r (mem_records.mpr ⟨it,by rw [hsplit]; exact mem_append_right _ hit⟩)
  · intro k entry hfind hpos
    rcases hinv.covered k entry hfind hpos with h | ⟨r,hr,hlease⟩ | h
    · exact Or.inl h
    · obtain ⟨it,hit⟩ := mem_records.mp hr
      rw [hsplit] at hit
      rcases mem_append.mp hit with hit | hit
      · refine Or.inr (Or.inr ?_)
        rw [hpopped]
        exact mem_map.mpr ⟨(it, r),hit,hlease⟩
      · exact Or.inr (Or.inl ⟨r,mem_records.mpr ⟨it,hit⟩,hlease⟩)
    · rw [hidle] at h
      cases h

/-- The callback removes a key exactly when it is called for the key's current lease. -/
theorem find_deleteIfTtlExpired (s : MemoryKvStore) (lease : Lease) (k : Bytes) :
    (s.deleteIfTtlExpired lease.key lease.revision lease.ttlGeneration).store.find k =
      match s.find k with
      | some entry => if 0 < entry.ttlMs ∧ entry.lease k = lease then none else some entry
      | none => none := by
  have hskip : (∀ entry, s.find lease.key = some entry → ¬ (0 < entry.ttlMs ∧ entry.lease lease.key = lease)) →
      s.find k = match s.find k with
        | some entry => if 0 < entry.ttlMs ∧ entry.lease k = lease then none else some entry
        | none => none := by
    intro hno
    cases hfind : s.find k with
    | none => rfl
    | some entry =>
      have : ¬ (0 < entry.ttlMs ∧ entry.lease k = lease) := by
        rintro ⟨hpos,hlease⟩
        have hk : k = lease.key := congrArg Lease.key hlease
        exact hno entry (hk ▸ hfind) ⟨hpos,hk ▸ hlease⟩
      simp only [this,if_false]
  unfold deleteIfTtlExpired
  split
  · rename_i hnone
    exact hskip (by simp [hnone])
  · rename_i entry hfind
    split
    · rename_i hmod
      refine hskip ?_
      rw [hfind]
      rintro e he ⟨_,hlease⟩
      cases he
      exact hmod (congrArg Lease.revision hlease)
    · split
      · rename_i hgen
        refine hskip ?_
        rw [hfind]
        rintro e he ⟨hpos,hlease⟩
        cases he
        rcases hgen with hle | hgen
        · omega
        · exact hgen (congrArg Lease.ttlGeneration hlease)
      · rename_i hmod hcur
        simp only [not_or,not_le,ne_eq,not_not] at hmod hcur
        have hlease : entry.lease lease.key = lease := by
          simp [ValueEntry.lease,hmod,hcur.2]
        rw [find_eraseAll]
        by_cases hk : k = lease.key
        · subst hk
          simp [hfind,hlease,hcur.1]
        · rw [if_neg (by simpa using hk)]
          cases hf : s.find k with
          | none => rfl
          | some e =>
            have : ¬ (0 < e.ttlMs ∧ e.lease k = lease) := fun h => hk (congrArg Lease.key h.2)
            simp only [this,if_false]

theorem expireCallback_inv (hinv : LeaseInv st) {rest : List Lease} (hexpired : st.expired = lease :: rest) :
    LeaseInv { st with
      store := (st.store.deleteIfTtlExpired lease.key lease.revision lease.ttlGeneration).store
      expired := rest } := by
  have hrev := (deleteIfTtlExpired_spec st.store lease.key lease.revision lease.ttlGeneration).revision_le
  have hfind := find_deleteIfTtlExpired st.store lease
  have hold : ∀ k entry, (st.store.deleteIfTtlExpired lease.key lease.revision lease.ttlGeneration).store.find k =
        some entry → st.store.find k = some entry ∧ ¬ (0 < entry.ttlMs ∧ entry.lease k = lease) := by
    intro k entry h
    rw [hfind] at h
    split at h
    · rename_i e he
      split_ifs at h with hno
      cases h
      exact ⟨he,hno⟩
    · cases h
  have hafter : ∀ l : Lease, l.NotAfter st.store → l.NotAfter
      (st.store.deleteIfTtlExpired lease.key lease.revision lease.ttlGeneration).store :=
    fun l hl => ⟨Int.le_trans hl.1 hrev,fun entry h => hl.2 entry (hold _ _ h).1⟩
  constructor
  · exact hinv.wellFormed
  · exact hinv.positive
  · exact fun k entry h => Int.le_trans (hinv.stamped k entry (hold k entry h).1) hrev
  · exact fun call hcall => hafter _ (hinv.pending_notAfter call hcall)
  · exact fun r hr => hafter _ (hinv.record_notAfter r hr)
  · intro k entry h hpos
    obtain ⟨hf,hno⟩ := hold k entry h
    rcases hinv.covered k entry hf hpos with hc | hc | hc
    · exact Or.inl hc
    · exact Or.inr (Or.inl hc)
    · rw [hexpired] at hc
      rcases mem_cons.mp hc with heq | hc
      · exact absurd ⟨hpos,heq⟩ hno
      · exact Or.inr (Or.inr hc)

theorem leaseStep_inv {st st' : LeaseState} {a : LeaseAction} (hinv : LeaseInv st)
    (h : leaseStep st a = some st') : LeaseInv st' := by
  cases a with
  | put req =>
    cases h
    exact put_inv hinv req
  | keepAlive key expectedModRevision =>
    cases h
    exact keepAlive_inv hinv key expectedModRevision
  | delete req =>
    cases h
    exact delete_inv hinv req
  | schedule i now =>
    obtain ⟨call,hcall,rfl⟩ := Option.map_eq_some_iff.mp h
    exact schedule_inv hinv hcall now
  | checkExpiration now =>
    simp only [leaseStep] at h
    split_ifs at h with hidle
    cases h
    exact checkExpiration_inv hinv (List.isEmpty_iff.mp hidle) now _
  | expireCallback =>
    simp only [leaseStep] at h
    split at h
    · cases h
    · rename_i lease rest hexpired
      cases h
      exact expireCallback_inv hinv hexpired

theorem reachable_leaseInv (h : leaseMachine.Reachable st) : LeaseInv st := by
  refine h.invariant ?_ fun s a s' hinv hstep => leaseStep_inv hinv hstep
  constructor
  · exact empty_wellFormed
  · simp [leaseMachine]
  · exact fun k entry hfind => by cases hfind
  · simp [leaseMachine]
  · simp [leaseMachine,records,TtlManager.empty]
  · exact fun k entry hfind => by cases hfind

/-- Running all callbacks of the last check removes exactly the keys whose current lease was
popped. -/
theorem run_callbacks (st : LeaseState) :
    ∃ st', leaseMachine.run st (List.replicate st.expired.length .expireCallback) = some st' ∧
      st'.ttl = st.ttl ∧ st'.pending = st.pending ∧ st'.expired = [] ∧
      ∀ k, st'.store.find k =
        match st.store.find k with
        | some entry => if 0 < entry.ttlMs ∧ entry.lease k ∈ st.expired then none else some entry
        | none => none := by
  obtain ⟨store,ttl,pending,expired⟩ := st
  induction expired generalizing store with
  | nil =>
    refine ⟨⟨store,ttl,pending,[]⟩,rfl,rfl,rfl,rfl,?_⟩
    intro k
    cases store.find k <;> simp
  | cons lease rest ih =>
    obtain ⟨st',hrun,httl,hpending,hexpired,hfind⟩ :=
      ih (store.deleteIfTtlExpired lease.key lease.revision lease.ttlGeneration).store
    refine ⟨st',?_,httl,hpending,hexpired,?_⟩
    · rw [length_cons,replicate_succ,Machine.run]
      exact hrun
    · intro k
      rw [hfind k,find_deleteIfTtlExpired]
      cases store.find k with
      | none => rfl
      | some entry =>
        by_cases hpos : 0 < entry.ttlMs
        · by_cases hl : entry.lease k = lease
          · simp [hpos,hl]
          · simp [hpos,hl]
        · simp [hpos]

def Quiescent (st : LeaseState) : Prop := st.pending = [] ∧ st.expired = []

/-- With nothing in flight, the map holds exactly one record of a live key with a TTL. -/
theorem LeaseInv.record_of_quiescent (hinv : LeaseInv st) (hq : Quiescent st) {k : Bytes}
    (hfind : st.store.find k = some entry) (hpos : 0 < entry.ttlMs) :
    ∃ x, (st.ttl.expiryMap.filter fun x => x.2.key = k) = [x] ∧ x.2.toLease = entry.lease k := by
  have hrecord : ∃ r ∈ st.ttl.records, r.toLease = entry.lease k := by
    rcases hinv.covered k entry hfind hpos with h | h | h
    · rw [hq.1] at h
      cases h
    · exact h
    · rw [hq.2] at h
      cases h
  obtain ⟨r,hr,hlease⟩ := hrecord
  obtain ⟨it,hit⟩ := mem_records.mp hr
  have hkey : r.key = k := congrArg Lease.key hlease
  refine ⟨(it, r),?_,hlease⟩
  have hall : ∀ y ∈ st.ttl.expiryMap.filter (fun x => x.2.key = k), y = (it, r) := by
    intro y hy
    obtain ⟨hmem,hyk⟩ := mem_filter.mp hy
    exact hinv.wellFormed.unique hmem hit ((of_decide_eq_true hyk).trans hkey.symm)
  have hnodup : (st.ttl.expiryMap.filter fun x => x.2.key = k).Nodup :=
    (List.Nodup.of_map Prod.fst hinv.wellFormed.iterators).filter _
  have hmem : (it, r) ∈ st.ttl.expiryMap.filter fun x => x.2.key = k := mem_filter.mpr ⟨hit,decide_eq_true hkey⟩
  have hreplicate := eq_replicate_of_mem hall
  rw [hreplicate] at hnodup hmem ⊢
  have hle := nodup_replicate.mp hnodup
  have hpos := (mem_replicate.mp hmem).1
  have hone : (st.ttl.expiryMap.filter fun x => x.2.key = k).length = 1 := by omega
  rw [hone]
  rfl

/-- One expiration check at `now` followed by all its callbacks: records leave the map from the
front, and the keys whose current lease is among them are removed. -/
theorem check_round (hidle : st.expired = []) (now : Int) :
    ∃ front st' actions, (∀ a ∈ actions, a = .checkExpiration now ∨ a = .expireCallback) ∧
      leaseMachine.run st actions = some st' ∧
      st.ttl.expiryMap = front ++ st'.ttl.expiryMap ∧ st'.pending = st.pending ∧
      st'.expired = [] ∧
      (front.length = maxExpiredKeysPerCheck ∨
        ∀ x, st'.ttl.expiryMap.head? = some x → now < x.2.expireTime) ∧
      ∀ k entry, st.store.find k = some entry → 0 < entry.ttlMs →
        st'.store.find k =
          if entry.lease k ∈ front.map (fun x => x.2.toLease) then none else some entry := by
  obtain ⟨front,hsplit,hpopped,_,hstop⟩ := popExpired_split now maxExpiredKeysPerCheck st.ttl
  let checked : LeaseState :=
    { st with ttl := (popExpired now maxExpiredKeysPerCheck st.ttl).2
              expired := (popExpired now maxExpiredKeysPerCheck st.ttl).1 }
  have hcheck : leaseStep st (.checkExpiration now) = some checked := by
    simp [leaseStep,hidle,checked]
  obtain ⟨st',hrun,httl,hpending,hexpired,hstore⟩ := run_callbacks checked
  refine ⟨front,st',.checkExpiration now ::
    List.replicate checked.expired.length .expireCallback,?_,?_,?_,hpending,hexpired,?_,?_⟩
  · intro a ha
    rcases mem_cons.mp ha with rfl | ha
    · exact Or.inl rfl
    · exact Or.inr (mem_replicate.mp ha).2
  · show (leaseStep st (.checkExpiration now)).bind _ = _
    rw [hcheck]
    exact hrun
  · rw [httl]
    exact hsplit
  · rw [httl]
    exact hstop
  · intro k entry hfind hpos
    have hk := hstore k
    have hchecked : checked.store.find k = some entry := hfind
    have hexp : checked.expired = front.map fun x => x.2.toLease := hpopped
    rw [hchecked,hexp] at hk
    rw [hk]
    exact if_congr (and_iff_right hpos) rfl rfl

/-- A live key with a TTL is gone after finitely many checks at a time its record has reached,
each followed by its callbacks. -/
theorem LeaseInv.lease_expires (hinv : LeaseInv st) (hq : Quiescent st) {k : Bytes}
    (hfind : st.store.find k = some entry) (hpos : 0 < entry.ttlMs) {x : Nat × TtlScheduleRecord}
    (hx : x ∈ st.ttl.expiryMap) (hlease : x.2.toLease = entry.lease k) {now : Int} (hnow : x.2.expireTime ≤ now) :
    ∃ actions st', (∀ a ∈ actions, a = .checkExpiration now ∨ a = .expireCallback) ∧
      leaseMachine.run st actions = some st' ∧ st'.store.find k = none := by
  -- every round removes at least the first record, so the map shrinks until it is the key's turn
  induction hn : st.ttl.expiryMap.length using Nat.strong_induction_on generalizing st with
  | _ n ih =>
    obtain ⟨front,st',round,hround,hrun,hsplit,hpending,hexpired,hstop,hstore⟩ := check_round hq.2 now
    have hfind' := hstore k entry hfind hpos
    by_cases hturn : entry.lease k ∈ front.map fun x => x.2.toLease
    · rw [if_pos hturn] at hfind'
      exact ⟨round,st',hround,hrun,hfind'⟩
    · rw [if_neg hturn] at hfind'
      have hrest : x ∈ st'.ttl.expiryMap := by
        rw [hsplit] at hx
        rcases mem_append.mp hx with hmem | hmem
        · exact absurd (mem_map.mpr ⟨x,hmem,hlease⟩) hturn
        · exact hmem
      have hfront : 0 < front.length := by
        rcases hstop with hlen | hhead
        · rw [hlen]
          decide
        · -- an empty front would leave the expired record behind one that is not expired
          by_contra hzero
          have hnil : front = [] := eq_nil_of_length_eq_zero (by omega)
          rw [hnil,nil_append] at hsplit
          have hord := hinv.wellFormed.ordered
          rw [hsplit] at hord
          cases hmap : st'.ttl.expiryMap with
          | nil =>
            rw [hmap] at hrest
            cases hrest
          | cons y ys =>
            have hy := hhead y (by rw [hmap]; rfl)
            rw [hmap] at hrest hord
            rcases mem_cons.mp hrest with rfl | hrest
            · omega
            · have := (pairwise_cons.mp hord).1 x hrest
              omega
      have hshrink : st'.ttl.expiryMap.length < n := by
        rw [← hn,hsplit,length_append]
        omega
      have hinv' : LeaseInv st' := Machine.run_invariant (m := leaseMachine)
        (fun _ _ _ h hs => leaseStep_inv h hs) hinv hrun
      obtain ⟨actions,st'',hall,hrun',hgone⟩ := ih _ hshrink hinv' ⟨hpending.trans hq.1,hexpired⟩ hfind' hrest rfl
      refine ⟨round ++ actions,st'',?_,?_,hgone⟩
      · intro a ha
        rcases mem_append.mp ha with ha | ha
        · exact hround a ha
        · exact hall a ha
      · rw [Machine.run_append,hrun,Option.bind_some]
        exact hrun'

/-- In every interleaving, the expiry callback removes only a key whose current lease it was
called for; and whenever nothing is in flight, a live key with a TTL has exactly one record, which
carries its current lease and leads to the removal of the key once its time has come. -/
theorem expiry_follows_current_lease (st : LeaseState) (hreach : leaseMachine.Reachable st) :
    (∀ st', leaseStep st .expireCallback = some st' → ∀ k entry, st.store.find k = some entry →
      st'.store.find k ≠ some entry →
        st'.store.find k = none ∧ 0 < entry.ttlMs ∧ st.expired.head? = some (entry.lease k)) ∧
    (Quiescent st → ∀ k entry, st.store.find k = some entry → 0 < entry.ttlMs →
      ∃ x, (st.ttl.expiryMap.filter fun x => x.2.key = k) = [x] ∧ x.2.toLease = entry.lease k ∧
        ∀ now, x.2.expireTime ≤ now → ∃ actions st', (∀ a ∈ actions, a = .checkExpiration now ∨ a = .expireCallback) ∧
            leaseMachine.run st actions = some st' ∧ st'.store.find k = none) := by
  have hinv := reachable_leaseInv hreach
  constructor
  · intro st' hstep k entry hfind hchanged
    simp only [leaseStep] at hstep
    split at hstep
    · cases hstep
    · rename_i lease rest hexpired
      cases hstep
      have hafter := find_deleteIfTtlExpired st.store lease k
      rw [hfind] at hafter
      by_cases hcur : 0 < entry.ttlMs ∧ entry.lease k = lease
      · refine ⟨hafter.trans (if_pos hcur),hcur.1,?_⟩
        rw [hexpired,hcur.2]
        rfl
      · exact absurd (hafter.trans (if_neg hcur)) hchanged
  · intro hq k entry hfind hpos
    obtain ⟨x,hfilter,hlease⟩ := hinv.record_of_quiescent hq hfind hpos
    refine ⟨x,hfilter,hlease,?_⟩
    intro now hnow
    have hx : x ∈ st.ttl.expiryMap := by
      have : x ∈ st.ttl.expiryMap.filter fun x => x.2.key = k := by
        rw [hfilter]
        exact mem_singleton.mpr rfl
      exact (mem_filter.mp this).1
    exact hinv.lease_expires hq hfind hpos hx hlease hnow

/-- Two renewals of a key that are scheduled in the opposite order of their commits. -/
def leaseReordered : List LeaseAction :=
  [.put ⟨[107],[97],10,-1,0,0⟩,.schedule 0 0,.keepAlive [107] 0,.keepAlive [107] 0,
    .schedule 1 5,.schedule 0 6]

def leaseRenewed : LeaseState where
  store := ⟨[([107], ⟨[97],1,2,2,10,3⟩)],2,pairwise_singleton _ _⟩
  ttl := ⟨[(1, ⟨⟨[107],2,3⟩,15⟩)],[([107], 1)],2⟩
  pending := []
  expired := []

theorem expiry_follows_reordered_renewal : ∃ x, (leaseRenewed.ttl.expiryMap.filter fun x => x.2.key = [107]) = [x] ∧
      x.2.toLease = ⟨[107],2,3⟩ := by
  have hrun : leaseMachine.run leaseMachine.init leaseReordered = some leaseRenewed := rfl
  obtain ⟨x,hfilter,hlease,_⟩ := (expiry_follows_current_lease leaseRenewed (Machine.Reachable.run .init hrun)).2
      ⟨rfl,rfl⟩ [107] ⟨[97],1,2,2,10,3⟩ rfl (by decide)
  exact ⟨x,hfilter,hlease⟩

end Datasystem.Coordinator
