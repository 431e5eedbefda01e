import Datasystem.Metastore.LeaseProtocol
import Datasystem.Metastore.TxnSteps

/-!
# The keys of a lease

In a quiet metastore a lease has exactly the keys that are bound to it, if the calls have kept off each
other's keys and leases and no transaction has put a key with a lease again after deleting it.
-/

namespace Datasystem.Metastore

open Bytes MetaStore List KvManager Function Protocol Act

/-! ## What a call knows -/

structure LeasesDone (s : MetaStore) (n : LeaseNote) : Prop where
  settled : ∀ k ∈ n.keys, s.Settled k
  released : n.holds = false

abbrev LeaseTriple {α : Type} (A : MetaStore → LeaseNote → Prop) (m : MetaAct α)
    (B : α → MetaStore → LeaseNote → Prop) : Prop := leaseProtocol.Triple LeasesDone A m B

/-- The lease of each noted key in the data and in the tables, and that the noted leases exist. -/
structure Knows (note : LeaseNote) (data held : Bytes → Int) (s : MetaStore) (n : LeaseNote) : Prop where
  noted : n = note
  stored : ∀ k ∈ note.keys, s.kv.leaseOf k = data k
  tabled : ∀ k ∈ note.keys, s.leases.HeldBy k (held k)
  existing : ∀ l ∈ note.leases, l ≠ 0 → s.leases.leaseExists l = true

theorem Knows.stable (note : LeaseNote) (data held : Bytes → Int) : leaseProtocol.Stable (Knows note data held) := by
  intro n s s' hrely h
  obtain rfl := h.noted
  refine ⟨rfl,?_,?_,?_⟩
  · intro k hk
    rw [leaseOf_congr (hrely.same k hk).find]
    exact h.stored k hk
  · intro k hk
    exact (h.tabled k hk).congr (hrely.same k hk).hasKey
  · intro l hl hne
    exact hrely.leases l hl (h.existing l hl hne)

variable {s : MetaStore} {note : LeaseNote} {n : LeaseNote}

theorem Knows.congr {data held held' : Bytes → Int} (h : Knows note data held s n)
    (heq : ∀ k ∈ note.keys, held k = held' k) : Knows note data held' s n :=
  ⟨h.noted,h.stored,fun k hk => heq k hk ▸ h.tabled k hk,h.existing⟩

theorem Knows.done {data held : Bytes → Int} (h : Knows note data held s n) (heq : ∀ k ∈ note.keys, held k = data k)
    (hholds : note.holds = false) : LeasesDone s n := by
  obtain rfl := h.noted
  refine ⟨?_,hholds⟩
  intro k hk
  rw [MetaStore.Settled,h.stored k hk,← heq k hk]
  exact h.tabled k hk

theorem LeasesDone.stable : leaseProtocol.Stable LeasesDone :=
  fun _ _ _ hrely h => ⟨fun k hk => (hrely.same k hk).settled (h.settled k hk),h.released⟩

/-- A call that has not written yet. -/
def Untouched (_ : MetaStore) (n : LeaseNote) : Prop := n = {}

theorem Untouched.stable : leaseProtocol.Stable Untouched := fun _ _ _ _ h => h

theorem Untouched.done (h : Untouched s n) : LeasesDone s n := by
  obtain rfl := h
  exact ⟨by simp,rfl⟩

/-! ## Sections -/

section Sections

variable {A : MetaStore → LeaseNote → Prop}

theorem leaseTriple_ask {o : MetaOp} {B : o.Res → MetaStore → LeaseNote → Prop} (hA : leaseProtocol.Stable A)
    (howns : ∀ s n, A s n → o.Owns n)
    (h : ∀ s n others r s', LeaseInv s (n :: others) → A s n → leaseGuard o s others →
      exec o s = some (r, s') → B r s' (leaseNote o r n)) : LeaseTriple A (ask o) B := by
  refine Triple.ask hA ?_
  intro s n others r s' hinv hs hguard hexec
  obtain ⟨hinv',hrely⟩ := hinv.exec hguard (howns s n hs) hexec
  exact ⟨hinv',hrely,h s n others r s' hinv hs hguard hexec⟩

/-- The sections that leave data, leases and the mutex alone. -/
def MetaOp.Quiet : MetaOp → Prop
  | .leaseExists _ => True
  | .currentRevision => True
  | .collectWatchers _ => True
  | .sendWatchResponse _ => True
  | .addWatcher _ => True
  | .writeStream _ _ => True
  | .rangeHistory _ _ _ => True
  | .sendHistory _ _ => True
  | .startWatcher _ => True
  | .processWatcherQueue _ => True
  | _ => False

theorem MetaOp.Quiet.exec {o : MetaOp} (ho : o.Quiet) {s s' : MetaStore} {r : o.Res}
    (h : exec o s = some (r, s')) (n : LeaseNote) :
    s'.kv = s.kv ∧ s'.leases = s.leases ∧ leaseNote o r n = n ∧ o.Owns n := by
  cases o with
  | rangeHistory start rangeEnd startRevision =>
    obtain ⟨events,-,heq⟩ := Option.map_eq_some_iff.mp h
    cases heq
    exact ⟨rfl,rfl,rfl,trivial⟩
  | attachKey | detachKey | grant | eraseLease | updatePutData | restore | deleteData | txnData | unlock =>
    exact ho.elim
  | _ =>
    cases h
    exact ⟨rfl,rfl,rfl,trivial⟩

theorem leaseTriple_quiet {o : MetaOp} (ho : o.Quiet) (hA : leaseProtocol.Stable A) :
    LeaseTriple A (ask o) fun _ => A := by
  refine Triple.ask hA ?_
  intro s n others r s' hinv hs _ hexec
  obtain ⟨hkv,hleases,hnote,-⟩ := ho.exec hexec n
  obtain ⟨hinv',hrely⟩ := hinv.quiet hkv hleases
  have hsame : LeaseRely n s s' := ⟨fun k _ => ⟨by rw [hkv],fun l => by rw [hleases]⟩,fun l _ h => by rwa [hleases]⟩
  have hnote' : leaseConcurrency.note o r n = n := hnote
  rw [hnote']
  exact ⟨hinv',hrely,hA n s s' hsame hs⟩

theorem leaseTriple_leaseExists (lease : Int) (hA : leaseProtocol.Stable A) :
    LeaseTriple A (leaseExists lease) fun found s n => A s n ∧ found = s.leases.leaseExists lease := by
  refine leaseTriple_ask (o := .leaseExists lease) hA (fun _ _ _ => trivial) ?_
  intro s n others r s' _ hs _ hexec
  cases hexec
  exact ⟨hs,rfl⟩

theorem leaseTriple_checkLease (lease : Int) (hA : leaseProtocol.Stable A) (hdone : ∀ s n, A s n → LeasesDone s n) :
    LeaseTriple A (checkLease lease) fun _ => A := by
  refine .ite (fun _ => .ret fun _ _ h => h) fun _ => ?_
  refine (leaseTriple_quiet (o := .leaseExists lease) trivial hA).bind fun (found : Bool) => ?_
  exact .ite (fun _ => .ret fun _ _ h => h) fun _ => .fail hdone

theorem leaseTriple_notify (event : WatchEvent) (hA : leaseProtocol.Stable A) :
    LeaseTriple A (notify event) fun _ => A := by
  refine (leaseTriple_quiet (o := .currentRevision) trivial hA).bind fun (revision : Int) => ?_
  refine (leaseTriple_quiet (o := .collectWatchers event.key) trivial hA).bind fun (watchers : List Watcher) => ?_
  exact .loop fun w => leaseTriple_quiet (o := .sendWatchResponse _) trivial hA

variable {note : LeaseNote} {data held : Bytes → Int} {key : Bytes} {lease : Int}

theorem leaseTriple_detachKey (hkey : key ∈ note.keys) (hlease : held key = lease ∨ held key = 0) :
    LeaseTriple (Knows note data held) (detachKey lease key) fun _ =>
      Knows note data (update held key 0) := by
  refine leaseTriple_ask (o := .detachKey lease key) (Knows.stable note data held) ?_ ?_
  · intro s n h
    exact h.noted ▸ hkey
  · intro s n others r s' _ h _ hexec
    cases hexec
    refine ⟨h.noted,h.stored,?_,?_⟩
    · intro k hk
      by_cases hkk : k = key
      · subst hkk
        rw [update_self]
        have hheld := h.tabled k hk
        rcases hlease with rfl | hzero
        · exact hheld.detach
        · rw [hzero] at hheld
          exact hheld.detach_of_none lease
      · rw [update_of_ne hkk]
        exact (h.tabled k hk).congr (LeaseManager.hasKey_detachKey_of_ne hkk lease)
    · intro l hl hne
      rw [LeaseManager.leaseExists_detachKey]
      exact h.existing l hl hne

theorem leaseTriple_attachKey (hkey : key ∈ note.keys) (hheld : held key = 0) (hlease : lease ≠ 0) :
    LeaseTriple (Knows note data held) (attachKey lease key) fun found s n =>
      (lease ∈ note.leases → found = true) ∧ Knows note data (if found then update held key lease else held) s n := by
  refine leaseTriple_ask (o := .attachKey lease key) (Knows.stable note data held) ?_ ?_
  · intro s n h
    exact h.noted ▸ hkey
  · intro s n others r s' _ h _ hexec
    cases hexec
    rw [LeaseManager.attachKey_fst]
    refine ⟨fun hmem => h.existing lease hmem hlease,h.noted,h.stored,?_,?_⟩
    · intro k hk
      by_cases hkk : k = key
      · subst hkk
        have hnone := h.tabled k hk
        rw [hheld] at hnone
        by_cases hexists : s.leases.leaseExists lease = true
        · rw [if_pos hexists,update_self]
          exact hnone.attach hexists hlease
        · rw [if_neg hexists,hheld]
          refine hnone.congr fun l => ?_
          rw [LeaseManager.hasKey_attachKey]
          simp [hexists]
      · have hsame : (if s.leases.leaseExists lease then update held key lease else held) k = held k := by
          split_ifs
          · exact update_of_ne hkk _ _
          · rfl
        rw [hsame]
        exact (h.tabled k hk).congr (LeaseManager.hasKey_attachKey_of_ne hkk lease)
    · intro l hl hne
      rw [LeaseManager.leaseExists_attachKey]
      exact h.existing l hl hne

theorem leaseTriple_detachIfSet (hkey : key ∈ note.keys) (hlease : held key = lease) :
    LeaseTriple (Knows note data held) (detachIfSet lease key) fun _ =>
      Knows note data (update held key 0) := by
  refine .ite (fun hzero => .ret fun s n h => ?_) fun _ => leaseTriple_detachKey hkey (Or.inl hlease)
  rw [← hzero,← hlease,update_eq_self]
  exact h

theorem leaseTriple_unlock (note : LeaseNote) (data held : Bytes → Int) :
    LeaseTriple (Knows note data held) unlock fun _ => Knows { note with holds := false } data held := by
  refine leaseTriple_ask (o := .unlock) (Knows.stable note data held) (fun _ _ _ => trivial) ?_
  intro s n others r s' _ h _ hexec
  cases hexec
  obtain rfl := h.noted
  exact ⟨rfl,h.stored,h.tabled,h.existing⟩

theorem leaseTriple_restore (hkey : key ∈ note.keys) {prevKv : Option KeyValue} (hprev : ∀ kv ∈ prevKv, kv.key = key) :
    LeaseTriple (Knows note data held) (restore key prevKv) fun _ =>
      Knows { note with holds := true } (update data key (prevKv.elim 0 KeyValue.lease)) held := by
  refine leaseTriple_ask (o := .restore key prevKv) (Knows.stable note data held) ?_ ?_
  · intro s n h
    exact ⟨h.noted ▸ hkey,hprev⟩
  · intro s n others r s' _ h _ hexec
    obtain ⟨-,-,rfl⟩ := eq_of_unlocked hexec
    obtain rfl := h.noted
    refine ⟨rfl,?_,h.tabled,h.existing⟩
    intro k hk
    have hlease : (s.kv.restore key prevKv).leaseOf k =
        if k = key then prevKv.elim 0 KeyValue.lease else s.kv.leaseOf k := by
      unfold leaseOf
      cases prevKv with
      | none =>
        rw [KvManager.restore,KvManager.find_eraseInfo]
        split_ifs <;> rfl
      | some kv =>
        rw [KvManager.restore,KvManager.find_setInfo]
        split_ifs <;> rfl
    refine hlease.trans ?_
    by_cases hkk : k = key
    · rw [if_pos hkk,hkk,update_self]
    · rw [if_neg hkk,update_of_ne hkk]
      exact h.stored k hk

end Sections

/-! ## Put -/

theorem PutUpdate.oldLease_updatePutData (s : KvManager) (key value : Bytes) (lease : Int) (uninitialized : Numbers) :
    (s.updatePutData key value lease uninitialized).1.oldLease = s.leaseOf key := by
  unfold PutUpdate.oldLease KvManager.updatePutData KvManager.leaseOf
  cases s.find key <;> rfl

theorem leaseTriple_updatePutData (key value : Bytes) (lease : Int) (uninitialized : Numbers) :
    LeaseTriple Untouched (updatePutData key value lease uninitialized) fun u s n =>
      (∀ kv ∈ u.prevKv, kv.key = key) ∧
        Knows ⟨[key],[u.oldLease],false⟩ (fun _ => lease) (fun _ => u.oldLease) s n := by
  refine leaseTriple_ask (o := .updatePutData key value lease uninitialized) Untouched.stable (fun _ _ _ => trivial) ?_
  intro s n others r s' hinv hn hguard hexec
  obtain rfl := hn
  obtain ⟨-,rfl,rfl⟩ := eq_of_unlocked hexec
  have hsettled : s.Settled key := by
    apply hinv.settled
    rw [forall_mem_cons]
    exact ⟨not_mem_nil,hguard⟩
  rw [MetaStore.Settled,← PutUpdate.oldLease_updatePutData s.kv key value lease uninitialized] at hsettled
  constructor
  · intro kv hkv
    obtain ⟨info,hinfo,rfl⟩ := Option.map_eq_some_iff.mp hkv
    exact hinv.keys key info hinfo
  · refine ⟨rfl,?_,?_,?_⟩
    · intro k hk
      obtain rfl := mem_singleton.mp hk
      obtain ⟨info,hinfo,-,hlease⟩ := s.kv.find_updatePutData k value lease uninitialized
      simp only [logWrites,leaseOf,hinfo]
      exact hlease
    · intro k hk
      obtain rfl := mem_singleton.mp hk
      exact hsettled
    · intro l hl hne
      obtain rfl := mem_singleton.mp hl
      exact hsettled.leaseExists hne

theorem leaseTriple_reattach {data : Bytes → Int} {key : Bytes} (hkey : note.keys = [key]) {oldLease : Int}
    (hold : oldLease ∈ note.leases) :
    LeaseTriple (Knows note data fun _ => 0) (reattach oldLease key) fun _ => Knows note data fun _ => oldLease := by
  have hmem : key ∈ note.keys := by simp [hkey]
  refine .ite (fun hzero => .ret fun s n h => hzero ▸ h) fun hne => ?_
  refine (leaseTriple_leaseExists oldLease (Knows.stable note data _)).bind fun found => ?_
  refine .assume (p := found = true) (fun s n h => h.2.trans (h.1.existing _ hold hne)) fun hfound => ?_
  refine .ite (fun _ => ?_) fun hnot => absurd hfound hnot
  refine ((leaseTriple_attachKey hmem rfl hne).mono (fun _ _ h => h.1) fun _ _ _ h => h).bind fun attached => ?_
  refine .ret fun s n h => ?_
  refine h.2.congr fun k hk => ?_
  have hkk : k = key := by simpa [hkey] using hk
  rw [h.1 hold,if_pos rfl,hkk,update_self]

theorem leaseTriple_attachNewLeaseWithRollback (key : Bytes) (lease : Int) (u : PutUpdate)
    (hprev : ∀ kv ∈ u.prevKv, kv.key = key) :
    LeaseTriple (Knows ⟨[key],[u.oldLease],false⟩ (fun _ => lease) fun _ => 0)
      (attachNewLeaseWithRollback key lease u) fun _ =>
        Knows ⟨[key],[u.oldLease],false⟩ (fun _ => lease) fun _ => lease := by
  have hmem : key ∈ (⟨[key],[u.oldLease],false⟩ : LeaseNote).keys := mem_singleton.mpr rfl
  refine .ite (fun hzero => .ret fun s n h => hzero ▸ h) fun hne => ?_
  refine (leaseTriple_attachKey hmem rfl hne).bind fun found => ?_
  refine .ite (fun hfound => .ret fun s n h => ?_) fun hnot => ?_
  · refine h.2.congr fun k hk => ?_
    rw [if_pos hfound,mem_singleton.mp hk,update_self]
  · -- The lease is gone: data and tables get back what they had.
    refine ((leaseTriple_restore hmem hprev).mono (fun s n h => h.2) fun _ _ _ h => h).bind fun _ => ?_
    rw [if_neg hnot]
    refine (leaseTriple_reattach rfl (mem_singleton.mpr rfl)).bind fun _ => ?_
    refine (leaseTriple_unlock _ _ _).bind fun _ => .fail fun s n h => h.done ?_ rfl
    intro k hk
    rw [mem_singleton.mp hk,update_self]
    rfl

theorem leaseTriple_put (key value : Bytes) (lease : Int) (uninitialized : Numbers) :
    LeaseTriple Untouched (put key value lease uninitialized) fun _ => LeasesDone := by
  refine (leaseTriple_checkLease lease Untouched.stable fun _ _ => Untouched.done).bind fun _ => ?_
  refine (leaseTriple_updatePutData key value lease uninitialized).bind fun u => ?_
  refine .assume (fun s n h => h.1) fun hprev => ?_
  have hdetach : LeaseTriple (Knows ⟨[key],[u.oldLease],false⟩ (fun _ => lease) fun _ => u.oldLease)
      (detachIfSet u.oldLease key) fun _ => Knows ⟨[key],[u.oldLease],false⟩ (fun _ => lease) fun _ => 0 := by
    refine (leaseTriple_detachIfSet (mem_singleton.mpr rfl) rfl).mono (fun _ _ h => h) fun _ s n h => ?_
    refine h.congr fun k hk => ?_
    rw [mem_singleton.mp hk,update_self]
  refine (hdetach.mono (fun s n h => h.2) fun _ _ _ h => h).bind fun _ => ?_
  refine (leaseTriple_attachNewLeaseWithRollback key lease u hprev).bind fun _ => ?_
  refine (leaseTriple_notify _ (Knows.stable _ _ _)).bind fun _ => ?_
  exact .ret fun s n h => h.done (fun _ _ => rfl) rfl

/-! ## Delete and revoke -/

theorem leaseTriple_deleteData (key rangeEnd : Bytes) : LeaseTriple Untouched (deleteData key rangeEnd) fun kvs s n =>
      ∃ held : Bytes → Int, (∀ kv ∈ kvs, held kv.key = kv.lease) ∧
        Knows ⟨kvs.map KeyValue.key,[],false⟩ (fun _ => 0) held s n := by
  refine leaseTriple_ask (o := .deleteData key rangeEnd) Untouched.stable (fun _ _ _ => trivial) ?_
  intro s n others r s' hinv hn hguard hexec
  obtain rfl := hn
  obtain ⟨-,rfl,rfl⟩ := eq_of_unlocked hexec
  have hmem := fun k => @mem_deleteData s.kv hinv.keys key rangeEnd k
  refine ⟨s.kv.leaseOf,?_,?_,?_,?_,by simp⟩
  · intro kv hkv
    obtain ⟨e,he,rfl⟩ := mem_map.mp hkv
    have hfind := (mem_inRange.mp he).1
    simp only [hinv.keys e.1 e.2 hfind,leaseOf,hfind]
    rfl
  · simp [leaseNote]
  · intro k hk
    simp only [logWrites,leaseOf]
    rw [find_deleteData,if_pos ((hmem k).mp hk)]
    rfl
  · intro k hk
    obtain ⟨e,he,rfl⟩ := (hmem k).mp hk
    apply hinv.settled
    simpa using fun m hm => hguard m hm e he

theorem leaseTriple_detachDeleted {held : Bytes → Int} {kv : KeyValue} (hmem : kv.key ∈ note.keys)
    (hheld : held kv.key = kv.lease ∨ held kv.key = 0) :
    LeaseTriple (Knows note (fun _ => 0) held) (detachDeleted kv) fun _ =>
      Knows note (fun _ => 0) (update held kv.key 0) := by
  -- Where nothing is detached, the tables do not have the key.
  have hskip : held kv.key = 0 → ∀ s n, Knows note (fun _ => 0) held s n →
      Knows note (fun _ => 0) (update held kv.key 0) s n := by
    intro hzero s n h
    rw [update_eq_self_iff.mpr hzero.symm]
    exact h
  refine .ite (fun hzero => .ret (hskip (by simpa [hzero] using hheld))) fun hne => ?_
  refine (leaseTriple_leaseExists kv.lease (Knows.stable note _ held)).bind fun found => ?_
  refine .ite (fun _ => ?_) fun hnot => .ret fun s n h => ?_
  · exact (leaseTriple_detachKey hmem hheld).mono (fun s n h => h.1) fun _ _ _ h => h
  · rcases hheld with hheld | hzero
    · have hheldBy := h.1.tabled _ hmem
      rw [hheld] at hheldBy
      exact absurd (h.2.trans (hheldBy.leaseExists hne)) hnot
    · exact hskip hzero s n h.1

theorem leaseTriple_delete (key rangeEnd : Bytes) :
    LeaseTriple Untouched (delete key rangeEnd false) fun _ => LeasesDone := by
  refine (leaseTriple_deleteData key rangeEnd).bind fun kvs => .of_exists fun held => ?_
  refine .assume (fun s n h => h.1) fun hheld => ?_
  have hloop : LeaseTriple (Knows ⟨kvs.map KeyValue.key,[],false⟩ (fun _ => 0) held)
      (forEach detachDeleted kvs) fun _ => LeasesDone := by
    refine (Triple.forEach (fun done => Knows ⟨kvs.map KeyValue.key,[],false⟩ (fun _ => 0)
      fun k => if k ∈ done.map KeyValue.key then 0 else held k) ?_).mono (fun s n h => ?_) fun _ s n h => ?_
    · intro done kv rest heq
      have hkv : kv ∈ kvs := heq ▸ mem_append_right _ mem_cons_self
      refine (leaseTriple_detachDeleted (mem_map_of_mem hkv) ?_).mono (fun _ _ h => h) fun _ s n h => ?_
      · by_cases hdone : kv.key ∈ done.map KeyValue.key
        · exact Or.inr (if_pos hdone)
        · exact Or.inl ((if_neg hdone).trans (hheld kv hkv))
      · refine h.congr fun k _ => ?_
        by_cases hk : k = kv.key
        · simp [hk]
        · simp [hk]
    · simpa using h
    · refine h.done (fun k hk => ?_) rfl
      exact if_pos hk
  refine (hloop.mono (fun s n h => h.2) fun _ _ _ h => h).bind fun _ => ?_
  exact (Triple.loop fun kv => leaseTriple_notify _ LeasesDone.stable).bind fun _ => .ret fun _ _ h => h

/-- A revoked lease had these keys; the first of them are deleted. -/
structure Revoked (keys done : List Bytes) (s : MetaStore) (n : LeaseNote) : Prop where
  noted : ∀ k, k ∈ n.keys ↔ k ∈ keys
  released : n.holds = false
  tabled : ∀ k ∈ keys, s.leases.HeldBy k 0
  deleted : ∀ k ∈ keys, k ∈ done → s.kv.find k = none

theorem Revoked.stable (keys done : List Bytes) : leaseProtocol.Stable (Revoked keys done) := by
  intro n s s' hrely h
  refine ⟨h.noted,h.released,?_,?_⟩
  · intro k hk
    exact (h.tabled k hk).congr (hrely.same k ((h.noted k).mpr hk)).hasKey
  · intro k hk hdone
    rw [(hrely.same k ((h.noted k).mpr hk)).find]
    exact h.deleted k hk hdone

theorem Revoked.done {keys : List Bytes} (h : Revoked keys keys s n) : LeasesDone s n := by
  refine ⟨?_,h.released⟩
  intro k hk
  have hmem := (h.noted k).mp hk
  rw [MetaStore.Settled,leaseOf,h.deleted k hmem hmem]
  exact h.tabled k hmem

theorem leaseTriple_eraseLease (leaseId : Int) : LeaseTriple Untouched (eraseLease leaseId) fun keys s n =>
      (keys = none → LeasesDone s n) ∧ ∀ ks, keys = some ks → Revoked ks [] s n := by
  refine leaseTriple_ask (o := .eraseLease leaseId) Untouched.stable (fun _ _ _ => trivial) ?_
  intro s n others r s' hinv hn hguard hexec
  obtain rfl := hn
  cases hexec
  constructor
  · intro hnone
    simp only [leaseNote,hnone]
    exact Untouched.done rfl
  · intro ks hks
    obtain ⟨info,hinfo,rfl⟩ := Option.map_eq_some_iff.mp hks
    refine ⟨by simp [leaseNote,hks],rfl,?_,by simp⟩
    intro k hk
    have hhas : s.leases.HasKey leaseId k := ⟨info,hinfo,hk⟩
    have hsettled : s.Settled k := by
      apply hinv.settled
      rw [forall_mem_cons]
      exact ⟨not_mem_nil,fun m hm => (hguard m hm).2 k hhas⟩
    have hlease := ((hsettled leaseId).mp hhas).1
    rw [MetaStore.Settled,← hlease] at hsettled
    exact hsettled.erase

theorem inRange_singleton {s : KvManager} {key : Bytes} {e : Bytes × KeyInfo} :
    e ∈ s.inRange key [] ↔ s.find e.1 = some e.2 ∧ e.1 = key := by
  rw [mem_inRange]
  apply and_congr_right
  intro _
  unfold keyInRange
  by_cases hkey : e.1 = key
  · simp [hkey]
  · simp [hkey]

theorem leaseTriple_deleteRevoked {keys done : List Bytes} {key : Bytes} (hkey : key ∈ keys) :
    LeaseTriple (Revoked keys done) (delete key [] true) fun _ => Revoked keys (done ++ [key]) := by
  have hdata : LeaseTriple (Revoked keys done) (deleteData key []) fun _ => Revoked keys (done ++ [key]) := by
    refine leaseTriple_ask (o := .deleteData key []) (Revoked.stable keys done) (fun _ _ _ => trivial) ?_
    intro s n others r s' hinv h _ hexec
    obtain ⟨-,rfl,rfl⟩ := eq_of_unlocked hexec
    refine ⟨?_,h.released,h.tabled,?_⟩
    · intro k
      simp only [leaseNote,mem_append,h.noted k,or_iff_right_iff_imp]
      intro hk
      obtain ⟨e,he,rfl⟩ := (mem_deleteData hinv.keys).mp hk
      rw [(inRange_singleton.mp he).2]
      exact hkey
    · intro k hk hdone
      simp only [logWrites,find_deleteData]
      split_ifs with hrange
      · rfl
      · rcases mem_append.mp hdone with hdone | hlast
        · exact h.deleted k hk hdone
        · obtain rfl := mem_singleton.mp hlast
          by_contra hfind
          obtain ⟨info,hinfo⟩ := Option.ne_none_iff_exists'.mp hfind
          exact hrange ⟨(k, info),inRange_singleton.mpr ⟨hinfo,rfl⟩,rfl⟩
  refine hdata.bind fun kvs => ?_
  refine Triple.bind (B := fun _ => Revoked keys (done ++ [key])) (.ret fun _ _ h => h) fun _ => ?_
  refine (Triple.loop fun kv => leaseTriple_notify _ (Revoked.stable keys _)).bind fun _ => ?_
  exact .ret fun _ _ h => h

theorem leaseTriple_revoke (leaseId : Int) : LeaseTriple Untouched (revoke leaseId) fun _ => LeasesDone := by
  refine (leaseTriple_eraseLease leaseId).bind fun keys => ?_
  cases keys with
  | none => exact .fail fun s n h => h.1 rfl
  | some keys =>
    refine (Triple.forEach (Revoked keys) ?_).mono (fun s n h => h.2 keys rfl) fun _ s n h => h.done
    intro done key rest heq
    have hkey : key ∈ keys := heq ▸ mem_append_right _ mem_cons_self
    exact (leaseTriple_deleteRevoked hkey).bind fun _ => .ret fun _ _ h => h

/-! ## Transactions -/

def txnNote (outcome : TxnOutcome) : LeaseNote :=
  ⟨outcome.watchEvents.map WatchEvent.key,outcome.putLeases.map fun change => change.2.2,true⟩

theorem leaseTriple_txnData (req : TxnRequest) : LeaseTriple Untouched (txnData req) fun outcome s n =>
      ∃ s₀ : KvManager, ∃ t : TxnState, (TxnLeases s₀ t ∧ NoPutAfterDelete t.watchEvents ∧
        t.putLeases = outcome.putLeases ∧ t.deletedLeases = outcome.deletedLeases ∧
          t.watchEvents = outcome.watchEvents) ∧ Knows (txnNote outcome) t.kv.leaseOf s₀.leaseOf s n := by
  refine leaseTriple_ask (o := .txnData req) Untouched.stable (fun _ _ _ => trivial) ?_
  intro s n others r s' hinv hn hguard hexec
  obtain rfl := hn
  obtain ⟨⟨outcome,kv⟩,hdata,heq⟩ := Option.map_eq_some_iff.mp hexec
  cases heq
  obtain ⟨t,htxn,rfl,hputs,hdeleted,hevents⟩ := txnLeases_of_txnData hinv.keys hdata
  obtain ⟨hapart,hleases,hno⟩ := hguard outcome _ hdata
  refine ⟨s.kv,t,⟨htxn,hevents ▸ hno,hputs,hdeleted,hevents⟩,?_,fun _ _ => rfl,?_,?_⟩
  · simp [leaseNote,txnNote]
  · intro k hk
    obtain ⟨e,he,rfl⟩ := mem_map.mp hk
    apply hinv.settled
    rw [forall_mem_cons]
    exact ⟨not_mem_nil,fun m hm => hapart m hm e he⟩
  · intro l hl hne
    obtain ⟨change,hchange,rfl⟩ := mem_map.mp hl
    exact hleases change hchange hne

theorem leaseTriple_changePutLease {data held : Bytes → Int} {change : Bytes × Int × Int}
    (hkey : change.1 ∈ note.keys) (hold : change.2.1 = held change.1) (hnew : change.2.2 ∈ note.leases) :
    LeaseTriple (Knows note data held) (changePutLease change) fun _ =>
      Knows note data (update held change.1 change.2.2) := by
  refine (leaseTriple_detachIfSet hkey hold.symm).bind fun _ => ?_
  refine .ite (fun hzero => .ret fun s n h => hzero ▸ h) fun hne => ?_
  refine (leaseTriple_attachKey hkey (update_self ..) hne).bind fun found => .ret fun s n h => ?_
  have hheld := h.2
  rw [h.1 hnew,if_pos rfl,update_idem] at hheld
  exact hheld

theorem leaseTriple_processTxnLeaseChanges {outcome : TxnOutcome} {s₀ : KvManager} {t : TxnState}
    (htxn : TxnLeases s₀ t) (hno : NoPutAfterDelete t.watchEvents) (hputs : t.putLeases = outcome.putLeases)
    (hdeleted : t.deletedLeases = outcome.deletedLeases) (hevents : t.watchEvents = outcome.watchEvents) :
    LeaseTriple (Knows (txnNote outcome) t.kv.leaseOf s₀.leaseOf) (processTxnLeaseChanges outcome) fun _ =>
      Knows (txnNote outcome) t.kv.leaseOf t.kv.leaseOf := by
  have hmem : ∀ {k}, (∃ e ∈ t.watchEvents, e.key = k) → k ∈ (txnNote outcome).keys := by
    rintro k ⟨e,he,rfl⟩
    exact mem_map_of_mem (hevents ▸ he)
  have hbindings := htxn.bindings hno
  rw [hputs,hdeleted] at hbindings
  have hsorted := hdeleted ▸ htxn.sorted
  refine Triple.bind
    (B := fun _ => Knows (txnNote outcome) t.kv.leaseOf (bindPuts s₀.leaseOf outcome.putLeases)) ?_ fun _ => ?_
  · refine Triple.forEach (fun done => Knows (txnNote outcome) t.kv.leaseOf (bindPuts s₀.leaseOf done)) ?_
    intro done change rest heq
    have hchange : change ∈ outcome.putLeases := heq ▸ mem_append_right _ mem_cons_self
    rw [bindPuts_concat]
    refine leaseTriple_changePutLease (hmem (htxn.putKeys change (hputs ▸ hchange))) ?_ (mem_map_of_mem hchange)
    exact htxn.chain hno done change rest (heq.trans hputs.symm)
  · refine (Triple.forEach (fun done => Knows (txnNote outcome) t.kv.leaseOf fun k =>
      if k ∈ done.map Prod.fst then 0 else bindPuts s₀.leaseOf outcome.putLeases k) ?_).mono
        (fun s n h => by simpa using h) fun _ s n h => h.congr fun k hk => ?_
    · intro done d rest heq
      have hd : d ∈ outcome.deletedLeases := heq ▸ mem_append_right _ mem_cons_self
      have hlookup := hsorted.lookup_of_mem hd
      obtain ⟨e,he,-,-,hek⟩ := htxn.deletedKeys d.1 d (hdeleted ▸ hlookup)
      refine (leaseTriple_detachKey (hmem ⟨e,he,hek⟩) ?_).mono (fun _ _ h => h) fun _ s n h => ?_
      · by_cases hdone : d.1 ∈ done.map Prod.fst
        · exact Or.inr (if_pos hdone)
        · exact Or.inl ((if_neg hdone).trans (hbindings.gone d.1 d hlookup).1.symm)
      · refine h.congr fun k _ => ?_
        by_cases hk : k = d.1
        · simp [hk]
        · have hlast : k ∈ (done ++ [d]).map Prod.fst ↔ k ∈ done.map Prod.fst := by
            rw [map_append,mem_append,map_singleton,mem_singleton]
            simp [hk]
          rw [update_of_ne hk]
          exact if_congr hlast.symm rfl rfl
    · cases hlookup : Keyed.lookup Prod.fst k outcome.deletedLeases with
      | none =>
        have hnot : k ∉ outcome.deletedLeases.map Prod.fst := by
          intro hk
          obtain ⟨d,hd,hdk⟩ := mem_map.mp hk
          exact Keyed.lookup_eq_none.mp hlookup d hd hdk
        rw [if_neg hnot,hbindings.held k hlookup]
      | some d =>
        obtain ⟨hd,hdk⟩ := hsorted.lookup_eq_some.mp hlookup
        rw [if_pos (hdk ▸ mem_map_of_mem hd),leaseOf,(hbindings.gone k d hlookup).2]
        rfl

theorem leaseTriple_validateTxnLeases (ops : List RequestOp) :
    LeaseTriple Untouched (validateTxnLeases ops) fun _ => Untouched := by
  refine .loop fun op => ?_
  cases op with
  | put req => exact leaseTriple_checkLease req.lease Untouched.stable fun _ _ => Untouched.done
  | deleteRange req => exact .ret fun _ _ h => h
  | range req => exact .ret fun _ _ h => h

theorem leaseTriple_txn (req : TxnRequest) : LeaseTriple Untouched (txn req) fun _ => LeasesDone := by
  refine (leaseTriple_validateTxnLeases req.success).bind fun _ => ?_
  refine (leaseTriple_validateTxnLeases req.failure).bind fun _ => ?_
  refine (leaseTriple_txnData req).bind fun outcome => .of_exists fun s₀ => .of_exists fun t => ?_
  refine .assume (fun s n h => h.1) fun ⟨htxn,hno,hputs,hdeleted,hevents⟩ => ?_
  refine ((leaseTriple_processTxnLeaseChanges htxn hno hputs hdeleted hevents).mono (fun s n h => h.2)
    fun _ _ _ h => h).bind fun _ => ?_
  refine (Triple.loop fun event => leaseTriple_notify event (Knows.stable _ _ _)).bind fun _ => ?_
  refine (leaseTriple_unlock _ _ _).bind fun _ => .ret fun s n h => h.done (fun _ _ => rfl) rfl

/-! ## All calls -/

theorem leaseTriple_registerWatcher (req : WatchCreateRequest) :
    LeaseTriple Untouched (registerWatcher req) fun _ => Untouched := by
  refine (leaseTriple_quiet (o := .addWatcher req) trivial Untouched.stable).bind fun (watchId : Int) => ?_
  refine (leaseTriple_quiet (o := .currentRevision) trivial Untouched.stable).bind fun (revision : Int) => ?_
  refine (leaseTriple_quiet (o := .writeStream watchId _) trivial Untouched.stable).bind fun _ => ?_
  refine Triple.bind (B := fun _ => Untouched) (.ite (fun _ => ?_) fun _ => .ret fun _ _ h => h) fun _ => ?_
  · refine (leaseTriple_quiet (o := .rangeHistory req.key req.rangeEnd req.startRevision) trivial
      Untouched.stable).bind fun (events : List HistoricalEntry) => ?_
    exact (leaseTriple_quiet (o := .sendHistory watchId events) trivial Untouched.stable).bind fun _ =>
      .ret fun _ _ h => h
  · exact (leaseTriple_quiet (o := .startWatcher watchId) trivial Untouched.stable).bind fun _ =>
      .ret fun _ _ h => h

theorem leaseTriple_act (c : MetaCall) : LeaseTriple Untouched c.act fun _ => LeasesDone := by
  cases c with
  | grant leaseId ttl =>
    have hgrant : LeaseTriple Untouched (ask (.grant leaseId ttl)) fun _ => Untouched :=
      leaseTriple_ask (o := .grant leaseId ttl) Untouched.stable (fun _ _ _ => trivial) fun _ _ _ _ _ _ hn _ _ => hn
    exact hgrant.bind fun _ => .ret fun _ _ h => h.done
  | put key value lease uninitialized =>
    exact (leaseTriple_put key value lease uninitialized).bind fun _ => .ret fun _ _ h => h
  | delete key rangeEnd => exact (leaseTriple_delete key rangeEnd).bind fun _ => .ret fun _ _ h => h
  | txn req => exact (leaseTriple_txn req).bind fun _ => .ret fun _ _ h => h
  | revoke leaseId => exact (leaseTriple_revoke leaseId).bind fun _ => .ret fun _ _ h => h
  | registerWatcher req => exact (leaseTriple_registerWatcher req).bind fun _ => .ret fun _ _ h => h.done
  | processWatcherQueue watchId =>
    exact (leaseTriple_quiet (o := .processWatcherQueue watchId) trivial Untouched.stable).bind fun _ =>
      .ret fun _ _ h => h.done

theorem LeaseInv.idle {others : List LeaseNote} (h : LeaseInv s (n :: others)) (hdone : LeasesDone s n) :
    LeaseInv s ({} :: others) := by
  refine ⟨h.keys,pairwise_cons.mpr ⟨by simp,(pairwise_cons.mp h.disjoint).2⟩,?_,?_⟩
  · intro hlocked
    obtain ⟨m,hm,hholds⟩ := h.lock hlocked
    rcases mem_cons.mp hm with rfl | hm
    · rw [hdone.released] at hholds
      cases hholds
    · exact ⟨m,mem_cons_of_mem _ hm,hholds⟩
  · intro k hk
    by_cases hkn : k ∈ n.keys
    · exact hdone.settled k hkn
    · apply h.settled
      rw [forall_mem_cons] at hk ⊢
      exact ⟨hkn,hk.2⟩

theorem LeaseInv.cons_idle {ns : List LeaseNote} (h : LeaseInv s ns) : LeaseInv s ({} :: ns) := by
  refine ⟨h.keys,pairwise_cons.mpr ⟨by simp,h.disjoint⟩,?_,?_⟩
  · intro hlocked
    obtain ⟨m,hm,hholds⟩ := h.lock hlocked
    exact ⟨m,mem_cons_of_mem _ hm,hholds⟩
  · intro k hk
    exact h.settled k fun m hm => hk m (mem_cons_of_mem _ hm)

def leaseMachine : Machine (MetaThreads LeaseNote) (ThreadEvent MetaCall) :=
  Threads.machine leaseConcurrency MetaCall.prog {}

theorem leaseInv_of_reachable {t : MetaThreads LeaseNote} (h : leaseMachine.ReachableBy leaseProtocol.Guard t) :
    leaseProtocol.Sound t := by
  refine sound_of_reachable (P := leaseProtocol) ?_ (fun _ _ hinv => LeaseInv.cons_idle hinv) ?_ h
  · refine ⟨by simp [find],List.Pairwise.nil,by simp,?_⟩
    intro k _ l
    simp [LeaseManager.HasKey,LeaseManager.find,leaseOf,find]
  · intro c s ns hinv
    exact (leaseTriple_act c).safe (fun _ _ _ _ hinv hdone => LeaseInv.idle hinv hdone)
      (fun _ _ _ hinv hdone => LeaseInv.idle hinv hdone) hinv rfl

/-! ## The quiet metastore -/

/-- A key exists and its record names a lease. -/
def MetaStore.BoundTo (s : MetaStore) (k : Bytes) (lease : Int) : Prop :=
  ∃ info, s.kv.find k = some info ∧ info.kv.lease = lease

theorem MetaStore.boundTo_iff {k : Bytes} (hne : lease ≠ 0) : s.BoundTo k lease ↔ lease = s.kv.leaseOf k := by
  unfold BoundTo leaseOf
  cases s.kv.find k with
  | none => simp [hne]
  | some info => simp [eq_comm]

theorem perform_deleteRevoked (hs : s.kv.locked = false) (key : Bytes) :
    ∃ kvs s', perform exec (delete key [] true) s = some (.ok kvs, s') ∧ s'.kv = (s.kv.deleteData key []).2 := by
  have hexec : ∃ s₁, exec (.deleteData key []) s = some ((s.kv.deleteData key []).1, s₁) ∧
      s₁.kv = (s.kv.deleteData key []).2 := by
    simp only [exec,hs]
    exact ⟨_,rfl,rfl⟩
  obtain ⟨s₁,hexec,hkv⟩ := hexec
  have hdata : perform exec (deleteData key []) s = some (.ok (s.kv.deleteData key []).1, s₁) := by
    refine (perform_ask exec (MetaOp.deleteData key []) s).trans ?_
    rw [hexec]
    rfl
  have hskip : perform exec (forEach detachDeleted []) s₁ = some (.ok (), s₁) := rfl
  have hnotify := perform_forEach exec (fun watch => { s₁ with watch := watch })
    (fun (kv : KeyValue) _ => perform_notify _ ⟨.delete,kv.key,kv,none⟩) (s.kv.deleteData key []).1 s₁.watch
  refine ⟨(s.kv.deleteData key []).1,{ s₁ with watch := (s.kv.deleteData key []).1.foldl (fun watch kv =>
    watch.notify s₁.kv.revision ⟨.delete,kv.key,kv,none⟩) s₁.watch },?_,hkv⟩
  rw [delete,perform_bind_ok _ hdata,if_pos rfl,perform_bind_ok _ hskip,perform_bind_ok _ hnotify]
  rfl

theorem perform_deleteAll (keys : List Bytes) (hs : s.kv.locked = false) : ∃ s', perform exec
        (Act.forEach (fun key => Act.bind (delete key [] true) fun _ => .ret ()) keys) s = some (.ok (), s') ∧
      ∀ k, s'.kv.find k = if k ∈ keys then none else s.kv.find k := by
  induction keys generalizing s with
  | nil => exact ⟨s,rfl,by simp⟩
  | cons key keys ih =>
    obtain ⟨kvs,s₁,hdelete,hkv⟩ := perform_deleteRevoked hs key
    have hlocked : s₁.kv.locked = false := by
      rw [hkv,KvManager.deleteData,KvManager.locked_eraseAll]
      exact hs
    obtain ⟨s',hrest,hfind⟩ := ih hlocked
    refine ⟨s',?_,?_⟩
    · have hfirst : perform exec
          (Act.bind (delete key [] true) fun _ => (.ret () : MetaAct Unit)) s = some (.ok (), s₁) := by
        rw [perform_bind_ok _ hdelete]
        rfl
      rw [forEach,perform_bind_ok _ hfirst]
      exact hrest
    · intro k
      rw [hfind,hkv,find_deleteData]
      by_cases hk : k = key
      · subst hk
        cases hlive : s.kv.find k with
        | none => simp
        | some info =>
          have hrange : ∃ e ∈ s.kv.inRange k [], e.1 = k := ⟨(k, info),inRange_singleton.mpr ⟨hlive,rfl⟩,rfl⟩
          rw [if_pos hrange]
          simp
      · have hrange : ¬ ∃ e ∈ s.kv.inRange key [], e.1 = k := by
          rintro ⟨e,he,rfl⟩
          exact hk (inRange_singleton.mp he).2
        rw [if_neg hrange]
        simp [hk]

/-- What the leases are for: a lease has the keys that are bound to it, so that revoking it deletes these
keys and no others, and no key is bound to a lease that does not exist. -/
structure LeasesInOrder (s : MetaStore) : Prop where
  hasKey_iff : ∀ l k, l ≠ 0 → (s.leases.HasKey l k ↔ s.BoundTo k l)
  existing : ∀ l k, l ≠ 0 → s.BoundTo k l → s.leases.leaseExists l = true
  revoked : ∀ l, l ≠ 0 → s.leases.leaseExists l = true →
    ∃ s', perform MetaStore.exec (revoke l) s = some (.ok (), s') ∧
      ∀ k, (s.BoundTo k l → s'.kv.find k = none) ∧ (¬ s.BoundTo k l → s'.kv.find k = s.kv.find k)

theorem leasesInOrder_of_settled (hsettled : ∀ k, s.Settled k) (hs : s.kv.locked = false) : LeasesInOrder s := by
  have hiff : ∀ l k, l ≠ 0 → (s.leases.HasKey l k ↔ s.BoundTo k l) := by
    intro l k hne
    rw [boundTo_iff hne,hsettled k l]
    exact and_iff_left hne
  refine ⟨hiff,fun l k hne hbound => ((hiff l k hne).mpr hbound).leaseExists,?_⟩
  intro l hne hexists
  obtain ⟨info,hinfo⟩ := Option.isSome_iff_exists.mp hexists
  have hkeys : ∀ k, k ∈ info.keys ↔ s.BoundTo k l := by
    intro k
    rw [← hiff l k hne]
    simp [LeaseManager.HasKey,hinfo]
  have herase : perform exec (eraseLease l) s =
      some (.ok (some info.keys), { s with leases := (s.leases.eraseLease l).2 }) := by
    refine (perform_ask exec (MetaOp.eraseLease l) s).trans ?_
    simp only [exec,LeaseManager.eraseLease,hinfo]
    rfl
  obtain ⟨s',hdelete,hfind⟩ := perform_deleteAll info.keys (s := { s with leases := (s.leases.eraseLease l).2 }) hs
  refine ⟨s',?_,?_⟩
  · rw [revoke,perform_bind_ok _ herase]
    exact hdelete
  · intro k
    rw [hfind,← hkeys k]
    exact ⟨fun hk => if_pos hk,fun hk => if_neg hk⟩

end Datasystem.Metastore
