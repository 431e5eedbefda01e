import Datasystem.Metastore.MetastoreCalls
import Datasystem.Metastore.TxnLeases

/-!
# Calls that share the leases of the metastore

Data and leases change in separate sections, so while a call is at work the leases of the keys it has written
do not agree with the data.
-/

namespace Datasystem.Metastore

open List LeaseManager KvManager MetaStore

structure LeaseNote where
  /-- The keys that the call has written. -/
  keys : List Bytes := []
  /-- The leases that the call is going to attach, or to attach again. -/
  leases : List Int := []
  /-- The call holds the mutex of the store. -/
  holds : Bool := false
deriving DecidableEq, Repr

def leaseNote : (o : MetaOp) → o.Res → LeaseNote → LeaseNote
  | .eraseLease _, (keys : Option (List Bytes)), n => { n with keys := keys.getD [] ++ n.keys }
  | .updatePutData key _ _ _, (u : PutUpdate), n =>
    { n with keys := key :: n.keys, leases := u.oldLease :: n.leases }
  | .restore _ _, _, n => { n with holds := true }
  | .deleteData _ _, (kvs : List KeyValue), n => { n with keys := kvs.map KeyValue.key ++ n.keys }
  | .txnData _, (outcome : TxnOutcome), n =>
    { keys := outcome.watchEvents.map WatchEvent.key ++ n.keys
      leases := outcome.putLeases.map (fun change => change.2.2) ++ n.leases
      holds := true }
  | .unlock, _, n => { n with holds := false }
  | _, _, n => n

/-- What a section has to respect of the calls in progress.

No section writes a key that another call has written and not yet settled. A transaction finds the leases of
its puts, and puts no key with a lease again after it has deleted it. A lease is not revoked as long as
another call is at work on one of its keys or is going to attach it. A granted lease is a new one. -/
def leaseGuard : MetaOp → MetaStore → List LeaseNote → Prop
  | .grant leaseId _, s, _ => s.leases.leaseExists leaseId = false
  | .eraseLease leaseId, s, others =>
    ∀ m ∈ others, leaseId ∉ m.leases ∧ ∀ k, s.leases.HasKey leaseId k → k ∉ m.keys
  | .updatePutData key _ _ _, _, others => ∀ m ∈ others, key ∉ m.keys
  | .deleteData key rangeEnd, s, others => ∀ m ∈ others, ∀ e ∈ s.kv.inRange key rangeEnd, e.1 ∉ m.keys
  | .txnData req, s, others => ∀ outcome kv, s.kv.txnData req = some (outcome, kv) →
    (∀ m ∈ others, ∀ e ∈ outcome.watchEvents, e.key ∉ m.keys) ∧
      (∀ change ∈ outcome.putLeases, change.2.2 ≠ 0 → s.leases.leaseExists change.2.2 = true) ∧
        NoPutAfterDelete outcome.watchEvents
  | _, _, _ => True

/-- A key has the same record and the same leases in two states. -/
structure SameOn (s s' : MetaStore) (k : Bytes) : Prop where
  find : s'.kv.find k = s.kv.find k
  hasKey : ∀ l, s'.leases.HasKey l k ↔ s.leases.HasKey l k

/-- The lease tables agree with the data on a key. -/
def MetaStore.Settled (s : MetaStore) (k : Bytes) : Prop := s.leases.HeldBy k (s.kv.leaseOf k)

theorem SameOn.refl (s : MetaStore) (k : Bytes) : SameOn s s k := ⟨rfl,fun _ => Iff.rfl⟩

theorem SameOn.trans {s s' s'' : MetaStore} {k : Bytes} (h : SameOn s s' k) (h' : SameOn s' s'' k) : SameOn s s'' k :=
  ⟨h'.find.trans h.find,fun l => (h'.hasKey l).trans (h.hasKey l)⟩

variable {s s' : MetaStore}

theorem SameOn.settled {k : Bytes} (h : SameOn s s' k) (hs : s.Settled k) : s'.Settled k := by
  rw [Settled,leaseOf_congr h.find]
  exact hs.congr h.hasKey

structure LeaseInv (s : MetaStore) (ns : List LeaseNote) : Prop where
  keys : ∀ k info, s.kv.find k = some info → info.kv.key = k
  disjoint : ns.Pairwise fun m n => ∀ k ∈ m.keys, k ∉ n.keys
  lock : s.kv.locked = true → ∃ n ∈ ns, n.holds = true
  settled : ∀ k, (∀ n ∈ ns, k ∉ n.keys) → s.Settled k

structure LeaseRely (n : LeaseNote) (s s' : MetaStore) : Prop where
  same : ∀ k ∈ n.keys, SameOn s s' k
  leases : ∀ l ∈ n.leases, s.leases.leaseExists l = true → s'.leases.leaseExists l = true

def leaseConcurrency : Concurrency MetaOp MetaOp.Res MetaStore LeaseNote := ⟨exec,{},leaseNote⟩

def leaseProtocol : Protocol leaseConcurrency where
  guard o s _ others := leaseGuard o s others
  inv := LeaseInv
  inv_perm hperm h :=
    { keys := h.keys
      disjoint := (hperm.pairwise_iff fun hmn k hk hk' => hmn k hk' hk).mp h.disjoint
      lock := fun hlocked => by
        obtain ⟨n,hn,hholds⟩ := h.lock hlocked
        exact ⟨n,hperm.mem_iff.mp hn,hholds⟩
      settled := fun k hk => h.settled k fun n hn => hk n (hperm.mem_iff.mp hn) }
  rely := LeaseRely
  rely_refl n s := ⟨fun k _ => .refl s k,fun _ _ h => h⟩
  rely_trans h h' :=
    ⟨fun k hk => (h.same k hk).trans (h'.same k hk),fun l hl hexists => h'.leases l hl (h.leases l hl hexists)⟩

/-- The sections that work on a key do so for a call that has noted it. -/
def MetaOp.Owns (n : LeaseNote) : MetaOp → Prop
  | .attachKey _ key => key ∈ n.keys
  | .detachKey _ key => key ∈ n.keys
  | .restore key prevKv => key ∈ n.keys ∧ ∀ kv ∈ prevKv, kv.key = key
  | _ => True

variable {others : List LeaseNote}

theorem LeaseInv.move {n n' : LeaseNote} (h : LeaseInv s (n :: others)) (hsub : ∀ k ∈ n.keys, k ∈ n'.keys)
    (hnew : ∀ k ∈ n'.keys, k ∈ n.keys ∨ ∀ m ∈ others, k ∉ m.keys) (hsame : ∀ k, k ∉ n'.keys → SameOn s s' k)
    (hkeys : ∀ k info, s'.kv.find k = some info → info.kv.key = k)
    (hlock : s'.kv.locked = true → n'.holds = true ∨ s.kv.locked = true ∧ n'.holds = n.holds)
    (hexists : ∀ m ∈ others, ∀ l ∈ m.leases, s.leases.leaseExists l = true → s'.leases.leaseExists l = true) :
    LeaseInv s' (n' :: others) ∧ ∀ m ∈ others, LeaseRely m s s' := by
  obtain ⟨hfirst,hrest⟩ := pairwise_cons.mp h.disjoint
  have hapart : ∀ m ∈ others, ∀ k ∈ n'.keys, k ∉ m.keys := by
    intro m hm k hk
    rcases hnew k hk with hk | hk
    · exact hfirst m hm k hk
    · exact hk m hm
  refine ⟨⟨hkeys,pairwise_cons.mpr ⟨hapart,hrest⟩,?_,?_⟩,?_⟩
  · intro hlocked
    rcases hlock hlocked with hholds | ⟨hlocked,hholds⟩
    · exact ⟨n',mem_cons_self,hholds⟩
    · obtain ⟨m,hm,hm'⟩ := h.lock hlocked
      rcases mem_cons.mp hm with rfl | hm
      · exact ⟨n',mem_cons_self,hholds.trans hm'⟩
      · exact ⟨m,mem_cons_of_mem _ hm,hm'⟩
  · intro k hk
    rw [forall_mem_cons] at hk
    refine (hsame k hk.1).settled (h.settled k ?_)
    rw [forall_mem_cons]
    exact ⟨fun hkn => hk.1 (hsub k hkn),hk.2⟩
  · intro m hm
    exact ⟨fun k hk => hsame k fun hkn => hapart m hm k hkn hk,hexists m hm⟩

theorem LeaseInv.quiet {n : LeaseNote} (h : LeaseInv s (n :: others)) (hkv : s'.kv = s.kv)
    (hleases : s'.leases = s.leases) : LeaseInv s' (n :: others) ∧ ∀ m ∈ others, LeaseRely m s s' := by
  refine h.move (fun _ hk => hk) (fun _ hk => Or.inl hk) ?_ ?_ ?_ ?_
  · intro k _
    exact ⟨by rw [hkv],fun l => by rw [hleases]⟩
  · rw [hkv]
    exact h.keys
  · rw [hkv]
    exact fun hlocked => Or.inr ⟨hlocked,rfl⟩
  · rw [hleases]
    exact fun _ _ _ _ hexists => hexists

theorem LeaseInv.moveLeases {s : MetaStore} {leases : LeaseManager} {n n' : LeaseNote} (h : LeaseInv s (n :: others))
    (hholds : n'.holds = n.holds) (hsub : ∀ k ∈ n.keys, k ∈ n'.keys)
    (hnew : ∀ k ∈ n'.keys, k ∈ n.keys ∨ ∀ m ∈ others, k ∉ m.keys)
    (hsame : ∀ k, k ∉ n'.keys → ∀ l, leases.HasKey l k ↔ s.leases.HasKey l k)
    (hexists : ∀ m ∈ others, ∀ l ∈ m.leases, s.leases.leaseExists l = true → leases.leaseExists l = true) :
    LeaseInv { s with leases := leases } (n' :: others) ∧ ∀ m ∈ others, LeaseRely m s { s with leases := leases } :=
  h.move hsub hnew (fun k hk => ⟨rfl,hsame k hk⟩) h.keys (fun hlocked => Or.inr ⟨hlocked,hholds⟩) hexists

theorem LeaseInv.moveData {s : MetaStore} {kv : KvManager} {n n' : LeaseNote} (h : LeaseInv s (n :: others))
    (log : List Write) (hlock : kv.locked = true → n'.holds = true) (hsub : ∀ k ∈ n.keys, k ∈ n'.keys)
    (hnew : ∀ k ∈ n'.keys, k ∈ n.keys ∨ ∀ m ∈ others, k ∉ m.keys) (hsame : ∀ k, k ∉ n'.keys → kv.find k = s.kv.find k)
    (hkeys : ∀ k info, kv.find k = some info → info.kv.key = k) :
    LeaseInv { s with kv := kv, log := log } (n' :: others) ∧
      ∀ m ∈ others, LeaseRely m s { s with kv := kv, log := log } :=
  h.move hsub hnew (fun k hk => ⟨hsame k hk,fun _ => Iff.rfl⟩) hkeys (fun hlocked => Or.inl (hlock hlocked))
    fun _ _ _ _ hexists => hexists

theorem KvManager.find_updatePutData_of_ne (s : KvManager) {key k : Bytes} (hk : k ≠ key) (value : Bytes)
    (lease : Int) (uninitialized : Numbers) :
    (s.updatePutData key value lease uninitialized).2.find k = s.find k := by
  rw [updatePutData,find_storePut,if_neg hk]
  rfl

theorem KvManager.find_updatePutData (s : KvManager) (key value : Bytes) (lease : Int) (uninitialized : Numbers) :
    ∃ info, (s.updatePutData key value lease uninitialized).2.find key = some info ∧ info.kv.key = key ∧
      info.kv.lease = lease := by
  rw [updatePutData,find_storePut,if_pos rfl]
  refine ⟨_,rfl,?_⟩
  cases s.find key <;> simp [recordPutHistory,preparePutInfo]

theorem KvManager.locked_updatePutData (s : KvManager) (key value : Bytes) (lease : Int) (uninitialized : Numbers) :
    (s.updatePutData key value lease uninitialized).2.locked = s.locked := by
  rw [updatePutData,locked_storePut]

theorem KvManager.find_deleteData (s : KvManager) (key rangeEnd k : Bytes) : (s.deleteData key rangeEnd).2.find k =
      if ∃ e ∈ s.inRange key rangeEnd, e.1 = k then none else s.find k := by
  rw [deleteData,find_eraseAll]
  rfl

theorem KvManager.mem_deleteData {s : KvManager} (hkeys : ∀ k info, s.find k = some info → info.kv.key = k)
    {key rangeEnd k : Bytes} : k ∈ (s.deleteData key rangeEnd).1.map KeyValue.key ↔
      ∃ e ∈ s.inRange key rangeEnd, e.1 = k := by
  simp only [deleteData,map_map,mem_map,Function.comp_apply]
  refine exists_congr fun e => and_congr_right fun he => ?_
  rw [hkeys e.1 e.2 (mem_inRange.mp he).1]

/-- Every section of a call that keeps to its keys meets the protocol. -/
theorem LeaseInv.exec {o : MetaOp} {n : LeaseNote} {r : o.Res} (h : LeaseInv s (n :: others))
    (hguard : leaseGuard o s others) (howns : o.Owns n) (hexec : exec o s = some (r, s')) :
    LeaseInv s' (leaseNote o r n :: others) ∧ ∀ m ∈ others, LeaseRely m s s' := by
  cases o with
  | attachKey leaseId key =>
    cases hexec
    refine h.moveLeases rfl (fun _ hk => hk) (fun _ hk => Or.inl hk) ?_ ?_
    · intro k hk l
      have hne : k ≠ key := by
        rintro rfl
        exact hk howns
      exact hasKey_attachKey_of_ne hne leaseId l
    · simp
  | detachKey leaseId key =>
    cases hexec
    refine h.moveLeases rfl (fun _ hk => hk) (fun _ hk => Or.inl hk) ?_ ?_
    · intro k hk l
      have hne : k ≠ key := by
        rintro rfl
        exact hk howns
      exact hasKey_detachKey_of_ne hne leaseId l
    · simp
  | grant leaseId ttl =>
    cases hexec
    refine h.moveLeases rfl (fun _ hk => hk) (fun _ hk => Or.inl hk) ?_ ?_
    · intro k _ l
      exact hasKey_grant hguard
    · intro m _ l _ hexists
      simp only [LeaseManager.leaseExists,LeaseManager.find_grant] at hexists ⊢
      split_ifs
      · rfl
      · exact hexists
  | eraseLease leaseId =>
    cases hexec
    have hmem : ∀ k, k ∈ ((s.leases.eraseLease leaseId).1.getD []) ↔ s.leases.HasKey leaseId k := by
      intro k
      simp only [LeaseManager.eraseLease,LeaseManager.HasKey]
      cases s.leases.find leaseId <;> simp
    refine h.moveLeases rfl (fun k hk => mem_append_right _ hk) ?_ ?_ ?_
    · intro k hk
      rcases mem_append.mp hk with hk | hk
      · exact Or.inr fun m hm => (hguard m hm).2 k ((hmem k).mp hk)
      · exact Or.inl hk
    · intro k hk l
      rw [hasKey_eraseLease,and_iff_right_iff_imp]
      rintro hl rfl
      exact hk (mem_append_left _ ((hmem k).mpr hl))
    · intro m hm l hl hexists
      have hne : l ≠ leaseId := fun heq => (hguard m hm).1 (heq ▸ hl)
      simpa [LeaseManager.leaseExists,LeaseManager.find_eraseLease,hne] using hexists
  | updatePutData key value lease uninitialized =>
    obtain ⟨hlocked,rfl,rfl⟩ := eq_of_unlocked hexec
    refine h.moveData _ ?_ (fun k hk => mem_cons_of_mem _ hk) ?_ ?_ ?_
    · rw [locked_updatePutData]
      exact fun hl => absurd hl hlocked
    · intro k hk
      rcases mem_cons.mp hk with rfl | hk
      · exact Or.inr hguard
      · exact Or.inl hk
    · intro k hk
      have hne : k ≠ key := by
        rintro rfl
        exact hk mem_cons_self
      exact s.kv.find_updatePutData_of_ne hne _ _ _
    · intro k info hinfo
      by_cases hk : k = key
      · obtain ⟨info',hinfo',hkey,-⟩ := s.kv.find_updatePutData key value lease uninitialized
        rw [hk,hinfo'] at hinfo
        rw [← Option.some.inj hinfo,hkey,hk]
      · rw [s.kv.find_updatePutData_of_ne hk] at hinfo
        exact h.keys k info hinfo
  | restore key prevKv =>
    obtain ⟨-,-,rfl⟩ := eq_of_unlocked hexec
    have hfind : ∀ k, k ≠ key → (s.kv.restore key prevKv).find k = s.kv.find k := by
      intro k hk
      cases prevKv <;> simp [KvManager.restore,hk]
    refine h.moveData s.log (fun _ => rfl) (fun _ hk => hk) (fun _ hk => Or.inl hk) ?_ ?_
    · intro k hk
      exact hfind k fun heq => hk (heq ▸ howns.1)
    · intro k info hinfo
      by_cases hk : k = key
      · subst hk
        cases prevKv with
        | none =>
          change (s.kv.eraseInfo k).find k = some info at hinfo
          simp at hinfo
        | some kv =>
          change (s.kv.setInfo k _).find k = some info at hinfo
          rw [KvManager.find_setInfo,if_pos rfl] at hinfo
          rw [← Option.some.inj hinfo]
          exact howns.2 kv rfl
      · exact h.keys k info ((hfind k hk).symm.trans hinfo)
  | deleteData key rangeEnd =>
    obtain ⟨hlocked,rfl,rfl⟩ := eq_of_unlocked hexec
    have hmem := fun k => @mem_deleteData s.kv h.keys key rangeEnd k
    refine h.moveData _ ?_ (fun k hk => mem_append_right _ hk) ?_ ?_ ?_
    · simp only [KvManager.deleteData,KvManager.locked_eraseAll]
      exact fun hl => absurd hl hlocked
    · intro k hk
      rcases mem_append.mp hk with hk | hk
      · obtain ⟨e,he,rfl⟩ := (hmem k).mp hk
        exact Or.inr fun m hm => hguard m hm e he
      · exact Or.inl hk
    · intro k hk
      rw [find_deleteData,if_neg]
      exact fun he => hk (mem_append_left _ ((hmem k).mpr he))
    · intro k info hinfo
      rw [find_deleteData] at hinfo
      split_ifs at hinfo
      exact h.keys k info hinfo
  | txnData req =>
    obtain ⟨⟨outcome,kv⟩,hdata,heq⟩ := Option.map_eq_some_iff.mp hexec
    cases heq
    obtain ⟨t,htxn,rfl,-,-,hevents⟩ := txnLeases_of_txnData h.keys hdata
    refine h.moveData _ (fun _ => rfl) (fun k hk => mem_append_right _ hk) ?_ ?_ htxn.keys
    · intro k hk
      rcases mem_append.mp hk with hk | hk
      · obtain ⟨e,he,rfl⟩ := mem_map.mp hk
        exact Or.inr fun m hm => (hguard outcome _ hdata).1 m hm e he
      · exact Or.inl hk
    · intro k hk
      apply htxn.untouched
      rintro e he rfl
      exact hk (mem_append_left _ (mem_map_of_mem (hevents ▸ he)))
  | unlock =>
    cases hexec
    exact h.moveData s.log (by simp) (fun _ hk => hk) (fun _ hk => Or.inl hk) (fun _ _ => rfl) h.keys
  | rangeHistory start rangeEnd startRevision =>
    obtain ⟨events,-,heq⟩ := Option.map_eq_some_iff.mp hexec
    cases heq
    exact h.quiet rfl rfl
  | _ =>
    cases hexec
    exact h.quiet rfl rfl

end Datasystem.Metastore
