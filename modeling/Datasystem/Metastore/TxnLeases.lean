import Datasystem.Metastore.WriteLog

/-!
# The leases of a transaction

If no key with a lease is put again after it was deleted, then the puts followed by the deletes lead to the
leases that the keys have at the end.
-/

namespace Datasystem.Metastore

open KvManager List Keyed

/-- The lease of a key; zero stands for none, also where the key does not exist. -/
def KvManager.leaseOf (s : KvManager) (key : Bytes) : Int := (s.find key).elim 0 fun info => info.kv.lease

theorem KvManager.leaseOf_congr {s s' : KvManager} {key : Bytes} (h : s'.find key = s.find key) :
    s'.leaseOf key = s.leaseOf key := by
  rw [leaseOf,leaseOf,h]

def bindPuts (lease : Bytes → Int) (changes : List (Bytes × Int × Int)) : Bytes → Int :=
  changes.foldl (fun lease change => Function.update lease change.1 change.2.2) lease

theorem bindPuts_concat (lease : Bytes → Int) (changes : List (Bytes × Int × Int)) (change : Bytes × Int × Int) :
    bindPuts lease (changes ++ [change]) = Function.update (bindPuts lease changes) change.1 change.2.2 := by
  simp [bindPuts]

/-- Each put notes the lease that its key has at that moment. -/
def PutChain (lease : Bytes → Int) (changes : List (Bytes × Int × Int)) : Prop :=
  ∀ done change rest, done ++ change :: rest = changes → change.2.1 = bindPuts lease done change.1

theorem PutChain.concat {lease : Bytes → Int} {changes : List (Bytes × Int × Int)} {change : Bytes × Int × Int}
    (h : PutChain lease changes) (hchange : change.2.1 = bindPuts lease changes change.1) :
    PutChain lease (changes ++ [change]) := by
  intro done c rest heq
  rcases eq_nil_or_concat rest with rfl | ⟨rest',last,rfl⟩
  · obtain ⟨rfl,hlast⟩ := append_inj' heq rfl
    obtain rfl := singleton_inj.mp hlast
    exact hchange
  · have heq' : (done ++ c :: rest') ++ [last] = changes ++ [change] := by simpa using heq
    exact h done c rest' (append_inj' heq' rfl).1

def NoPutAfterDelete (events : List WatchEvent) : Prop :=
  events.Pairwise fun a b => a.type = .delete → a.newKv.lease ≠ 0 → b.type = .put → b.key ≠ a.key

theorem find_eraseAll (revision : Int) (l : List (Bytes × KeyInfo)) (s : KvManager) (k : Bytes) :
    (l.foldl (eraseRecorded revision) s).find k = if ∃ e ∈ l, e.1 = k then none else s.find k := by
  induction l generalizing s with
  | nil => simp
  | cons e l ih =>
    rw [foldl_cons,ih,find_eraseRecorded]
    by_cases hk : k = e.1
    · simp [hk]
    · have hcons : (∃ e' ∈ e :: l, e'.1 = k) ↔ ∃ e' ∈ l, e'.1 = k := by simp [Ne.symm hk]
      rw [if_neg hk]
      exact if_congr hcons.symm rfl rfl

/-- The leases that the puts lead to are those of the keys, unless the delete of the key is noted. -/
structure Bindings (lease : Bytes → Int) (s : KvManager) (deleted : List (Bytes × Int)) : Prop where
  held : ∀ k, lookup Prod.fst k deleted = none → s.leaseOf k = lease k
  gone : ∀ k d, lookup Prod.fst k deleted = some d → d.2 = lease k ∧ s.find k = none

namespace Bindings

variable {lease : Bytes → Int} {s : KvManager} {deleted : List (Bytes × Int)}

theorem put (h : Bindings lease s deleted) {key : Bytes} (hkey : lookup Prod.fst key deleted = none)
    (info : KeyInfo) (revision : Int) :
    Bindings (Function.update lease key info.kv.lease) (s.storePut key info revision) deleted := by
  constructor
  · intro k hk
    rw [leaseOf,find_storePut]
    by_cases hkk : k = key
    · subst hkk
      simp [recordPutHistory]
    · rw [if_neg hkk,Function.update_of_ne hkk]
      exact h.held k hk
  · intro k d hd
    have hkk : k ≠ key := by
      intro heq
      rw [heq,hkey] at hd
      cases hd
    rw [Function.update_of_ne hkk,find_storePut,if_neg hkk]
    exact h.gone k d hd

theorem erase (h : Bindings lease s deleted) {e : Bytes × KeyInfo} (he : s.find e.1 = some e.2) (revision : Int) :
    Bindings lease (s.eraseRecorded revision e) (recordLease deleted e) := by
  have hnone : lookup Prod.fst e.1 deleted = none := by
    cases hlookup : lookup Prod.fst e.1 deleted with
    | none => rfl
    | some d =>
      have hgone := (h.gone e.1 d hlookup).2
      rw [he] at hgone
      cases hgone
  have hlease : e.2.kv.lease = lease e.1 := by
    rw [← h.held e.1 hnone,leaseOf,he]
    rfl
  have hfind := s.find_eraseRecorded revision e
  unfold recordLease
  by_cases hzero : e.2.kv.lease = 0
  · rw [if_neg (not_not.mpr hzero)]
    constructor
    · intro k hk
      rw [leaseOf,hfind]
      by_cases hke : k = e.1
      · rw [if_pos hke,hke,← hlease,hzero]
        rfl
      · rw [if_neg hke]
        exact h.held k hk
    · intro k d hd
      refine ⟨(h.gone k d hd).1,?_⟩
      rw [hfind,(h.gone k d hd).2,ite_self]
  · rw [if_pos hzero]
    constructor
    · intro k hk
      rw [lookup_upsert] at hk
      by_cases hke : k = e.1
      · simp [hke] at hk
      · rw [if_neg hke] at hk
        rw [leaseOf,hfind,if_neg hke]
        exact h.held k hk
    · intro k d hd
      rw [lookup_upsert] at hd
      by_cases hke : k = e.1
      · simp only [hke,if_true,Option.some.injEq] at hd
        subst hd hke
        exact ⟨hlease,by rw [hfind,if_pos rfl]⟩
      · rw [if_neg hke] at hd
        rw [hfind,if_neg hke]
        exact h.gone k d hd

end Bindings

theorem lookup_recordLeases {l : List (Bytes × KeyInfo)} {deleted : List (Bytes × Int)} {k : Bytes}
    {d : Bytes × Int} (h : lookup Prod.fst k (l.foldl recordLease deleted) = some d) :
    lookup Prod.fst k deleted = some d ∨ ∃ e ∈ l, e.1 = k ∧ e.2.kv.lease ≠ 0 := by
  induction l generalizing deleted with
  | nil => exact Or.inl h
  | cons e l ih =>
    rcases ih h with h | ⟨e',he',hk⟩
    · unfold recordLease at h
      split at h
      · rename_i hlease
        rw [lookup_upsert] at h
        by_cases hk : k = e.1
        · exact Or.inr ⟨e,mem_cons_self,hk.symm,hlease⟩
        · rw [if_neg hk] at h
          exact Or.inl h
      · exact Or.inl h
    · exact Or.inr ⟨e',mem_cons_of_mem _ he',hk⟩

theorem sorted_recordLeases {l : List (Bytes × KeyInfo)} {deleted : List (Bytes × Int)}
    (h : Sorted Prod.fst deleted) : Sorted Prod.fst (l.foldl recordLease deleted) := by
  induction l generalizing deleted with
  | nil => exact h
  | cons e l ih =>
    apply ih
    unfold recordLease
    split
    · exact h.upsert _
    · exact h

/-- A transaction in the middle of its operations, seen from the store in which it has begun. -/
structure TxnLeases (s : KvManager) (t : TxnState) : Prop where
  untouched : ∀ k, (∀ e ∈ t.watchEvents, e.key ≠ k) → t.kv.find k = s.find k
  keys : ∀ k info, t.kv.find k = some info → info.kv.key = k
  sorted : Sorted Prod.fst t.deletedLeases
  putKeys : ∀ change ∈ t.putLeases, ∃ e ∈ t.watchEvents, e.key = change.1
  deletedKeys : ∀ k d, lookup Prod.fst k t.deletedLeases = some d →
    ∃ e ∈ t.watchEvents, e.type = .delete ∧ e.newKv.lease ≠ 0 ∧ e.key = k
  chain : NoPutAfterDelete t.watchEvents → PutChain s.leaseOf t.putLeases
  bindings : NoPutAfterDelete t.watchEvents → Bindings (bindPuts s.leaseOf t.putLeases) t.kv t.deletedLeases

namespace TxnLeases

variable {s : KvManager} {t t' : TxnState}

theorem init (s : KvManager) (h : ∀ k info, s.find k = some info → info.kv.key = k) (revision : Int) :
    TxnLeases s ⟨{ s with locked := true },revision,false,[],[],[],[]⟩ where
  untouched _ _ := rfl
  keys := h
  sorted := by simp [Sorted]
  putKeys := by simp
  deletedKeys := by simp
  chain _ := by
    intro done change rest heq
    simp at heq
  bindings _ := ⟨fun _ _ => rfl,by simp⟩

theorem beginWrite (h : TxnLeases s t) : TxnLeases s t.beginWrite := by
  unfold TxnState.beginWrite
  split
  · exact h
  · exact ⟨h.untouched,h.keys,h.sorted,h.putKeys,h.deletedKeys,h.chain,
      fun hno => ⟨(h.bindings hno).held,(h.bindings hno).gone⟩⟩

theorem executePutOp (h : TxnLeases s t) (req : PutRequest) : TxnLeases s (executePutOp t req) := by
  have hold : ((t.kv.find req.key).map KeyInfo.kv).elim 0 KeyValue.lease = t.kv.leaseOf req.key := by
    unfold leaseOf
    cases t.kv.find req.key <;> rfl
  -- The part of the condition that concerns this put.
  have hnone : NoPutAfterDelete (Metastore.executePutOp t req).watchEvents →
      NoPutAfterDelete t.watchEvents ∧ lookup Prod.fst req.key t.deletedLeases = none := by
    intro hno
    obtain ⟨hbefore,-,hlast⟩ := pairwise_append.mp hno
    refine ⟨hbefore,?_⟩
    cases hlookup : lookup Prod.fst req.key t.deletedLeases with
    | none => rfl
    | some d =>
      obtain ⟨e,he,htype,hlease,hkey⟩ := h.deletedKeys _ d hlookup
      exact absurd hkey.symm (hlast e he _ (mem_singleton.mpr rfl) htype hlease rfl)
  constructor
  · intro k hk
    simp only [Metastore.executePutOp,forall_mem_append,forall_mem_singleton] at hk ⊢
    rw [find_storePut,if_neg (Ne.symm hk.2)]
    exact h.untouched k hk.1
  · intro k info hinfo
    simp only [Metastore.executePutOp,find_storePut] at hinfo
    split_ifs at hinfo with hk
    · cases hinfo
      simp [recordPutHistory,txnPutInfo,hk]
    · exact h.keys k info hinfo
  · exact h.sorted
  · intro change hchange
    rcases mem_append.mp hchange with hchange | hchange
    · obtain ⟨e,he,hkey⟩ := h.putKeys change hchange
      exact ⟨e,mem_append_left _ he,hkey⟩
    · obtain rfl := mem_singleton.mp hchange
      exact ⟨_,mem_append_right _ (mem_singleton.mpr rfl),rfl⟩
  · intro k d hd
    obtain ⟨e,he,hprops⟩ := h.deletedKeys k d hd
    exact ⟨e,mem_append_left _ he,hprops⟩
  · intro hno
    obtain ⟨hbefore,hlookup⟩ := hnone hno
    apply (h.chain hbefore).concat
    exact hold.trans ((h.bindings hbefore).held _ hlookup)
  · intro hno
    obtain ⟨hbefore,hlookup⟩ := hnone hno
    have hput := (h.bindings hbefore).put hlookup (txnPutInfo t.kv req t.newRevision) t.newRevision
    simp only [Metastore.executePutOp,bindPuts_concat]
    exact hput

theorem executeDeleteRangeOp (h : TxnLeases s t) (req : DeleteRangeRequest) :
    TxnLeases s (executeDeleteRangeOp t req) := by
  have hevents : ∀ {e}, e ∈ t.kv.inRange req.key req.rangeEnd →
      (⟨.delete,e.1,{ e.2.kv with modRevision := t.newRevision },none⟩ : WatchEvent) ∈
        (Metastore.executeDeleteRangeOp t req).watchEvents := by
    intro e he
    exact mem_append_right _ (mem_map_of_mem he)
  constructor
  · intro k hk
    have hnot : ¬ ∃ e ∈ t.kv.inRange req.key req.rangeEnd, e.1 = k := by
      rintro ⟨e,he,hek⟩
      exact hk _ (hevents he) hek
    simp only [Metastore.executeDeleteRangeOp]
    rw [find_eraseAll,if_neg hnot]
    exact h.untouched k fun e he => hk e (mem_append_left _ he)
  · intro k info hinfo
    simp only [Metastore.executeDeleteRangeOp,find_eraseAll] at hinfo
    split_ifs at hinfo
    exact h.keys k info hinfo
  · exact sorted_recordLeases h.sorted
  · intro change hchange
    obtain ⟨e,he,hkey⟩ := h.putKeys change hchange
    exact ⟨e,mem_append_left _ he,hkey⟩
  · intro k d hd
    rcases lookup_recordLeases hd with hd | ⟨e,he,hkey,hlease⟩
    · obtain ⟨e,he,hprops⟩ := h.deletedKeys k d hd
      exact ⟨e,mem_append_left _ he,hprops⟩
    · exact ⟨_,hevents he,rfl,hlease,hkey⟩
  · intro hno
    exact h.chain (pairwise_append.mp hno).1
  · intro hno
    exact eraseInRange_induction (fun _ _ _ h he => h.erase he t.newRevision)
      (h.bindings (pairwise_append.mp hno).1) _ _

theorem executeOp (h : TxnLeases s t) {op : RequestOp} (hop : executeOp t op = some t') : TxnLeases s t' := by
  cases op with
  | put req =>
    cases hop
    exact h.beginWrite.executePutOp req
  | deleteRange req =>
    cases hop
    exact h.beginWrite.executeDeleteRangeOp req
  | range req =>
    obtain ⟨kvs,-,rfl⟩ := Option.map_eq_some_iff.mp hop
    exact ⟨h.untouched,h.keys,h.sorted,h.putKeys,h.deletedKeys,h.chain,h.bindings⟩

end TxnLeases

theorem txnLeases_of_txnData {s kv : KvManager} {req : TxnRequest} {outcome : TxnOutcome}
    (hkeys : ∀ k info, s.find k = some info → info.kv.key = k) (h : s.txnData req = some (outcome, kv)) :
    ∃ t, TxnLeases s t ∧ t.kv = kv ∧ t.putLeases = outcome.putLeases ∧
      t.deletedLeases = outcome.deletedLeases ∧ t.watchEvents = outcome.watchEvents := by
  obtain ⟨t,succeeded,ht,rfl,rfl⟩ := txnData_invariant (P := TxnLeases s)
    (fun _ _ _ ht hop => ht.executeOp hop) (TxnLeases.init s hkeys _) h
  exact ⟨t,ht,rfl,rfl,rfl,rfl⟩

end Datasystem.Metastore
