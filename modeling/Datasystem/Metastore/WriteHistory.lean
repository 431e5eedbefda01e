import Datasystem.Metastore.TxnLeases

/-!
# The history of the writes

What is read from them for a range of keys is complete if no key of the range has had more writes than a
history holds, and it comes in the order of the revisions if the keys were written in their order.
-/

namespace Datasystem.Metastore

open KvManager HistoricalEntry List KvManager Keyed

def HistoricalEntry.write (e : HistoricalEntry) : Write := ⟨e.revision,e.type,e.kv.key,e.kv.value,e.kv.lease⟩

def writesOf (log : List Write) (k : Bytes) : List Write := (log.filter fun w => w.key = k).reverse

def writesFrom (log : List Write) (start rangeEnd : Bytes) (startRevision : Int) : List Write :=
  log.reverse.filter fun w => keyInRange w.key start rangeEnd && decide (startRevision ≤ w.revision)

structure Tracks (s : KvManager) (log : List Write) : Prop where
  keys : ∀ k info, s.find k = some info → info.kv.key = k
  /-- A key that exists has its history in its record. -/
  apart : ∀ k info, s.find k = some info → s.findDeleted k = none
  history : ∀ k, (s.historyOf k).toList.map HistoricalEntry.write = (writesOf log k).rtake maxHistoryEntries
  sorted : log.Pairwise fun newer older => older.revision ≤ newer.revision
  bound : ∀ w ∈ log, w.revision ≤ s.revision

namespace Tracks

variable {s : KvManager} {log : List Write}

theorem init : Tracks {} [] := ⟨by simp [find],by simp [find],fun _ => rfl,List.Pairwise.nil,by simp⟩

variable (h : Tracks s log)

include h

theorem setLocked (locked : Bool) : Tracks { s with locked := locked } log :=
  ⟨h.keys,h.apart,h.history,h.sorted,h.bound⟩

theorem setRevision (revision : Int) (hle : s.revision ≤ revision) : Tracks { s with revision := revision } log :=
  ⟨h.keys,h.apart,h.history,h.sorted,fun w hw => (h.bound w hw).trans hle⟩

variable {w : Write}

theorem history_add {s' : KvManager} {e : HistoricalEntry} (he : e.write = w)
    (hself : s'.historyOf w.key = (s.historyOf w.key).add e)
    (hother : ∀ k, k ≠ w.key → s'.historyOf k = s.historyOf k) (k : Bytes) :
    (s'.historyOf k).toList.map write = (writesOf (w :: log) k).rtake maxHistoryEntries := by
  by_cases hk : k = w.key
  · subst hk
    have hwrites : writesOf (w :: log) w.key = writesOf log w.key ++ [e.write] := by simp [writesOf,he]
    rw [hself,hwrites]
    exact RingBuffer.map_toList_add (h.history w.key) e
  · have hwrites : writesOf (w :: log) k = writesOf log k := by simp [writesOf,Ne.symm hk]
    rw [hother k hk,hwrites]
    exact h.history k

theorem cons_sorted (hw : w.revision = s.revision) :
    (w :: log).Pairwise fun newer older => older.revision ≤ newer.revision :=
  pairwise_cons.mpr ⟨fun older holder => hw ▸ h.bound older holder,h.sorted⟩

theorem cons_bound (hw : w.revision = s.revision) : ∀ x ∈ w :: log, x.revision ≤ s.revision :=
  forall_mem_cons.mpr ⟨hw.le,h.bound⟩

theorem storePut (key : Bytes) (info : KeyInfo) (hkey : info.kv.key = key)
    (hhistory : info.history = HistoryRingBuffer.empty) {revision : Int} (hrevision : revision = s.revision) :
    Tracks (s.storePut key info revision) (⟨revision,.put,key,info.kv.value,info.kv.lease⟩ :: log) := by
  have hinherit := s.inheritKeyHistory_fst key info hhistory
  constructor
  · intro k stored hstored
    rw [find_storePut,hinherit] at hstored
    split_ifs at hstored with hk
    · cases hstored
      exact hkey.trans hk.symm
    · exact h.keys k stored hstored
  · intro k stored hstored
    rw [find_storePut] at hstored
    by_cases hk : k = key
    · subst hk
      rw [KvManager.storePut,KvManager.findDeleted_setInfo]
      unfold inheritKeyHistory
      cases hfind : s.find k with
      | some old => exact h.apart k old hfind
      | none =>
        cases hdeleted : s.findDeleted k with
        | some history => simp
        | none => exact hdeleted
    · rw [if_neg hk] at hstored
      rw [KvManager.storePut,KvManager.findDeleted_setInfo,KvManager.findDeleted_inheritKeyHistory s key info hk]
      exact h.apart k stored hstored
  · refine h.history_add (e := ⟨revision,.put,info.kv⟩) ?_ ?_ ?_
    · simp [write,hkey]
    · exact historyOf_storePut s key info hhistory revision
    · intro k hk
      exact historyOf_storePut_of_ne s key info revision hk
  · exact h.cons_sorted hrevision
  · rw [revision_storePut]
    exact h.cons_bound hrevision

theorem eraseRecorded {e : Bytes × KeyInfo} (he : s.find e.1 = some e.2) {revision : Int}
    (hrevision : revision = s.revision) :
    Tracks (s.eraseRecorded revision e) (⟨revision,.delete,e.1,e.2.kv.value,e.2.kv.lease⟩ :: log) := by
  constructor
  · intro k info hinfo
    rw [find_eraseRecorded] at hinfo
    split_ifs at hinfo
    exact h.keys k info hinfo
  · intro k info hinfo
    rw [find_eraseRecorded] at hinfo
    split_ifs at hinfo with hk
    rw [eraseRecorded_of_find he,findDeleted_eraseInfo,findDeleted_setDeleted,if_neg hk]
    exact h.apart k info hinfo
  · refine h.history_add (e := ⟨revision,.delete,{ e.2.kv with modRevision := revision }⟩) ?_ ?_ ?_
    · simp [write,h.keys e.1 e.2 he]
    · rw [eraseRecorded_of_find he]
      simp [historyOf,he]
    · intro k hk
      dsimp only at hk
      rw [eraseRecorded_of_find he]
      simp [historyOf,hk]
  · exact h.cons_sorted hrevision
  · rw [revision_eraseRecorded]
    exact h.cons_bound hrevision

omit h

theorem eraseInRange (h : Tracks s log) {revision : Int} (hrevision : revision = s.revision) (key rangeEnd : Bytes) :
    Tracks ((s.inRange key rangeEnd).foldl (KvManager.eraseRecorded revision) s) (((s.inRange key rangeEnd).map
        fun e => (⟨revision,.delete,e.1,e.2.kv.value,e.2.kv.lease⟩ : Write)).reverse ++ log) := by
  rw [← foldl_flip_cons_eq_append]
  refine And.left (eraseInRange_induction (P := fun s log => Tracks s log ∧ revision = s.revision) ?_
    ⟨h,hrevision⟩ key rangeEnd)
  rintro s log e ⟨h,hrevision⟩ he
  exact ⟨h.eraseRecorded he hrevision,by rw [revision_eraseRecorded,hrevision]⟩

theorem updatePutData (h : Tracks s log) (key value : Bytes) (lease : Int) (uninitialized : Numbers) :
    Tracks (s.updatePutData key value lease uninitialized).2 (⟨s.revision + 1,.put,key,value,lease⟩ :: log) := by
  have hnext := h.setRevision (s.revision + 1) (by omega)
  have hput := fun kv : KeyValue => hnext.storePut key { preparePutInfo key value lease uninitialized with kv := kv }
  unfold KvManager.updatePutData
  cases s.find key with
  | none => exact hput _ rfl rfl rfl
  | some old => exact hput _ rfl rfl rfl

theorem deleteData (h : Tracks s log) (key rangeEnd : Bytes) : Tracks (s.deleteData key rangeEnd).2
      (((s.deleteData key rangeEnd).1.map
        fun kv => (⟨s.revision + 1,.delete,kv.key,kv.value,kv.lease⟩ : Write)).reverse ++ log) := by
  have herase := (h.setRevision (s.revision + 1) (by omega)).eraseInRange rfl key rangeEnd
  rw [writes_deleteData fun e he => h.keys e.1 e.2 he]
  exact herase

end Tracks

structure TxnTracks (t : TxnState) (log : List Write) : Prop where
  tracks : Tracks t.kv (t.writes.reverse ++ log)
  revision : t.newRevision = t.kv.revision
  begun : t.hasWriteOp = false → t.watchEvents = []

namespace TxnTracks

variable {t t' : TxnState} {log : List Write}

theorem beginWrite (h : TxnTracks t log) : TxnTracks t.beginWrite log := by
  unfold TxnState.beginWrite
  split
  · exact h
  · rename_i hbegun
    have hnone := h.begun (by simpa using hbegun)
    refine ⟨?_,rfl,by simp⟩
    have hnext := h.tracks.setRevision (t.kv.revision + 1) (by omega)
    simp only [TxnState.writes,hnone,map_nil] at hnext ⊢
    exact hnext

theorem executeOp (h : TxnTracks t log) {op : RequestOp} (hop : executeOp t op = some t') : TxnTracks t' log := by
  have hbegun := TxnConsistent.hasWriteOp_beginWrite t
  cases op with
  | put req =>
    cases hop
    have hbegin := h.beginWrite
    refine ⟨?_,?_,by simp [executePutOp,hbegun]⟩
    · have hput := hbegin.tracks.storePut req.key (txnPutInfo t.beginWrite.kv req t.beginWrite.newRevision)
        rfl rfl hbegin.revision
      simpa [TxnState.writes,executePutOp] using hput
    · simpa [executePutOp] using hbegin.revision
  | deleteRange req =>
    cases hop
    have hbegin := h.beginWrite
    refine ⟨?_,?_,by simp [executeDeleteRangeOp,hbegun]⟩
    · have herase := hbegin.tracks.eraseInRange hbegin.revision req.key req.rangeEnd
      simpa [TxnState.writes,executeDeleteRangeOp,Function.comp_def] using herase
    · simpa [executeDeleteRangeOp] using hbegin.revision
  | range req =>
    obtain ⟨kvs,-,rfl⟩ := Option.map_eq_some_iff.mp hop
    exact ⟨h.tracks,h.revision,h.begun⟩

end TxnTracks

theorem Tracks.txnData {s kv : KvManager} {log : List Write} (h : Tracks s log) {req : TxnRequest}
    {outcome : TxnOutcome} (hdata : s.txnData req = some (outcome, kv)) :
    Tracks kv ((outcome.watchEvents.map fun e =>
        (⟨outcome.response.revision,e.type,e.key,e.newKv.value,e.newKv.lease⟩ : Write)).reverse ++ log) ∧
      outcome.response.revision = kv.revision := by
  obtain ⟨t,succeeded,hend,rfl,rfl⟩ := txnData_invariant (P := fun t => TxnTracks t log)
    (fun _ _ _ ht hop => ht.executeOp hop) ⟨h.setLocked true,rfl,fun _ => rfl⟩ hdata
  exact ⟨hend.tracks,hend.revision⟩

variable {startRevision : Int}

/-- What a history holds of a list in the order of revisions: all from a revision on, if it has room for them. -/
theorem filter_rtake {l : List Write} (hsorted : l.Pairwise fun a b => a.revision ≤ b.revision) {n : Nat}
    (hfew : (l.filter fun w => startRevision ≤ w.revision).length ≤ n) :
    (l.rtake n).filter (fun w => startRevision ≤ w.revision) = l.filter fun w => startRevision ≤ w.revision := by
  induction l with
  | nil => simp
  | cons w l ih =>
    obtain ⟨hfirst,hrest⟩ := pairwise_cons.mp hsorted
    by_cases hlen : (w :: l).length ≤ n
    · rw [List.rtake,Nat.sub_eq_zero_of_le hlen,drop_zero]
    · have hdrop : (w :: l).rtake n = l.rtake n := by
        rw [length_cons] at hlen
        simp only [List.rtake,length_cons]
        rw [show l.length + 1 - n = (l.length - n) + 1 by omega,drop_succ_cons]
      by_cases hw : startRevision ≤ w.revision
      · -- Then all of the list is from this revision on, which is too much.
        have hall : (w :: l).filter (fun w => startRevision ≤ w.revision) = w :: l := by
          rw [filter_eq_self]
          intro x hx
          rcases mem_cons.mp hx with rfl | hx
          · simpa using hw
          · simpa using hw.trans (hfirst x hx)
        rw [hall] at hfew
        exact absurd hfew hlen
      · rw [hdrop,filter_cons_of_neg (by simpa using hw)]
        rw [filter_cons_of_neg (by simpa using hw)] at hfew
        exact ih hrest hfew

theorem count_flatMap {β : Type} {l : List (Bytes × β)} (hsorted : Sorted Prod.fst l)
    {f : Bytes × β → List Write} (hf : ∀ e ∈ l, ∀ w ∈ f e, w.key = e.1) (x : Write) :
    (l.flatMap f).count x = (lookup Prod.fst x.key l).elim 0 fun e => (f e).count x := by
  induction l with
  | nil => rfl
  | cons e l ih =>
    rw [flatMap_cons,count_append,ih hsorted.tail fun e' he' => hf e' (mem_cons_of_mem _ he'),Keyed.lookup_cons]
    by_cases he : e.1 = x.key
    · have hnone : lookup Prod.fst x.key l = none := by
        rw [lookup_eq_none]
        intro e' he'
        exact he ▸ ne_of_gt (hsorted.head_lt he')
      simp [he,hnone]
    · have hzero : (f e).count x = 0 := by
        rw [count_eq_zero]
        intro hx
        exact he (hf e mem_cons_self x hx).symm
      simp [he,hzero]

namespace Tracks

variable {s : KvManager} {log : List Write}

theorem writesOf_sorted (h : Tracks s log) (k : Bytes) :
    (writesOf log k).Pairwise fun a b => a.revision ≤ b.revision := by
  rw [writesOf,pairwise_reverse]
  exact h.sorted.filter _

theorem getRange (h : Tracks s log) {k : Bytes}
    (hfew : ((writesOf log k).filter fun w => startRevision ≤ w.revision).length ≤ maxHistoryEntries) :
    ((s.historyOf k).getRange startRevision none).map write =
      (writesOf log k).filter fun w => startRevision ≤ w.revision := by
  rw [← filter_rtake (h.writesOf_sorted k) hfew,← h.history k,HistoryRingBuffer.getRange,filter_map]
  congr 1
  apply filter_congr
  intro e _
  simp only [Option.all_none,Bool.and_true,Function.comp_apply]
  exact decide_eq_decide.mpr Iff.rfl

theorem key_of_mem_getRange (h : Tracks s log) {k : Bytes}
    (hw : w ∈ ((s.historyOf k).getRange startRevision none).map write) : w.key = k := by
  obtain ⟨e,he,rfl⟩ := mem_map.mp hw
  have hmem : e.write ∈ (writesOf log k).rtake maxHistoryEntries := by
    rw [← h.history k]
    exact mem_map_of_mem (mem_filter.mp he).1
  have hwrites : e.write ∈ writesOf log k := mem_of_mem_drop hmem
  simpa [writesOf] using (mem_filter.mp (mem_reverse.mp hwrites)).2

end Tracks

def KvManager.keyedHistory (s : KvManager) (start rangeEnd : Bytes) (startRevision : Int) :
    List (Bytes × HistoricalEntry) :=
  ((s.inRange start rangeEnd).flatMap fun e =>
      (e.2.history.getRange startRevision none).map fun entry => (e.1, entry)) ++
    (s.deletedHistory.filter fun e => keyInRange e.1 start rangeEnd).flatMap fun e =>
      (e.2.getRange startRevision none).map fun entry => (e.1, entry)

/-- By key, and then by revision. -/
def historyLe (a b : Bytes × HistoricalEntry) : Prop := a.1 < b.1 ∨ (a.1 = b.1 ∧ a.2.revision ≤ b.2.revision)

instance instDecidableHistoryLe : DecidableRel historyLe := fun a b =>
  inferInstanceAs (Decidable (a.1 < b.1 ∨ (a.1 = b.1 ∧ a.2.revision ≤ b.2.revision)))

instance instTotalHistoryLe : Std.Total historyLe where
  total a b := by
    unfold historyLe
    rcases lt_trichotomy a.1 b.1 with hlt | heq | hgt
    · exact Or.inl (Or.inl hlt)
    · rcases le_total a.2.revision b.2.revision with hle | hle
      · exact Or.inl (Or.inr ⟨heq,hle⟩)
      · exact Or.inr (Or.inr ⟨heq.symm,hle⟩)
    · exact Or.inr (Or.inl hgt)

instance instIsTransHistoryLe : IsTrans (Bytes × HistoricalEntry) historyLe where
  trans a b c hab hbc := by
    unfold historyLe at hab hbc ⊢
    rcases hab with hab | ⟨hab,hle⟩
    · rcases hbc with hbc | ⟨hbc,-⟩
      · exact Or.inl (hab.trans hbc)
      · exact Or.inl (hbc ▸ hab)
    · rcases hbc with hbc | ⟨hbc,hle'⟩
      · exact Or.inl (hab ▸ hbc)
      · exact Or.inr ⟨hab.trans hbc,hle.trans hle'⟩

variable {events : List HistoricalEntry}

theorem KvManager.rangeHistory_eq_some {s : KvManager} {start rangeEnd : Bytes}
    (h : s.rangeHistory start rangeEnd startRevision = some events) :
    ∃ sorted : List (Bytes × HistoricalEntry), events = sorted.map Prod.snd ∧ sorted.Perm (s.keyedHistory start rangeEnd startRevision) ∧
      sorted.Pairwise historyLe := by
  unfold rangeHistory at h
  split_ifs at h
  cases h
  exact ⟨_,rfl,perm_insertionSort _ _,pairwise_insertionSort historyLe _⟩

theorem KvManager.findDeleted_of_mem {s : KvManager} {e : Bytes × HistoryRingBuffer} (he : e ∈ s.deletedHistory) :
    s.findDeleted e.1 = some e.2 := by
  rw [findDeleted,s.deletedHistory_sorted.lookup_of_mem he]
  rfl

namespace Tracks

variable {s : KvManager} {log : List Write} {start rangeEnd : Bytes}

theorem historyOf_of_mem {e : Bytes × KeyInfo} (he : e ∈ s.inRange start rangeEnd) : s.historyOf e.1 = e.2.history := by
  simp [historyOf,(mem_inRange.mp he).1]

theorem historyOf_of_deleted (h : Tracks s log) {k : Bytes} {history : HistoryRingBuffer}
    (hk : s.findDeleted k = some history) : s.historyOf k = history := by
  unfold historyOf
  cases hfind : s.find k with
  | some info =>
    rw [h.apart k info hfind] at hk
    cases hk
  | none => simp [hk]

theorem count_keyedHistory (h : Tracks s log) (start rangeEnd : Bytes) (startRevision : Int) (x : Write) :
    ((s.keyedHistory start rangeEnd startRevision).map fun p => p.2.write).count x =
      if keyInRange x.key start rangeEnd then
        (((s.historyOf x.key).getRange startRevision none).map write).count x
      else 0 := by
  have hlive : ((s.inRange start rangeEnd).flatMap fun e =>
      (e.2.history.getRange startRevision none).map write).count x =
      if keyInRange x.key start rangeEnd then (s.find x.key).elim 0 fun info =>
        ((info.history.getRange startRevision none).map write).count x else 0 := by
    have hsorted : Sorted Prod.fst (s.inRange start rangeEnd) := s.data_sorted.filter _
    rw [count_flatMap hsorted]
    · rw [inRange,lookup_filter (fun k => keyInRange k start rangeEnd),find]
      split_ifs
      · cases lookup Prod.fst x.key s.data <;> rfl
      · rfl
    · intro e he w hw
      rw [← historyOf_of_mem he] at hw
      exact h.key_of_mem_getRange hw
  have hdeleted : ((s.deletedHistory.filter fun e => keyInRange e.1 start rangeEnd).flatMap fun e =>
      (e.2.getRange startRevision none).map write).count x =
      if keyInRange x.key start rangeEnd then (s.findDeleted x.key).elim 0 fun history =>
        ((history.getRange startRevision none).map write).count x else 0 := by
    rw [count_flatMap (s.deletedHistory_sorted.filter _)]
    · rw [lookup_filter (fun k => keyInRange k start rangeEnd),findDeleted]
      split_ifs
      · cases lookup Prod.fst x.key s.deletedHistory <;> rfl
      · rfl
    · intro e he w hw
      have hfind := findDeleted_of_mem (mem_of_mem_filter he)
      rw [← h.historyOf_of_deleted hfind] at hw
      exact h.key_of_mem_getRange hw
  simp only [keyedHistory,map_append,map_flatMap,map_map,Function.comp_def,count_append] at hlive hdeleted ⊢
  rw [hlive,hdeleted]
  split_ifs
  · cases hfind : s.find x.key with
    | some info => simp [historyOf,hfind,h.apart x.key info hfind]
    | none => cases hgone : s.findDeleted x.key <;> simp [historyOf,hfind,hgone,HistoryRingBuffer.getRange,HistoryRingBuffer.empty]
  · rfl

variable {startRevision : Int}

theorem rangeHistory_perm (h : Tracks s log) (hfew : ∀ k, keyInRange k start rangeEnd = true →
      ((writesOf log k).filter fun w => startRevision ≤ w.revision).length ≤ maxHistoryEntries)
    (hevents : s.rangeHistory start rangeEnd startRevision = some events) :
    (events.map write).Perm (writesFrom log start rangeEnd startRevision) := by
  obtain ⟨sorted,rfl,hperm,-⟩ := rangeHistory_eq_some hevents
  rw [map_map]
  refine (hperm.map _).trans (perm_iff_count.mpr fun x => ?_)
  refine (h.count_keyedHistory start rangeEnd startRevision x).trans ?_
  rw [writesFrom]
  by_cases hrange : keyInRange x.key start rangeEnd = true
  · rw [if_pos hrange,h.getRange (hfew x.key hrange)]
    by_cases hfrom : startRevision ≤ x.revision
    · rw [count_filter (by simpa using hfrom),count_filter (by simp [hrange,hfrom]),writesOf,
        count_reverse,count_reverse,count_filter (by simp)]
    · rw [count_eq_zero.mpr,count_eq_zero.mpr]
      · simp [hfrom]
      · simp [hfrom]
  · rw [if_neg hrange,count_eq_zero.mpr]
    simp [hrange]

theorem key_of_mem_keyedHistory (h : Tracks s log) {p : Bytes × HistoricalEntry}
    (hp : p ∈ s.keyedHistory start rangeEnd startRevision) : p.2.write.key = p.1 := by
  rcases mem_append.mp hp with hp | hp
  · obtain ⟨e,he,hp⟩ := mem_flatMap.mp hp
    obtain ⟨entry,hentry,rfl⟩ := mem_map.mp hp
    rw [← historyOf_of_mem he] at hentry
    exact h.key_of_mem_getRange (mem_map_of_mem hentry)
  · obtain ⟨e,he,hp⟩ := mem_flatMap.mp hp
    obtain ⟨entry,hentry,rfl⟩ := mem_map.mp hp
    rw [← h.historyOf_of_deleted (findDeleted_of_mem (mem_of_mem_filter he))] at hentry
    exact h.key_of_mem_getRange (mem_map_of_mem hentry)

/-- Writes that follow the order of their keys are read in the order of their revisions. -/
theorem rangeHistory_sorted (h : Tracks s log)
    (hperm : (events.map write).Perm (writesFrom log start rangeEnd startRevision))
    (horder : ∀ a ∈ writesFrom log start rangeEnd startRevision,
      ∀ b ∈ writesFrom log start rangeEnd startRevision, a.key < b.key → a.revision ≤ b.revision)
    (hevents : s.rangeHistory start rangeEnd startRevision = some events) :
    (events.map write).Pairwise fun a b => a.revision ≤ b.revision := by
  obtain ⟨sorted,rfl,hsorted,hpairs⟩ := rangeHistory_eq_some hevents
  rw [map_map,pairwise_map]
  refine hpairs.imp_of_mem ?_
  intro a b ha hb hle
  rcases hle with hlt | ⟨-,hle⟩
  · have hmem : ∀ p ∈ sorted, p.2.write ∈ writesFrom log start rangeEnd startRevision := fun p hp =>
      hperm.mem_iff.mp (mem_map_of_mem (mem_map_of_mem hp))
    apply horder _ (hmem a ha) _ (hmem b hb)
    rw [h.key_of_mem_keyedHistory (hsorted.mem_iff.mp ha),h.key_of_mem_keyedHistory (hsorted.mem_iff.mp hb)]
    exact hlt
  · exact hle

end Tracks

end Datasystem.Metastore
