import Datasystem.Metastore.KvTxn

/-!
# What a log of writes says about keys

The metadata of a key, without a store: the version of a key is the number of puts since it was last created,
its creation and modification revisions are those of the first and the last of these puts.
-/

namespace Datasystem.Metastore

open KvManager List
open HistoryRingBuffer (empty)

structure Write where
  revision : Int
  type : EventType
  key : Bytes
  value : Bytes := []
  lease : Int := 0
deriving DecidableEq, Repr

variable (log : List Write)

/-- The puts of a key since it was last deleted. The newest write of a log comes first. -/
def lifetime (key : Bytes) : List Write := (log.filter fun w => w.key = key).takeWhile fun w => w.type = .put

def current (key : Bytes) : Option KeyValue :=
  match lifetime log key with
  | [] => none
  | last :: older =>
    some
      { key := key, value := last.value, lease := last.lease
        createRevision := (older.getLastD last).revision
        modRevision := last.revision
        version := older.length + 1 }

/-- The entry of a write in the history of its key. A delete shows the record that was deleted, with
its own revision. -/
def entryOf (w : Write) (older : List Write) : HistoricalEntry :=
  match w.type with
  | .put => ⟨w.revision,.put,(current (w :: older) w.key).getD {}⟩
  | .delete => ⟨w.revision,.delete,{ (current older w.key).getD {} with modRevision := w.revision }⟩

def entries : List Write → Bytes → List HistoricalEntry
  | [], _ => []
  | w :: older, key => if w.key = key then entryOf w older :: entries older key else entries older key

def putKv (old : Option KeyValue) (revision : Int) (key value : Bytes) (lease : Int) : KeyValue :=
  { key := key, value := value, lease := lease
    createRevision := old.elim revision KeyValue.createRevision
    modRevision := revision
    version := old.elim 1 fun kv => kv.version + 1 }

theorem current_cons_of_ne {w : Write} {k : Bytes} (hk : k ≠ w.key) : current (w :: log) k = current log k := by
  have hlife : lifetime (w :: log) k = lifetime log k := by simp [lifetime,hk.symm]
  rw [current,hlife]
  rfl

theorem current_cons_put (revision : Int) (key value : Bytes) (lease : Int) (k : Bytes) :
    current (⟨revision,.put,key,value,lease⟩ :: log) k =
      if k = key then some (putKv (current log key) revision key value lease) else current log k := by
  by_cases hk : k = key
  · subst hk
    have hlife : lifetime (⟨revision,.put,k,value,lease⟩ :: log) k =
        ⟨revision,.put,k,value,lease⟩ :: lifetime log k := by
      simp [lifetime]
    rw [if_pos rfl,current,hlife]
    unfold current
    cases hold : lifetime log k with
    | nil => simp [putKv]
    | cons last older => simp [putKv,getLastD_cons,-getLastD_eq_getLast?]
  · rw [if_neg hk,current_cons_of_ne log hk]

theorem current_cons_delete (revision : Int) (key value : Bytes) (lease : Int) (k : Bytes) :
    current (⟨revision,.delete,key,value,lease⟩ :: log) k = if k = key then none else current log k := by
  by_cases hk : k = key
  · subst hk
    simp [current,lifetime]
  · rw [if_neg hk,current_cons_of_ne log hk]

def KvManager.historyOf (s : KvManager) (key : Bytes) : HistoryRingBuffer :=
  match s.find key with
  | some info => info.history
  | none => (s.findDeleted key).getD .empty

structure Consistent (s : KvManager) (log : List Write) : Prop where
  kv : ∀ k, (s.find k).map KeyInfo.kv = current log k
  numbers : ∀ k info, s.find k = some info → info.numbers = info.kv.numbers
  history : ∀ k, (s.historyOf k).toList = (entries log k).reverse.rtake maxHistoryEntries

namespace Consistent

variable {s : KvManager} {log}

theorem init : Consistent {} [] := ⟨fun _ => rfl,fun _ _ h => by simp [find] at h,fun _ => rfl⟩

theorem setLocked (h : Consistent s log) (locked : Bool) : Consistent { s with locked := locked } log :=
  ⟨h.kv,h.numbers,h.history⟩

theorem setRevision (h : Consistent s log) (revision : Int) : Consistent { s with revision := revision } log :=
  ⟨h.kv,h.numbers,h.history⟩

theorem history_add (h : Consistent s log) {w : Write} {s' : KvManager}
    (hself : s'.historyOf w.key = (s.historyOf w.key).add (entryOf w log))
    (hother : ∀ k, k ≠ w.key → s'.historyOf k = s.historyOf k) (k : Bytes) :
    (s'.historyOf k).toList = (entries (w :: log) k).reverse.rtake maxHistoryEntries := by
  by_cases hk : k = w.key
  · subst hk
    rw [hself,entries,if_pos rfl,reverse_cons]
    exact RingBuffer.toList_add (h.history w.key) _
  · rw [hother k hk,entries,if_neg (Ne.symm hk)]
    exact h.history k

end Consistent

namespace KvManager

variable (s : KvManager) (key : Bytes) (info : KeyInfo)

theorem inheritKeyHistory_fst (hinfo : info.history = empty) :
    (s.inheritKeyHistory key info).1 = { info with history := s.historyOf key } := by
  unfold inheritKeyHistory historyOf
  cases s.find key with
  | some old => rfl
  | none =>
    cases s.findDeleted key with
    | some history => rfl
    | none => simp [← hinfo]

theorem find_inheritKeyHistory (k : Bytes) : (s.inheritKeyHistory key info).2.find k = s.find k := by
  unfold inheritKeyHistory
  split
  · rfl
  · split <;> rfl

theorem findDeleted_inheritKeyHistory {k : Bytes} (hk : k ≠ key) :
    (s.inheritKeyHistory key info).2.findDeleted k = s.findDeleted k := by
  unfold inheritKeyHistory
  split
  · rfl
  · split
    · simp [hk]
    · rfl

theorem find_storePut (revision : Int) (k : Bytes) : (s.storePut key info revision).find k =
      if k = key then some (recordPutHistory (s.inheritKeyHistory key info).1 revision) else s.find k := by
  rw [storePut,find_setInfo,find_inheritKeyHistory]

theorem historyOf_storePut (hinfo : info.history = empty) (revision : Int) :
    (s.storePut key info revision).historyOf key = (s.historyOf key).add ⟨revision,.put,info.kv⟩ := by
  rw [historyOf,find_storePut,if_pos rfl,inheritKeyHistory_fst s key info hinfo]
  rfl

theorem historyOf_storePut_of_ne (revision : Int) {k : Bytes} (hk : k ≠ key) :
    (s.storePut key info revision).historyOf k = s.historyOf k := by
  simp only [historyOf,find_storePut,if_neg hk]
  rw [storePut,findDeleted_setInfo,findDeleted_inheritKeyHistory s key info hk]

theorem writes_deleteData {s : KvManager} {key rangeEnd : Bytes}
    (hkeys : ∀ e : Bytes × KeyInfo, s.find e.1 = some e.2 → e.2.kv.key = e.1) :
    (s.deleteData key rangeEnd).1.map (fun kv => (⟨s.revision + 1,.delete,kv.key,kv.value,kv.lease⟩ : Write)) =
      (s.inRange key rangeEnd).map fun e => ⟨s.revision + 1,.delete,e.1,e.2.kv.value,e.2.kv.lease⟩ := by
  rw [deleteData,map_map]
  apply map_congr_left
  intro e he
  simp [hkeys e (mem_inRange.mp he).1]

end KvManager

namespace Consistent

variable {s : KvManager} {log}

theorem storePut (h : Consistent s log) {key value : Bytes} {lease revision : Int} {info : KeyInfo}
    (hkv : info.kv = putKv (current log key) revision key value lease) (hnumbers : info.numbers = info.kv.numbers)
    (hhistory : info.history = empty) :
    Consistent (s.storePut key info revision) (⟨revision,.put,key,value,lease⟩ :: log) := by
  have hinherit := s.inheritKeyHistory_fst key info hhistory
  have hcurrent := current_cons_put log revision key value lease
  refine ⟨?_,?_,h.history_add ?_ ?_⟩
  · intro k
    rw [find_storePut,hcurrent,hinherit]
    split_ifs
    · simp [recordPutHistory,hkv]
    · exact h.kv k
  · intro k stored hstored
    rw [find_storePut,hinherit] at hstored
    split_ifs at hstored
    · cases hstored
      exact hnumbers
    · exact h.numbers k stored hstored
  · rw [historyOf_storePut s key info hhistory,entryOf]
    simp [hcurrent,hkv]
  · intro k hk
    exact historyOf_storePut_of_ne s key info revision hk

theorem txnPut (h : Consistent s log) (req : PutRequest) (revision : Int) :
    Consistent (s.storePut req.key (txnPutInfo s req revision) revision)
      (⟨revision,.put,req.key,req.value,req.lease⟩ :: log) := by
  refine h.storePut ?_ rfl rfl
  have hold := h.kv req.key
  cases hfind : s.find req.key with
  | none =>
    rw [hfind] at hold
    simp [txnPutInfo,hfind,putKv,← hold]
  | some info =>
    have hnumbers := h.numbers _ _ hfind
    rw [hfind] at hold
    simp [txnPutInfo,hfind,putKv,← hold,hnumbers,KeyValue.numbers]

theorem eraseRecorded (h : Consistent s log) {e : Bytes × KeyInfo} (he : s.find e.1 = some e.2)
    (revision : Int) (value : Bytes) (lease : Int) :
    Consistent (s.eraseRecorded revision e) (⟨revision,.delete,e.1,value,lease⟩ :: log) := by
  have hcurrent := current_cons_delete log revision e.1 value lease
  have hold : current log e.1 = some e.2.kv := by
    rw [← h.kv,he]
    rfl
  rw [eraseRecorded_of_find he]
  refine ⟨?_,?_,h.history_add ?_ ?_⟩
  · intro k
    rw [hcurrent,find_eraseInfo,find_setDeleted]
    split_ifs
    · rfl
    · exact h.kv k
  · intro k info hinfo
    rw [find_eraseInfo,find_setDeleted] at hinfo
    split_ifs at hinfo
    exact h.numbers k info hinfo
  · simp [historyOf,entryOf,he,hold]
  · intro k hk
    dsimp only at hk
    simp [historyOf,hk]

end Consistent

@[simp] theorem KvManager.find_recordDeleteHistory (s : KvManager) (key : Bytes) (kv : KeyValue)
    (revision : Int) (k : Bytes) : (s.recordDeleteHistory key kv revision).find k = s.find k := by
  unfold recordDeleteHistory
  split <;> rfl

theorem KvManager.find_eraseRecorded (s : KvManager) (revision : Int) (e : Bytes × KeyInfo) (k : Bytes) :
    (s.eraseRecorded revision e).find k = if k = e.1 then none else s.find k := by
  rw [eraseRecorded,find_eraseInfo,find_recordDeleteHistory]

/-- What the erasure of one record keeps of a store and of what is noted beside it, the erasure of a range keeps. -/
theorem KvManager.eraseInRange_induction {β : Type} {P : KvManager → β → Prop} {revision : Int}
    {note : β → Bytes × KeyInfo → β} (hstep : ∀ s b (e : Bytes × KeyInfo), P s b → s.find e.1 = some e.2 →
      P (s.eraseRecorded revision e) (note b e)) {s : KvManager} {b : β} (h : P s b) (key rangeEnd : Bytes) :
    P ((s.inRange key rangeEnd).foldl (eraseRecorded revision) s) ((s.inRange key rangeEnd).foldl note b) := by
  have hfind : ∀ e ∈ s.inRange key rangeEnd, s.find e.1 = some e.2 := fun _ he => (mem_inRange.mp he).1
  have hsorted : Keyed.Sorted Prod.fst (s.inRange key rangeEnd) := s.data_sorted.filter _
  generalize s.inRange key rangeEnd = l at hfind hsorted ⊢
  induction l generalizing s b with
  | nil => exact h
  | cons e l ih =>
    refine ih (hstep s b e h (hfind e mem_cons_self)) ?_ hsorted.tail
    intro e' he'
    rw [find_eraseRecorded,if_neg (ne_of_gt (hsorted.head_lt he'))]
    exact hfind e' (mem_cons_of_mem _ he')

namespace Consistent

variable {s : KvManager} {log}

theorem eraseInRange (h : Consistent s log) (revision : Int) (key rangeEnd : Bytes)
    (value : Bytes × KeyInfo → Bytes) (lease : Bytes × KeyInfo → Int) :
    Consistent ((s.inRange key rangeEnd).foldl (KvManager.eraseRecorded revision) s) (((s.inRange key rangeEnd).map
        fun e => (⟨revision,.delete,e.1,value e,lease e⟩ : Write)).reverse ++ log) := by
  rw [← foldl_flip_cons_eq_append]
  exact eraseInRange_induction (fun _ _ e h he => h.eraseRecorded he revision (value e) (lease e)) h key rangeEnd

theorem kv_key (h : Consistent s log) {k : Bytes} {info : KeyInfo} (hk : s.find k = some info) : info.kv.key = k := by
  have hcurrent := h.kv k
  rw [hk,current] at hcurrent
  split at hcurrent
  · cases hcurrent
  · exact congrArg KeyValue.key (Option.some.inj hcurrent)

theorem deleteData (h : Consistent s log) (key rangeEnd : Bytes) : Consistent (s.deleteData key rangeEnd).2
      (((s.deleteData key rangeEnd).1.map
        fun kv => (⟨s.revision + 1,.delete,kv.key,kv.value,kv.lease⟩ : Write)).reverse ++ log) := by
  have herase := (h.setRevision (s.revision + 1)).eraseInRange (s.revision + 1) key rangeEnd
    (fun e => e.2.kv.value) (fun e => e.2.kv.lease)
  rw [KvManager.writes_deleteData fun _ he => h.kv_key he]
  exact herase

end Consistent

def TxnState.writes (t : TxnState) : List Write :=
  t.watchEvents.map fun e => ⟨t.newRevision,e.type,e.key,e.newKv.value,e.newKv.lease⟩

/-- The store of a transaction and the log it started with. -/
structure TxnConsistent (t : TxnState) (log : List Write) : Prop where
  consistent : Consistent t.kv (t.writes.reverse ++ log)
  begun : t.hasWriteOp = false → t.watchEvents = []

namespace TxnConsistent

variable {t : TxnState} {log}

theorem beginWrite (h : TxnConsistent t log) : TxnConsistent t.beginWrite log := by
  unfold TxnState.beginWrite
  split
  · exact h
  · rename_i hbegun
    have hnone := h.begun (by simpa using hbegun)
    refine ⟨?_,by simp⟩
    have hconsistent := h.consistent.setRevision (t.kv.revision + 1)
    simp only [TxnState.writes,hnone,map_nil] at hconsistent ⊢
    exact hconsistent

theorem hasWriteOp_beginWrite (t : TxnState) : t.beginWrite.hasWriteOp = true := by
  unfold TxnState.beginWrite
  split
  · assumption
  · rfl

theorem executePutOp (h : TxnConsistent t log) (hbegun : t.hasWriteOp = true) (req : PutRequest) :
    TxnConsistent (executePutOp t req) log := by
  refine ⟨?_,?_⟩
  · have hput := h.consistent.txnPut req t.newRevision
    simpa [TxnState.writes,Metastore.executePutOp,txnPutInfo] using hput
  · intro hnot
    exact absurd (hbegun.symm.trans hnot) (by simp)

theorem executeDeleteRangeOp (h : TxnConsistent t log) (hbegun : t.hasWriteOp = true)
    (req : DeleteRangeRequest) : TxnConsistent (executeDeleteRangeOp t req) log := by
  refine ⟨?_,?_⟩
  · have herase := h.consistent.eraseInRange t.newRevision req.key req.rangeEnd
      (fun e => e.2.kv.value) (fun e => e.2.kv.lease)
    simpa [TxnState.writes,Metastore.executeDeleteRangeOp,Function.comp_def] using herase
  · intro hnot
    exact absurd (hbegun.symm.trans hnot) (by simp)

theorem executeOp {t' : TxnState} (h : TxnConsistent t log) {op : RequestOp} (hop : executeOp t op = some t') :
    TxnConsistent t' log := by
  cases op with
  | put req =>
    cases hop
    exact h.beginWrite.executePutOp (hasWriteOp_beginWrite t) req
  | deleteRange req =>
    cases hop
    exact h.beginWrite.executeDeleteRangeOp (hasWriteOp_beginWrite t) req
  | range req =>
    obtain ⟨kvs,-,rfl⟩ := Option.map_eq_some_iff.mp hop
    exact ⟨h.consistent,h.begun⟩

end TxnConsistent

end Datasystem.Metastore
