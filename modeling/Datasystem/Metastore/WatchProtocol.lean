import Datasystem.Lib.Threads
import Datasystem.Metastore.KeyMetadata
import Datasystem.Metastore.WatchDelivery

/-!
# Calls that notify watchers

It notes the writes of which the watchers do not know yet. As long as no other call commits meanwhile, the
revision is that of the writes, and all watchers get all writes in the order of the commits.
-/

namespace Datasystem.Metastore

open List

inductive RegistrationPhase where
  | added
  | read (events : List HistoricalEntry)
  | sent

structure Registration where
  watchId : Int
  req : WatchCreateRequest
  phase : RegistrationPhase

structure WatchNote where
  /-- Writes that were committed and whose watchers are not collected yet. -/
  pending : List Write := []
  /-- Writes that are to be sent, each to a watcher. -/
  sending : List (Int × Write) := []
  /-- The watcher that the call registers. -/
  registering : Option Registration := none

/-- The watchers do not know all writes of the call. -/
def WatchNote.Busy (n : WatchNote) : Prop := n.pending ≠ [] ∨ n.sending ≠ []

def watchNote : (o : MetaOp) → o.Res → WatchNote → WatchNote
  | .updatePutData key value lease _, (u : PutUpdate), n =>
    { n with pending := n.pending ++ [⟨u.newRevision,.put,key,value,lease⟩] }
  | .deleteData _ _, (kvs : List KeyValue), n =>
    { n with pending := n.pending ++
        kvs.map fun kv : KeyValue => ⟨kv.modRevision,.delete,kv.key,kv.value,kv.lease⟩ }
  | .txnData _, (outcome : TxnOutcome), n => { n with pending := n.pending ++ outcome.writes }
  | .collectWatchers _, (watchers : List Watcher), n =>
    match n.pending with
    | [] => n
    | x :: rest =>
      { n with pending := rest, sending := n.sending ++ watchers.map fun w : Watcher => (w.watchId, x) }
  | .sendWatchResponse _, _, n => { n with sending := n.sending.tail }
  | .addWatcher req, (watchId : Int), n => { n with registering := some ⟨watchId,req,.added⟩ }
  | .rangeHistory _ _ _, (events : List HistoricalEntry), n =>
    { n with registering := n.registering.map fun r => { r with phase := .read events } }
  | .sendHistory _ _, _, n => { n with registering := n.registering.map fun r => { r with phase := .sent } }
  | .startWatcher _, _, n => { n with registering := none }
  | _, _, n => n

/-- The ends of ranges on which `KeyInRange` and `KeyMatchesWatcher` agree. -/
def WatchCreateRequest.RangeOk (req : WatchCreateRequest) : Prop := req.rangeEnd = [0] ∨ req.rangeEnd.head? ≠ some 0

/-- The histories have room for the writes of a range from a revision on, and the keys of the range were
written in their order. -/
structure HistoryOk (log : List Write) (start rangeEnd : Bytes) (startRevision : Int) : Prop where
  few : ∀ k, keyInRange k start rangeEnd = true →
    ((writesOf log k).filter fun w => startRevision ≤ w.revision).length ≤ maxHistoryEntries
  order : ∀ a ∈ writesFrom log start rangeEnd startRevision, ∀ b ∈ writesFrom log start rangeEnd startRevision,
    a.key < b.key → a.revision ≤ b.revision

/-- What a section has to respect of the calls in progress. No call commits while the watchers do not know
all writes of another one, no put is taken back, and history is read only where it is complete and in order. -/
def watchGuard : MetaOp → MetaStore → List WatchNote → Prop
  | .updatePutData _ _ _ _, _, others => ∀ m ∈ others, ¬ m.Busy
  | .deleteData _ _, _, others => ∀ m ∈ others, ¬ m.Busy
  | .txnData _, _, others => ∀ m ∈ others, ¬ m.Busy
  | .restore _ _, _, _ => False
  | .addWatcher req, _, _ => req.RangeOk
  | .rangeHistory start rangeEnd startRevision, s, _ => HistoryOk s.log start rangeEnd startRevision
  | _, _, _ => True

structure UnderWay (ns : List WatchNote) (pending : List Write) (sending : List (Int × Write)) : Prop where
  only : ∀ n ∈ ns, n.Busy → n.pending = pending ∧ n.sending = sending
  busy : pending ≠ [] ∨ sending ≠ [] → ∃ n ∈ ns, n.Busy
  once : ns.Pairwise fun m n => ¬ (m.Busy ∧ n.Busy)

def Watcher.underWay (w : Watcher) (pending : List Write) (sending : List (Int × Write)) : List Write :=
  w.queued ++ (sending.filter fun p => p.1 = w.watchId).map Prod.snd ++
    pending.filter fun x => keyMatchesWatcher x.key w

/-- The phase of the registration of a watcher; a watcher that nobody registers has its history. -/
def PhaseOf (ns : List WatchNote) (watchId : Int) (phase : RegistrationPhase) : Prop :=
  (∃ n ∈ ns, ∃ r, n.registering = some r ∧ r.watchId = watchId ∧ r.phase = phase) ∨
    ((∀ n ∈ ns, ∀ r, n.registering = some r → r.watchId ≠ watchId) ∧ phase = .sent)

/-- A watcher gets what it is to get, whatever phase its registration is in. -/
def PhaseOk (w : Watcher) (log : List Write) (revision : Int) (underWay : List Write) : RegistrationPhase → Prop
  | .added => w.initializing = true ∧ w.streamed = [] ∧
      ∀ x ∈ underWay, x ∈ log ∧ keyMatchesWatcher x.key w = true
  | .read events => w.initializing = true ∧ w.streamed = [] ∧
      Delivers w log revision underWay (events.map HistoricalEntry.write) (lastRevision w.startRevision events)
  | .sent => Delivers w log revision underWay w.streamed w.lastHistoricalRevision

structure WatchInv (s : MetaStore) (ns : List WatchNote) : Prop where
  tracks : Tracks s.kv s.log
  underWay : ∃ pending sending, UnderWay ns pending sending ∧ (∀ x ∈ pending, x ∈ s.log) ∧
    (∀ p ∈ sending, p.2 ∈ s.log ∧ p.1 < s.watch.nextWatchId) ∧
      ∀ w ∈ s.watch.watchers, 0 < w.startRevision → ∀ phase, PhaseOf ns w.watchId phase →
        PhaseOk w s.log s.kv.revision (w.underWay pending sending) phase
  ids : ∀ w ∈ s.watch.watchers, w.watchId < s.watch.nextWatchId
  registering : ∀ n ∈ ns, ∀ r, n.registering = some r → r.watchId < s.watch.nextWatchId ∧ r.req.RangeOk ∧
    ∀ w ∈ s.watch.watchers, w.watchId = r.watchId →
      w.key = r.req.key ∧ w.rangeEnd = r.req.rangeEnd ∧ w.startRevision = r.req.startRevision
  apart : ns.Pairwise fun m n => ∀ r r', m.registering = some r → n.registering = some r' → r.watchId ≠ r'.watchId

/-- While the watchers do not know all writes of a call, the revision of the store stays. -/
def WatchRely (n : WatchNote) (s s' : MetaStore) : Prop := n.Busy → s'.kv.revision = s.kv.revision

def watchConcurrency : Concurrency MetaOp MetaOp.Res MetaStore WatchNote := ⟨MetaStore.exec,{},watchNote⟩

section Perm

variable {ns ns' : List WatchNote} (hperm : ns.Perm ns')
include hperm

theorem UnderWay.of_perm {pending : List Write} {sending : List (Int × Write)} (h : UnderWay ns pending sending) :
    UnderWay ns' pending sending where
  only n hn := h.only n (hperm.mem_iff.mpr hn)
  busy hsome := by
    obtain ⟨n,hn,hbusy⟩ := h.busy hsome
    exact ⟨n,hperm.mem_iff.mp hn,hbusy⟩
  once := (hperm.pairwise_iff fun hmn hnm => hmn ⟨hnm.2,hnm.1⟩).mp h.once

theorem PhaseOf.of_perm {watchId : Int} {phase : RegistrationPhase} (h : PhaseOf ns' watchId phase) :
    PhaseOf ns watchId phase := by
  rcases h with ⟨n,hn,hr⟩ | ⟨hnone,hphase⟩
  · exact Or.inl ⟨n,hperm.mem_iff.mpr hn,hr⟩
  · exact Or.inr ⟨fun n hn => hnone n (hperm.mem_iff.mp hn),hphase⟩

theorem WatchInv.of_perm {s : MetaStore} (h : WatchInv s ns) : WatchInv s ns' := by
  obtain ⟨pending,sending,hway,hpending,hsending,hwatchers⟩ := h.underWay
  refine ⟨h.tracks,⟨pending,sending,hway.of_perm hperm,hpending,hsending,?_⟩,h.ids,?_,?_⟩
  · intro w hw hstart phase hphase
    exact hwatchers w hw hstart phase (hphase.of_perm hperm)
  · intro n hn
    exact h.registering n (hperm.mem_iff.mpr hn)
  · exact (hperm.pairwise_iff fun hmn r r' hr hr' => (hmn r' r hr' hr).symm).mp h.apart

end Perm

def watchProtocol : Protocol watchConcurrency where
  guard o s _ others := watchGuard o s others
  inv := WatchInv
  inv_perm hperm h := h.of_perm hperm
  rely := WatchRely
  rely_refl _ _ _ := rfl
  rely_trans h h' hbusy := (h' hbusy).trans (h hbusy)

namespace UnderWay

variable {n n' : WatchNote} {others : List WatchNote} {pending : List Write} {sending : List (Int × Write)}

theorem replace (h : UnderWay (n :: others) pending sending) (hpending : n'.pending = n.pending)
    (hsending : n'.sending = n.sending) : UnderWay (n' :: others) pending sending := by
  have hbusy : n'.Busy ↔ n.Busy := by rw [WatchNote.Busy,WatchNote.Busy,hpending,hsending]
  obtain ⟨hfirst,hrest⟩ := pairwise_cons.mp h.once
  refine ⟨?_,?_,pairwise_cons.mpr ⟨?_,hrest⟩⟩
  · intro m hm hm'
    rcases mem_cons.mp hm with rfl | hm
    · rw [hpending,hsending]
      exact h.only n mem_cons_self (hbusy.mp hm')
    · exact h.only m (mem_cons_of_mem _ hm) hm'
  · intro hsome
    obtain ⟨m,hm,hm'⟩ := h.busy hsome
    rcases mem_cons.mp hm with rfl | hm
    · exact ⟨n',mem_cons_self,hbusy.mpr hm'⟩
    · exact ⟨m,mem_cons_of_mem _ hm,hm'⟩
  · intro m hm hboth
    exact hfirst m hm ⟨hbusy.mp hboth.1,hboth.2⟩

theorem self (hothers : ∀ m ∈ others, ¬ m.Busy) : UnderWay (n :: others) n.pending n.sending := by
  refine ⟨?_,?_,pairwise_cons.mpr ⟨fun m hm hboth => hothers m hm hboth.2,?_⟩⟩
  · intro m hm hbusy
    rcases mem_cons.mp hm with rfl | hm
    · exact ⟨rfl,rfl⟩
    · exact absurd hbusy (hothers m hm)
  · intro hsome
    exact ⟨n,mem_cons_self,hsome⟩
  · exact pairwise_of_forall_mem_list fun a ha b _ hboth => hothers a ha hboth.1

theorem of_busy (h : UnderWay (n :: others) pending sending) (hbusy : n.Busy) :
    n.pending = pending ∧ n.sending = sending ∧ ∀ m ∈ others, ¬ m.Busy := by
  obtain ⟨hpending,hsending⟩ := h.only n mem_cons_self hbusy
  exact ⟨hpending,hsending,fun m hm hm' => (pairwise_cons.mp h.once).1 m hm ⟨hbusy,hm'⟩⟩

theorem of_idle (h : UnderWay (n :: others) pending sending) (hn : ¬ n.Busy) (hothers : ∀ m ∈ others, ¬ m.Busy) :
    pending = [] ∧ sending = [] := by
  by_contra hsome
  obtain ⟨m,hm,hbusy⟩ := h.busy (by tauto)
  rcases mem_cons.mp hm with rfl | hm
  · exact hn hbusy
  · exact hothers m hm hbusy

end UnderWay

theorem PhaseOf.replace {n n' : WatchNote} {others : List WatchNote} {watchId : Int} {phase : RegistrationPhase}
    (h : PhaseOf (n' :: others) watchId phase)
    (hsame : ∀ r, r.watchId = watchId → (n'.registering = some r ↔ n.registering = some r)) :
    PhaseOf (n :: others) watchId phase := by
  rcases h with ⟨m,hm,r,hr,hid,hphase⟩ | ⟨hnone,hphase⟩
  · rcases mem_cons.mp hm with rfl | hm
    · exact Or.inl ⟨n,mem_cons_self,r,(hsame r hid).mp hr,hid,hphase⟩
    · exact Or.inl ⟨m,mem_cons_of_mem _ hm,r,hr,hid,hphase⟩
  · refine Or.inr ⟨?_,hphase⟩
    intro m hm r hr hid
    rcases mem_cons.mp hm with rfl | hm
    · exact hnone n' mem_cons_self r ((hsame r hid).mpr hr) hid
    · exact hnone m (mem_cons_of_mem _ hm) r hr hid

theorem PhaseOf.eq_of_registering {n : WatchNote} {others : List WatchNote}
    (hapart : (n :: others).Pairwise fun m n => ∀ r r', m.registering = some r → n.registering = some r' →
      r.watchId ≠ r'.watchId) {r : Registration} (hr : n.registering = some r) {phase : RegistrationPhase}
    (h : PhaseOf (n :: others) r.watchId phase) : phase = r.phase := by
  rcases h with ⟨m,hm,r',hr',hid,rfl⟩ | ⟨hnone,-⟩
  · rcases mem_cons.mp hm with rfl | hm
    · rw [hr] at hr'
      rw [Option.some.inj hr']
    · exact absurd hid.symm ((pairwise_cons.mp hapart).1 m hm r r' hr hr')
  · exact absurd rfl (hnone n mem_cons_self r hr)

end Datasystem.Metastore
