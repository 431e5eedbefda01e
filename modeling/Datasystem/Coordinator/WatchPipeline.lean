import Datasystem.Coordinator.WatchDispatcher

/-!
# The path of an event to a channel

The invariant of all runs of the watch machine: as long as no reset intervenes, the committed
events in the scope of a channel that are younger than the channel are exactly the ones pushed to
it and the ones still on the way to it.
-/

namespace Datasystem.Coordinator

open Keyed MemoryKvStore WatcherChannel WatchState WatchState FanOutPhase Option
open List hiding lookup modify

def FanOutPhase.events : FanOutPhase → List WatchEvent
  | .idle => []
  | .popped batch => batch
  | .resetting batch => batch
  | .fanning batch => batch
  | .matched e _ rest => e :: rest

/-- All events between the store and the channels. -/
def WatchState.transit (st : WatchState) : List WatchEvent :=
  st.fanOut.events ++ st.pendingQueue ++ st.inFlight.flatten

/-- The events a channel has to receive: in its scope and younger than the channel. -/
def WatcherChannel.due (c : WatcherChannel) (scope : Bytes × Bytes) (e : WatchEvent) : Bool :=
  inScope scope.1 scope.2 e.entry.key && decide (c.addedRevision < e.revision)

def Tracked (st : WatchState) (id : Int) (c : WatcherChannel) (scope : Bytes × Bytes) : Prop :=
  c.needReWatch = false → st.pendingOverflow = false → st.fanOut.isResetting = false →
    (st.log.filter (c.due scope)).Perm ((c.enqueued ++ st.onTheWay id).filter (c.due scope))

/-- What a matched event knows about the watches: `watchIds` has every live watch of its scope
whose channel is older than the event, once, and no live watch of another scope. -/
structure Matched (st : WatchState) (e : WatchEvent) (ids : List Int) : Prop where
  nodup : ids.Nodup
  lt_next : ∀ id ∈ ids, id < st.registry.nextWatchId
  scope : ∀ id scope, st.registry.scopeOf id = some scope → id ∈ ids →
    inScope scope.1 scope.2 e.entry.key
  complete : ∀ id c scope, st.channel id = some c → st.registry.scopeOf id = some scope →
    c.due scope e → id ∈ ids

structure PipelineInv (st : WatchState) : Prop where
  registry : st.registry.WellFormed
  log_le : ∀ e ∈ st.log, e.revision ≤ st.store.revision
  transit_log : ∀ e ∈ st.transit, e ∈ st.log
  matched : ∀ e ids rest, st.fanOut = .matched e ids rest → Matched st e ids
  channel_lt : ∀ id c, st.channel id = some c →
    id < st.registry.nextWatchId ∧ c.addedRevision ≤ st.store.revision
  call_lt : ∀ call ∈ st.calls, call.watchId < st.registry.nextWatchId
  enqueued_log : ∀ id c, st.channel id = some c → ∀ e ∈ c.enqueued, e ∈ st.log
  enqueued_scope : ∀ id c scope, st.channel id = some c → st.registry.scopeOf id = some scope →
    ∀ e ∈ c.enqueued, inScope scope.1 scope.2 e.entry.key
  tracked : ∀ id c scope, st.channel id = some c → st.registry.scopeOf id = some scope →
    Tracked st id c scope

theorem empty_pipelineInv : PipelineInv .empty := by
  constructor
  · exact WatchRegistry.empty_wellFormed
  · simp [WatchState.empty]
  · simp [WatchState.empty,WatchState.transit,events]
  · simp [WatchState.empty]
  · simp [WatchState.empty,WatchState.channel]
  · simp [WatchState.empty]
  · simp [WatchState.empty,WatchState.channel]
  · simp [WatchState.empty,WatchState.channel]
  · simp [WatchState.empty,WatchState.channel]

variable {e : WatchEvent} {id : Int}

theorem mem_transit_of_mem_onTheWay {st : WatchState} (h : e ∈ st.onTheWay id) : e ∈ st.transit := by
  unfold onTheWay at h
  simp only [transit,mem_append] at h ⊢
  rcases h with (h | h) | h
  · refine Or.inl (Or.inl ?_)
    cases hfan : st.fanOut with
    | matched e' ids rest =>
      rw [hfan] at h
      simp only [pendingFor] at h
      split at h
      · exact h
      · exact mem_cons_of_mem _ h
    | _ =>
      rw [hfan] at h
      exact h
  · exact Or.inl (Or.inr h)
  · exact Or.inr h

/-! ## Channel updates that keep the stream -/

/-- An update of a channel that leaves its stream alone. -/
structure SameStream (c c' : WatcherChannel) : Prop where
  addedRevision : c'.addedRevision = c.addedRevision
  enqueued : c'.enqueued = c.enqueued
  needReWatch : c'.needReWatch = c.needReWatch

theorem SameStream.due {c c' : WatcherChannel} (h : SameStream c c') (scope : Bytes × Bytes) :
    c'.due scope = c.due scope := by
  funext e
  unfold WatcherChannel.due
  rw [h.addedRevision]

namespace WatcherChannel

variable (c : WatcherChannel)

theorem schedule_sameStream : SameStream c c.schedule := by
  unfold schedule
  split <;> exact ⟨rfl,rfl,rfl⟩

@[simp] theorem schedule_watchId : c.schedule.watchId = c.watchId := by
  unfold schedule
  split <;> rfl

@[simp] theorem schedule_queue : c.schedule.queue = c.queue := by
  unfold schedule
  split <;> rfl

@[simp] theorem schedule_delivered : c.schedule.delivered = c.delivered := by
  unfold schedule
  split <;> rfl

@[simp] theorem schedule_snapshotRevision : c.schedule.snapshotRevision = c.snapshotRevision := by
  unfold schedule
  split <;> rfl

@[simp] theorem schedule_needReWatch : c.schedule.needReWatch = c.needReWatch := c.schedule_sameStream.needReWatch

@[simp] theorem schedule_enqueued : c.schedule.enqueued = c.enqueued := c.schedule_sameStream.enqueued

@[simp] theorem schedule_addedRevision : c.schedule.addedRevision = c.addedRevision :=
  c.schedule_sameStream.addedRevision

theorem setSnapshotRevision_sameStream (revision : Int) (c : WatcherChannel) :
    SameStream c (c.setSnapshotRevision revision) := by
  unfold setSnapshotRevision
  dsimp only
  split
  · exact ⟨rfl,rfl,rfl⟩
  · constructor <;> simp

@[simp] theorem setSnapshotRevision_watchId (revision : Int) (c : WatcherChannel) :
    (c.setSnapshotRevision revision).watchId = c.watchId := by
  unfold setSnapshotRevision
  dsimp only
  split <;> simp

theorem prepareChannelEvents_sameStream : SameStream c c.prepareChannelEvents := by
  unfold prepareChannelEvents
  split_ifs <;> exact ⟨rfl,rfl,rfl⟩

@[simp] theorem prepareChannelEvents_watchId : c.prepareChannelEvents.watchId = c.watchId := by
  unfold prepareChannelEvents
  split_ifs <;> rfl

theorem notifyReturned_sameStream (code : StatusCode) (c : WatcherChannel) : SameStream c (c.notifyReturned code) := by
  unfold notifyReturned
  split
  · split <;> exact ⟨rfl,rfl,rfl⟩
  · exact ⟨rfl,rfl,rfl⟩

@[simp] theorem notifyReturned_watchId (code : StatusCode) (c : WatcherChannel) :
    (c.notifyReturned code).watchId = c.watchId := by
  unfold notifyReturned
  split
  · split <;> rfl
  · rfl

theorem acknowledge_sameStream : SameStream c c.acknowledge := by
  unfold acknowledge
  split <;> exact ⟨rfl,rfl,rfl⟩

@[simp] theorem acknowledge_watchId : c.acknowledge.watchId = c.watchId := by
  unfold acknowledge
  split <;> rfl

@[simp] theorem push_watchId (e : WatchEvent) (c : WatcherChannel) : (c.push e).watchId = c.watchId := by
  unfold push
  split_ifs <;> simp

@[simp] theorem push_addedRevision (e : WatchEvent) (c : WatcherChannel) :
    (c.push e).addedRevision = c.addedRevision := by
  unfold push
  split_ifs <;> simp

@[simp] theorem reset_watchId : c.reset.watchId = c.watchId := by
  unfold reset
  split_ifs <;> simp

@[simp] theorem reset_addedRevision : c.reset.addedRevision = c.addedRevision := by
  unfold reset
  split_ifs <;> simp

@[simp] theorem reset_enqueued : c.reset.enqueued = c.enqueued := by
  unfold reset
  split_ifs <;> simp

@[simp] theorem reset_needReWatch : c.reset.needReWatch = true := by
  unfold reset
  split_ifs with h
  · exact h
  · simp

/-- A push appends the event to the stream unless the channel is, or is thereby, reset. -/
theorem push_enqueued (e : WatchEvent) (c : WatcherChannel) :
    ((c.push e).enqueued = c.enqueued ++ [e] ∧ (c.push e).needReWatch = false ∧ c.needReWatch = false) ∨
    ((c.push e).enqueued = c.enqueued ∧ (c.push e).needReWatch = true) := by
  unfold push
  split_ifs with h hlen
  · exact Or.inr ⟨rfl,h⟩
  · exact Or.inl ⟨by simp,by simpa using h,by simpa using h⟩
  · exact Or.inr ⟨by simp,by simp⟩

end WatcherChannel

namespace WatchState

variable {f : WatcherChannel → WatcherChannel}

theorem channel_modifyChannel {st : WatchState} (hf : ∀ c, (f c).watchId = c.watchId) (j : Int) :
    (st.modifyChannel id f).channel j =
      if j = id then (st.channel j).map f else st.channel j :=
  lookup_modify hf st.channels id j

end WatchState

/-- Nothing but channels, and these only apart from their streams, has changed. -/
structure StreamFrame (st st' : WatchState) : Prop where
  store : st'.store = st.store
  log : st'.log = st.log
  registry : st'.registry = st.registry
  inFlight : st'.inFlight = st.inFlight
  pendingQueue : st'.pendingQueue = st.pendingQueue
  pendingOverflow : st'.pendingOverflow = st.pendingOverflow
  fanOut : st'.fanOut = st.fanOut
  channel : ∀ id c', st'.channel id = some c' → ∃ c, st.channel id = some c ∧ SameStream c c'
  call_lt : (∀ call ∈ st.calls, call.watchId < st.registry.nextWatchId) →
    ∀ call ∈ st'.calls, call.watchId < st.registry.nextWatchId

variable {st st' : WatchState}

theorem PipelineInv.frame (h : PipelineInv st) (hf : StreamFrame st st') : PipelineInv st' := by
  have hway : ∀ id, st'.onTheWay id = st.onTheWay id := by
    intro id
    simp only [onTheWay,hf.fanOut,hf.pendingQueue,hf.inFlight]
  constructor
  · rw [hf.registry]
    exact h.registry
  · rw [hf.log,hf.store]
    exact h.log_le
  · rw [transit,hf.fanOut,hf.pendingQueue,hf.inFlight,hf.log]
    exact h.transit_log
  · intro e ids rest hfan
    rw [hf.fanOut] at hfan
    obtain ⟨hnodup,hlt,hscope,hcomplete⟩ := h.matched e ids rest hfan
    refine ⟨hnodup,by rw [hf.registry]; exact hlt,by rw [hf.registry]; exact hscope,?_⟩
    intro id c' scope hc' hs hdue
    obtain ⟨c,hc,hsame⟩ := hf.channel id c' hc'
    rw [hf.registry] at hs
    rw [hsame.due] at hdue
    exact hcomplete id c scope hc hs hdue
  · intro id c' hc'
    obtain ⟨c,hc,hsame⟩ := hf.channel id c' hc'
    rw [hf.registry,hf.store,hsame.addedRevision]
    exact h.channel_lt id c hc
  · rw [hf.registry]
    exact hf.call_lt h.call_lt
  · intro id c' hc'
    obtain ⟨c,hc,hsame⟩ := hf.channel id c' hc'
    rw [hsame.enqueued,hf.log]
    exact h.enqueued_log id c hc
  · intro id c' scope hc' hs
    obtain ⟨c,hc,hsame⟩ := hf.channel id c' hc'
    rw [hf.registry] at hs
    rw [hsame.enqueued]
    exact h.enqueued_scope id c scope hc hs
  · intro id c' scope hc' hs hneed hover hreset
    obtain ⟨c,hc,hsame⟩ := hf.channel id c' hc'
    rw [hf.registry] at hs
    rw [hf.log,hsame.enqueued,hsame.due,hway]
    exact h.tracked id c scope hc hs (by rw [← hsame.needReWatch]; exact hneed)
      (by rw [← hf.pendingOverflow]; exact hover) (by rw [← hf.fanOut]; exact hreset)

theorem modifyChannel_frame (st : WatchState) (id : Int)
    (hid : ∀ c, (f c).watchId = c.watchId) (hf : ∀ c, SameStream c (f c)) :
    StreamFrame st (st.modifyChannel id f) where
  store := rfl
  log := rfl
  registry := rfl
  inFlight := rfl
  pendingQueue := rfl
  pendingOverflow := rfl
  fanOut := rfl
  channel j c' hc' := by
    rw [channel_modifyChannel hid] at hc'
    by_cases hj : j = id
    · rw [if_pos hj] at hc'
      obtain ⟨c,hc,rfl⟩ := map_eq_some_iff.mp hc'
      exact ⟨c,hc,hf c⟩
    · rw [if_neg hj] at hc'
      exact ⟨c',hc',⟨rfl,rfl,rfl⟩⟩
  call_lt h := h

/-! ## Events that move -/

/-- Events have only moved on between the store and the channels. -/
structure Moved (st st' : WatchState) : Prop where
  store : st'.store = st.store
  log : st'.log = st.log
  registry : st'.registry = st.registry
  channels : st'.channels = st.channels
  calls : st'.calls = st.calls
  transit : ∀ e ∈ st'.transit, e ∈ st.transit
  matched : ∀ e ids rest, st'.fanOut = .matched e ids rest → st.fanOut = .matched e ids rest
  onTheWay : st'.pendingOverflow = false → st'.fanOut.isResetting = false →
    st.pendingOverflow = false ∧ st.fanOut.isResetting = false ∧
      ∀ id, (st.onTheWay id).Perm (st'.onTheWay id)

theorem PipelineInv.moved (h : PipelineInv st) (hm : Moved st st') : PipelineInv st' := by
  have hchannel : ∀ id, st'.channel id = st.channel id := by
    intro id
    unfold channel
    rw [hm.channels]
  constructor
  · rw [hm.registry]
    exact h.registry
  · rw [hm.log,hm.store]
    exact h.log_le
  · intro e he
    rw [hm.log]
    exact h.transit_log e (hm.transit e he)
  · intro e ids rest hfan
    obtain ⟨hnodup,hlt,hscope,hcomplete⟩ := h.matched e ids rest (hm.matched e ids rest hfan)
    refine ⟨hnodup,by rw [hm.registry]; exact hlt,by rw [hm.registry]; exact hscope,?_⟩
    intro id c scope hc hs
    rw [hchannel] at hc
    rw [hm.registry] at hs
    exact hcomplete id c scope hc hs
  · intro id c hc
    rw [hchannel] at hc
    rw [hm.registry,hm.store]
    exact h.channel_lt id c hc
  · rw [hm.calls,hm.registry]
    exact h.call_lt
  · intro id c hc
    rw [hchannel] at hc
    rw [hm.log]
    exact h.enqueued_log id c hc
  · intro id c scope hc hs
    rw [hchannel] at hc
    rw [hm.registry] at hs
    exact h.enqueued_scope id c scope hc hs
  · intro id c scope hc hs hneed hover hreset
    rw [hchannel] at hc
    rw [hm.registry] at hs
    obtain ⟨hover',hreset',hperm⟩ := hm.onTheWay hover hreset
    rw [hm.log]
    exact (h.tracked id c scope hc hs hneed hover' hreset').trans (((hperm id).append_left c.enqueued).filter _)

theorem flatten_set_perm {α : Type} {ls : List (List α)} {i : Nat} {a : α} {as : List α}
    (h : ls[i]? = some (a :: as)) : ls.flatten.Perm (a :: (ls.set i as).flatten) := by
  induction ls generalizing i with
  | nil => simp at h
  | cons l ls ih =>
    cases i with
    | zero =>
      obtain rfl : l = a :: as := by simpa using h
      exact List.Perm.refl _
    | succ i =>
      have hperm := ih (i := i) (by simpa using h)
      simp only [flatten_cons,set_cons_succ]
      exact (hperm.append_left l).trans perm_middle

theorem callback_moved {i : Nat} {events : List WatchEvent} (hi : st.inFlight[i]? = some (e :: events)) :
    Moved st { st.enqueue e with inFlight := st.inFlight.set i events } := by
  have hperm := flatten_set_perm hi
  by_cases hfull : maxPendingEvents ≤ st.pendingQueue.length
  · simp only [enqueue,hfull,if_true]
    refine ⟨rfl,rfl,rfl,rfl,rfl,?_,fun _ _ _ h => h,?_⟩
    · intro x hx
      unfold transit at hx ⊢
      simp only [mem_append] at hx ⊢
      refine hx.imp id fun hx => ?_
      exact hperm.mem_iff.mpr (mem_cons_of_mem _ hx)
    · intro hover
      cases hover
  · simp only [enqueue,hfull,if_false]
    -- the event moves from the front of its list to the end of the pending queue
    have hmove : ∀ front : List WatchEvent, (front ++ st.pendingQueue ++ st.inFlight.flatten).Perm
          (front ++ (st.pendingQueue ++ [e]) ++ (st.inFlight.set i events).flatten) := by
      intro front
      have h1 := hperm.append_left (front ++ st.pendingQueue)
      simpa [append_assoc] using h1
    refine ⟨rfl,rfl,rfl,rfl,rfl,?_,fun _ _ _ h => h,?_⟩
    · exact fun x hx => (hmove st.fanOut.events).mem_iff.mpr hx
    · exact fun hover hreset => ⟨hover,hreset,fun id => hmove (st.fanOut.pendingFor id)⟩

/-! ## The fan-out thread -/

theorem fanOutPop_moved (hidle : st.fanOut = .idle) : Moved st { st with
      fanOut := .popped (st.pendingQueue.take maxWatchEventsPerFanOut)
      pendingQueue := st.pendingQueue.drop maxWatchEventsPerFanOut } := by
  have hsplit : ∀ tail : List WatchEvent, st.pendingQueue.take maxWatchEventsPerFanOut ++
        st.pendingQueue.drop maxWatchEventsPerFanOut ++ tail = [] ++ st.pendingQueue ++ tail := by
    intro tail
    rw [take_append_drop,nil_append]
  refine ⟨rfl,rfl,rfl,rfl,rfl,?_,(fun _ _ _ h => by cases h),?_⟩
  · intro e he
    unfold transit at he ⊢
    rw [hidle]
    simp only [events] at he ⊢
    rw [hsplit] at he
    exact he
  · intro hover _
    refine ⟨hover,by rw [hidle]; rfl,?_⟩
    intro id
    unfold onTheWay
    rw [hidle]
    simp only [pendingFor]
    rw [hsplit]

/-- The fan-out thread goes on with the events it has. -/
theorem fanOut_moved {phase : FanOutPhase} {pendingOverflow : Bool} (hevents : phase.events = st.fanOut.events)
    (hmatched : ∀ e ids rest, phase ≠ .matched e ids rest)
    (hway : pendingOverflow = false → phase.isResetting = false → st.pendingOverflow = false ∧
      st.fanOut.isResetting = false ∧ ∀ id, phase.pendingFor id = st.fanOut.pendingFor id) :
    Moved st { st with pendingOverflow := pendingOverflow, fanOut := phase } := by
  refine ⟨rfl,rfl,rfl,rfl,rfl,?_,fun e ids rest h => absurd h (hmatched e ids rest),?_⟩
  · intro e he
    unfold transit at he ⊢
    rw [← hevents]
    exact he
  · intro hover hreset
    obtain ⟨hover',hreset',hpending⟩ := hway hover hreset
    refine ⟨hover',hreset',fun id => List.Perm.of_eq ?_⟩
    simp only [onTheWay,hpending]

/-- A step of the fan-out thread that changes at most channels and its own phase. -/
structure FanOutFrame (st st' : WatchState) : Prop where
  store : st'.store = st.store
  log : st'.log = st.log
  registry : st'.registry = st.registry
  calls : st'.calls = st.calls
  transit : ∀ e ∈ st'.transit, e ∈ st.transit
  channel : ∀ id c', st'.channel id = some c' → ∃ c, st.channel id = some c ∧
    c'.addedRevision = c.addedRevision ∧
    (∀ e ∈ c'.enqueued, e ∈ c.enqueued ∨ (e ∈ st.log ∧ ∀ scope,
      st.registry.scopeOf id = some scope → inScope scope.1 scope.2 e.entry.key)) ∧
    ∀ scope, st.registry.scopeOf id = some scope → Tracked st id c scope → Tracked st' id c' scope

theorem PipelineInv.fanOut (h : PipelineInv st) (hf : FanOutFrame st st')
    (hmatched : ∀ e ids rest, st'.fanOut = .matched e ids rest → Matched st' e ids) : PipelineInv st' := by
  constructor
  · rw [hf.registry]
    exact h.registry
  · rw [hf.log,hf.store]
    exact h.log_le
  · intro e he
    rw [hf.log]
    exact h.transit_log e (hf.transit e he)
  · exact hmatched
  · intro id c' hc'
    obtain ⟨c,hc,hadded,_⟩ := hf.channel id c' hc'
    rw [hf.registry,hf.store,hadded]
    exact h.channel_lt id c hc
  · rw [hf.calls,hf.registry]
    exact h.call_lt
  · intro id c' hc' e he
    obtain ⟨c,hc,_,henq,_⟩ := hf.channel id c' hc'
    rw [hf.log]
    rcases henq e he with he | ⟨he,_⟩
    · exact h.enqueued_log id c hc e he
    · exact he
  · intro id c' scope hc' hs e he
    rw [hf.registry] at hs
    obtain ⟨c,hc,_,henq,_⟩ := hf.channel id c' hc'
    rcases henq e he with he | ⟨_,hscope⟩
    · exact h.enqueued_scope id c scope hc hs e he
    · exact hscope scope hs
  · intro id c' scope hc' hs
    rw [hf.registry] at hs
    obtain ⟨c,hc,_,_,htracked⟩ := hf.channel id c' hc'
    exact htracked scope hs (h.tracked id c scope hc hs)

theorem fanOutReset_inv (h : PipelineInv st) {batch : List WatchEvent} (hfan : st.fanOut = .resetting batch) :
    PipelineInv { st with
      channels := st.channels.map reset, fanOut := .fanning batch } := by
  refine h.fanOut ⟨rfl,rfl,rfl,rfl,?_,?_⟩ fun _ _ _ hm => by cases hm
  · intro e he
    unfold transit at he ⊢
    rw [hfan]
    exact he
  · intro id c' hc'
    have hc'' : (lookup watchId id st.channels).map reset = some c' := by
      rw [← lookup_map reset_watchId]
      exact hc'
    obtain ⟨c,hc,rfl⟩ := map_eq_some_iff.mp hc''
    refine ⟨c,hc,c.reset_addedRevision,fun e he => Or.inl (by simpa using he),?_⟩
    intro scope _ _ hneed
    rw [reset_needReWatch] at hneed
    cases hneed

theorem fanOutMatch_inv (h : PipelineInv st) {rest : List WatchEvent} (hfan : st.fanOut = .fanning (e :: rest)) :
    PipelineInv { st with fanOut := .matched e (st.registry.matchedIds e.entry.key) rest } := by
  have hmem := fun id => h.registry.mem_matchedIds e.entry.key id
  refine h.fanOut ⟨rfl,rfl,rfl,rfl,?_,?_⟩ ?_
  · intro x hx
    unfold transit at hx ⊢
    rw [hfan]
    exact hx
  · intro id c hc
    refine ⟨c,hc,rfl,fun x hx => Or.inl hx,?_⟩
    intro scope hs htracked hneed hover _
    have hbefore := htracked hneed hover (by rw [hfan]; rfl)
    refine hbefore.trans (List.Perm.of_eq ?_)
    unfold onTheWay
    rw [hfan]
    simp only [pendingFor]
    by_cases hin : id ∈ st.registry.matchedIds e.entry.key
    · rw [if_pos hin]
    · -- a watch that is not matched does not have the event in its scope
      rw [if_neg hin]
      have hnot : c.due scope e = false := by
        have : ¬ inScope scope.1 scope.2 e.entry.key = true := fun hscope => hin ((hmem id).mpr ⟨scope,hs,hscope⟩)
        simp [WatcherChannel.due,this]
      simp only [filter_append,filter_cons,hnot,Bool.false_eq_true,if_false]
  · intro e' ids rest' hfan'
    cases hfan'
    refine ⟨h.registry.matchedIds_nodup _,?_,?_,?_⟩
    · intro id hid
      obtain ⟨scope,hs,_⟩ := (hmem id).mp hid
      have hlive := (h.registry.scope_iff id).mp (by rw [hs]; rfl)
      obtain ⟨w,hw⟩ := isSome_iff_exists.mp hlive
      exact (h.registry.watcher_lt id w hw).1
    · intro id scope hs hid
      obtain ⟨scope',hs',hin⟩ := (hmem id).mp hid
      have : scope' = scope := some.inj (hs'.symm.trans hs)
      exact this ▸ hin
    · intro id c scope _ hs hdue
      refine (hmem id).mpr ⟨scope,hs,?_⟩
      exact (Bool.and_eq_true_iff.mp hdue).1

/-- Pushing one event to distinct watches touches each of their channels once. -/
theorem lookup_foldl_push (e : WatchEvent) {ids : List Int} (hnodup : ids.Nodup)
    (channels : List WatcherChannel) (j : Int) :
    lookup watchId j (ids.foldl (fun channels id =>
        modify watchId id (push e) channels) channels) =
      if j ∈ ids then (lookup watchId j channels).map (push e)
      else lookup watchId j channels := by
  induction ids generalizing channels with
  | nil => rfl
  | cons id ids ih =>
    obtain ⟨hnot,hnodup⟩ := nodup_cons.mp hnodup
    rw [foldl_cons,ih hnodup,lookup_modify (push_watchId e)]
    by_cases hj : j = id
    · subst hj
      simp [hnot]
    · simp [hj]

theorem fanOutPush_inv (h : PipelineInv st) {ids : List Int}
    {rest : List WatchEvent} (hfan : st.fanOut = .matched e ids rest) :
    PipelineInv { st with
      channels := ids.foldl (fun channels id =>
        modify watchId id (push e) channels) st.channels
      fanOut := .fanning rest } := by
  obtain ⟨hnodup,_,hscope,_⟩ := h.matched e ids rest hfan
  have helog : e ∈ st.log := by
    refine h.transit_log e ?_
    rw [transit,hfan]
    exact mem_cons_self
  refine h.fanOut ⟨rfl,rfl,rfl,rfl,?_,?_⟩ fun _ _ _ hm => by cases hm
  · intro x hx
    unfold transit at hx ⊢
    rw [hfan]
    exact mem_cons_of_mem _ hx
  · intro id c' hc'
    have hc'' := (lookup_foldl_push e hnodup st.channels id).symm.trans hc'
    by_cases hid : id ∈ ids
    · rw [if_pos hid] at hc''
      obtain ⟨c,hc,rfl⟩ := map_eq_some_iff.mp hc''
      refine ⟨c,hc,c.push_addedRevision e,?_,?_⟩
      · intro x hx
        rcases c.push_enqueued e with ⟨henq,_⟩ | ⟨henq,_⟩
        · rw [henq,mem_append,mem_singleton] at hx
          rcases hx with hx | rfl
          · exact Or.inl hx
          · exact Or.inr ⟨helog,fun scope hs => hscope id scope hs hid⟩
        · rw [henq] at hx
          exact Or.inl hx
      · intro scope hs htracked hneed hover _
        rcases c.push_enqueued e with ⟨henq,_,hneed'⟩ | ⟨_,hneed'⟩
        · have hbefore := htracked hneed' hover (by rw [hfan]; rfl)
          have hdue : (c.push e).due scope = c.due scope := by
            funext x
            simp [WatcherChannel.due]
          rw [hdue,henq]
          refine hbefore.trans (List.Perm.of_eq ?_)
          unfold onTheWay
          rw [hfan]
          simp only [pendingFor,if_pos hid,append_assoc,cons_append,nil_append]
        · rw [hneed'] at hneed
          cases hneed
    · rw [if_neg hid] at hc''
      refine ⟨c',hc'',rfl,fun x hx => Or.inl hx,?_⟩
      intro scope hs htracked hneed hover _
      refine (htracked hneed hover (by rw [hfan]; rfl)).trans (List.Perm.of_eq ?_)
      unfold onTheWay
      rw [hfan]
      simp only [pendingFor,if_neg hid]

/-! ## Mutations, registrations and channels -/

theorem mutate_inv (h : PipelineInv st) (op : StoreOp) : PipelineInv { st with
      store := (op.apply st.store).store
      log := st.log ++ (op.apply st.store).events
      inFlight := st.inFlight ++ [(op.apply st.store).events] } := by
  have hspec := apply_spec op st.store
  constructor
  · exact h.registry
  · intro e he
    rcases mem_append.mp he with he | he
    · exact Int.le_trans (h.log_le e he) hspec.revision_le
    · exact (hspec.stamped e he).2.le
  · intro e he
    have hsplit : e ∈ st.transit ∨ e ∈ (op.apply st.store).events := by
      unfold transit at he ⊢
      simp only [flatten_append,flatten_cons,flatten_nil,append_nil,mem_append] at he ⊢
      tauto
    exact mem_append.mpr (hsplit.imp (h.transit_log e) id)
  · intro e ids rest hfan
    obtain ⟨hnodup,hlt,hscope,hcomplete⟩ := h.matched e ids rest hfan
    exact ⟨hnodup,hlt,hscope,hcomplete⟩
  · intro id c hc
    obtain ⟨hlt,hle⟩ := h.channel_lt id c hc
    exact ⟨hlt,Int.le_trans hle hspec.revision_le⟩
  · exact h.call_lt
  · intro id c hc e he
    exact mem_append_left _ (h.enqueued_log id c hc e he)
  · exact h.enqueued_scope
  · intro id c scope hc hs hneed hover hreset
    have hbefore := h.tracked id c scope hc hs hneed hover hreset
    have happend := hbefore.append_right ((op.apply st.store).events.filter (c.due scope))
    rw [← filter_append,← filter_append] at happend
    refine happend.trans (List.Perm.of_eq ?_)
    simp [onTheWay,append_assoc]

theorem watchRange_inv (h : PipelineInv st) {key rangeEnd watcherAddr registrationId : Bytes}
    {res : WatchRegistry.Registered}
    (hreg : st.registry.register key rangeEnd watcherAddr registrationId = .ok res) (phase : WatchCallPhase) :
    PipelineInv { st with
      registry := res.registry
      calls := st.calls ++ [⟨key,rangeEnd,watcherAddr,res.watchId,phase⟩] } := by
  obtain ⟨hwf,_,hother,hle,hcreated,hsame⟩ := h.registry.register hreg
  have hlive : res.watchId < res.registry.nextWatchId := by
    have hscope : (res.registry.scopeOf res.watchId).isSome := by
      obtain ⟨_,hscope,_⟩ := h.registry.register hreg
      rw [hscope]
      rfl
    obtain ⟨w,hw⟩ := isSome_iff_exists.mp ((hwf.scope_iff _).mp hscope)
    exact (hwf.watcher_lt _ w hw).1
  -- the scope of a watch that was known before is the one it had
  have hscope : ∀ id, id < st.registry.nextWatchId → res.registry.scopeOf id = st.registry.scopeOf id := by
    intro id hid
    cases hc : res.created with
    | true =>
      refine hother id ?_
      rw [(hcreated hc).1]
      exact ne_of_lt hid
    | false => rw [hsame hc]
  constructor
  · exact hwf
  · exact h.log_le
  · exact h.transit_log
  · intro e ids rest hfan
    obtain ⟨hnodup,hlt,hsc,hcomplete⟩ := h.matched e ids rest hfan
    refine ⟨hnodup,fun id hid => Int.lt_of_lt_of_le (hlt id hid) hle,?_,?_⟩
    · intro id scope hs hid
      exact hsc id scope ((hscope id (hlt id hid)).symm.trans hs) hid
    · intro id c scope hc hs
      exact hcomplete id c scope hc ((hscope id (h.channel_lt id c hc).1).symm.trans hs)
  · intro id c hc
    obtain ⟨hlt,hadded⟩ := h.channel_lt id c hc
    exact ⟨Int.lt_of_lt_of_le hlt hle,hadded⟩
  · intro call hcall
    rcases mem_append.mp hcall with hcall | hcall
    · exact Int.lt_of_lt_of_le (h.call_lt call hcall) hle
    · obtain rfl := mem_singleton.mp hcall
      exact hlive
  · exact h.enqueued_log
  · intro id c scope hc hs
    exact h.enqueued_scope id c scope hc ((hscope id (h.channel_lt id c hc).1).symm.trans hs)
  · intro id c scope hc hs
    exact h.tracked id c scope hc ((hscope id (h.channel_lt id c hc).1).symm.trans hs)

theorem cancel_inv (h : PipelineInv st) (id : Int) (watcherAddr : Bytes) :
    PipelineInv { st with registry := (st.registry.cancel id watcherAddr).2 } := by
  have hnext := st.registry.nextWatchId_cancel id watcherAddr
  have hscope : ∀ x scope, (st.registry.cancel id watcherAddr).2.scopeOf x = some scope →
      st.registry.scopeOf x = some scope := by
    intro x scope hs
    rcases st.registry.scopeOf_cancel id x watcherAddr with heq | ⟨_,hnone⟩
    · exact heq.symm.trans hs
    · rw [hnone] at hs
      cases hs
  constructor
  · exact h.registry.cancel id watcherAddr
  · exact h.log_le
  · exact h.transit_log
  · intro e ids rest hfan
    obtain ⟨hnodup,hlt,hsc,hcomplete⟩ := h.matched e ids rest hfan
    refine ⟨hnodup,?_,fun x scope hs => hsc x scope (hscope x scope hs),
      fun x c scope hc hs => hcomplete x c scope hc (hscope x scope hs)⟩
    intro x hx
    show x < (st.registry.cancel id watcherAddr).2.nextWatchId
    rw [hnext]
    exact hlt x hx
  · intro x c hc
    show x < (st.registry.cancel id watcherAddr).2.nextWatchId ∧ _
    rw [hnext]
    exact h.channel_lt x c hc
  · intro call hcall
    show call.watchId < (st.registry.cancel id watcherAddr).2.nextWatchId
    rw [hnext]
    exact h.call_lt call hcall
  · exact h.enqueued_log
  · exact fun x c scope hc hs => h.enqueued_scope x c scope hc (hscope x scope hs)
  · exact fun x c scope hc hs => h.tracked x c scope hc (hscope x scope hs)

theorem removeChannel_frame (st : WatchState) (id : Int) :
    StreamFrame st { st with channels := remove watchId id st.channels } where
  store := rfl
  log := rfl
  registry := rfl
  inFlight := rfl
  pendingQueue := rfl
  pendingOverflow := rfl
  fanOut := rfl
  channel j c hc := by
    have hc' : (if j = id then none else lookup watchId j st.channels) = some c := by
      rw [← lookup_remove]
      exact hc
    split_ifs at hc'
    exact ⟨c,hc',⟨rfl,rfl,rfl⟩⟩
  call_lt h := h

/-- A new channel starts with nothing to receive: no committed event is younger than it. -/
theorem addChannel_inv (h : PipelineInv st) (hid : id < st.registry.nextWatchId) (watcherAddr : Bytes) :
    PipelineInv (st.addChannel id watcherAddr) := by
  have hchannel : ∀ j, (st.addChannel id watcherAddr).channel j =
      if j = id then some (.new id watcherAddr st.store.revision) else st.channel j :=
    fun j => lookup_upsert _ _ _
  have hnone : ∀ (scope : Bytes × Bytes) (e : WatchEvent), e ∈ st.log →
      (new id watcherAddr st.store.revision).due scope e = false := by
    intro scope e he
    have := h.log_le e he
    refine Bool.and_eq_false_iff.mpr (Or.inr (decide_eq_false ?_))
    exact Int.not_lt.mpr this
  constructor
  · exact h.registry
  · exact h.log_le
  · exact h.transit_log
  · intro e ids rest hfan
    obtain ⟨hnodup,hlt,hscope,hcomplete⟩ := h.matched e ids rest hfan
    refine ⟨hnodup,hlt,hscope,?_⟩
    intro j c scope hc hs hdue
    rw [hchannel] at hc
    split_ifs at hc
    · cases hc
      have helog : e ∈ st.log := by
        refine h.transit_log e ?_
        have hfan' : st.fanOut = .matched e ids rest := hfan
        rw [transit,hfan']
        exact mem_cons_self
      rw [hnone scope e helog] at hdue
      cases hdue
    · exact hcomplete j c scope hc hs hdue
  · intro j c hc
    rw [hchannel] at hc
    split_ifs at hc with hj
    · cases hc
      exact ⟨hj ▸ hid,Int.le_refl _⟩
    · exact h.channel_lt j c hc
  · exact h.call_lt
  · intro j c hc
    rw [hchannel] at hc
    split_ifs at hc
    · cases hc
      exact fun e he => by cases he
    · exact h.enqueued_log j c hc
  · intro j c scope hc hs
    rw [hchannel] at hc
    split_ifs at hc
    · cases hc
      exact fun e he => by cases he
    · exact h.enqueued_scope j c scope hc hs
  · intro j c scope hc hs
    rw [hchannel] at hc
    split_ifs at hc
    · cases hc
      intro _ _ _
      have hlog : st.log.filter ((new id watcherAddr st.store.revision).due scope) = [] := by
        rw [filter_eq_nil_iff]
        exact fun e he => by simp [hnone scope e he]
      have hway : ([] ++ st.onTheWay j).filter ((new id watcherAddr st.store.revision).due scope) = [] := by
        rw [nil_append,filter_eq_nil_iff]
        intro e he
        have := hnone scope e (h.transit_log e (mem_transit_of_mem_onTheWay he))
        simp [this]
      exact List.Perm.of_eq (hlog.trans hway.symm)
    · exact h.tracked j c scope hc hs

theorem advance_inv (h : PipelineInv st) {i : Nat} {call : WatchCall} {r : WatchState × WatchCallPhase}
    (hcall : st.calls[i]? = some call) (hadv : st.advanceCall call = some r) :
    PipelineInv { r.1 with calls := st.calls.set i { call with phase := r.2 } } := by
  have hmem : call ∈ st.calls := mem_of_getElem? hcall
  have hcalls : ∀ c ∈ st.calls.set i { call with phase := r.2 }, c.watchId < st.registry.nextWatchId := by
    intro c hc
    rcases mem_or_eq_of_mem_set hc with hc | rfl
    · exact h.call_lt c hc
    · exact h.call_lt call hmem
  -- recording the new phase of the call changes nothing else
  have hrecord : ∀ st₁ : WatchState, st₁.registry = st.registry → PipelineInv st₁ →
      PipelineInv { st₁ with calls := st.calls.set i { call with phase := r.2 } } := by
    intro st₁ hreg h₁
    refine h₁.frame ⟨rfl,rfl,rfl,rfl,rfl,rfl,rfl,fun id c hc => ⟨c,hc,⟨rfl,rfl,rfl⟩⟩,?_⟩
    intro _
    rw [hreg]
    exact hcalls
  unfold advanceCall at hadv
  split at hadv
  · cases hadv
    exact hrecord _ rfl (addChannel_inv h (h.call_lt call hmem) call.watcherAddr)
  · cases hadv
    exact hrecord _ rfl h
  · cases hadv
    exact hrecord _ rfl (h.frame (modifyChannel_frame st call.watchId (setSnapshotRevision_watchId _)
      (setSnapshotRevision_sameStream _)))
  · cases hadv

/-! ## All runs -/

variable {a : WatchAction}

theorem watchStep_pipelineInv (h : PipelineInv st) (hstep : watchStep st a = some st') : PipelineInv st' := by
  cases WatchStep.of_watchStep hstep with
  | mutate op => exact mutate_inv h op
  | callback hi => exact h.moved (callback_moved hi)
  | fanOutPop hfan => exact h.moved (fanOutPop_moved hfan)
  | overflow hfan => exact h.moved (fanOut_moved (by rw [hfan]; rfl) (by simp) fun _ hreset => by cases hreset)
  | fanOutExchange hfan =>
    exact h.moved (fanOut_moved (by rw [hfan]; rfl) (by simp) fun hover _ => ⟨hover,by simp [hfan,
      isResetting,pendingFor]⟩)
  | fanOutReset hfan => exact fanOutReset_inv h hfan
  | fannedOut hfan =>
    exact h.moved (fanOut_moved (by rw [hfan]; rfl) (by simp) fun hover _ => ⟨hover,by simp [hfan,
      isResetting,pendingFor]⟩)
  | fanOutMatch hfan => exact fanOutMatch_inv h hfan
  | fanOutPush hfan => exact fanOutPush_inv h hfan
  | prepare id =>
    exact h.frame (modifyChannel_frame st id prepareChannelEvents_watchId prepareChannelEvents_sameStream)
  | notify id code =>
    exact h.frame (modifyChannel_frame st id (notifyReturned_watchId code) (notifyReturned_sameStream code))
  | acknowledge id =>
    exact h.frame (modifyChannel_frame st id acknowledge_watchId acknowledge_sameStream)
  | refused => exact h
  | watchRange hreg => exact watchRange_inv h hreg _
  | advance hcall hadv => exact advance_inv h hcall hadv
  | cancel id watcherAddr => exact cancel_inv h id watcherAddr
  | removeChannel id => exact h.frame (removeChannel_frame st id)

/-! ## What a step leaves alone -/

/-- The parts of the state that belong to the callers: the store with its log, the registry and the
`WatchRange` calls. -/
structure CallersFrame (st st' : WatchState) : Prop where
  store : st'.store = st.store
  log : st'.log = st.log
  registry : st'.registry = st.registry
  calls : st'.calls = st.calls

def WatchAction.ofCaller : WatchAction → Bool
  | .mutate _ => true
  | .watchRange _ _ _ _ => true
  | .advance _ => true
  | .cancel _ _ => true
  | _ => false

theorem watchStep_frame (ha : a.ofCaller = false) (hstep : watchStep st a = some st') : CallersFrame st st' := by
  cases WatchStep.of_watchStep hstep with
  | mutate => cases ha
  | refused => cases ha
  | watchRange => cases ha
  | advance => cases ha
  | cancel => cases ha
  | callback =>
    unfold enqueue
    split <;> exact ⟨rfl,rfl,rfl,rfl⟩
  | _ => exact ⟨rfl,rfl,rfl,rfl⟩

theorem advance_frame {i : Nat} (hstep : watchStep st (.advance i) = some st') :
    st' = { st with channels := st'.channels, calls := st'.calls } := by
  cases WatchStep.of_watchStep hstep with
  | advance hcall hadv =>
    unfold advanceCall at hadv
    split at hadv <;> cases hadv <;> rfl

theorem watchStep_log (hstep : watchStep st a = some st') : (st'.log = st.log ∧ st'.store = st.store) ∨
      ∃ op, a = .mutate op ∧ st'.store = (op.apply st.store).store ∧
        st'.log = st.log ++ (op.apply st.store).events := by
  cases WatchStep.of_watchStep hstep with
  | mutate op => exact Or.inr ⟨op,rfl,rfl,rfl⟩
  | advance =>
    rw [advance_frame hstep]
    exact Or.inl ⟨rfl,rfl⟩
  | callback => exact Or.inl ⟨(watchStep_frame rfl hstep).log,(watchStep_frame rfl hstep).store⟩
  | _ => exact Or.inl ⟨rfl,rfl⟩

/-! ## What a step does to a channel -/

/-- The ways in which one step changes an existing channel. -/
inductive ChannelStep (st : WatchState) (id : Int) (c : WatcherChannel) :
    WatchAction → WatcherChannel → Prop
  | same (a : WatchAction) : ChannelStep st id c a c
  | push (e : WatchEvent) (ids : List Int) (rest : List WatchEvent)
      (hfan : st.fanOut = .matched e ids rest) : ChannelStep st id c .fanOutPush (c.push e)
  | reset : ChannelStep st id c .fanOutReset c.reset
  | prepare : ChannelStep st id c (.prepare id) c.prepareChannelEvents
  | notify (code : StatusCode) : ChannelStep st id c (.notify id code) (c.notifyReturned code)
  | acknowledge : ChannelStep st id c (.acknowledge id) c.acknowledge
  | setSnapshot (i : Nat) (call : WatchCall) (revision : Int) (kvs : List KeyValueEntry)
      (hcall : st.calls[i]? = some call) (hid : call.watchId = id)
      (hphase : call.phase = .setSnapshot revision kvs) :
      ChannelStep st id c (.advance i) (c.setSnapshotRevision revision)

/-- The ways in which a channel gets into the next state. -/
inductive ChannelOrigin (st : WatchState) (id : Int) (a : WatchAction) (c' : WatcherChannel) : Prop
  | kept (c : WatcherChannel) (hc : st.channel id = some c) (hstep : ChannelStep st id c a c')
  | added (i : Nat) (call : WatchCall) (ha : a = .advance i) (hcall : st.calls[i]? = some call)
      (hid : call.watchId = id) (hphase : call.phase = .addChannel)
      (hnew : c' = .new id call.watcherAddr st.store.revision)

theorem modifyChannel_origin {j : Int}
    (hf : ∀ c, (f c).watchId = c.watchId) (hstep : ∀ c, ChannelStep st j c a (f c)) {c' : WatcherChannel}
    (hc' : (st.modifyChannel j f).channel id = some c') : ChannelOrigin st id a c' := by
  rw [channel_modifyChannel hf] at hc'
  by_cases hid : id = j
  · subst hid
    rw [if_pos rfl] at hc'
    obtain ⟨c,hc,rfl⟩ := map_eq_some_iff.mp hc'
    exact .kept c hc (hstep c)
  · rw [if_neg hid] at hc'
    exact .kept c' hc' (.same a)

theorem watchStep_channel (h : PipelineInv st) (hstep : watchStep st a = some st') {c' : WatcherChannel}
    (hc' : st'.channel id = some c') : ChannelOrigin st id a c' := by
  cases WatchStep.of_watchStep hstep with
  | callback hi =>
    refine .kept c' ?_ (.same _)
    unfold enqueue at hc'
    split at hc' <;> exact hc'
  | fanOutReset hfan =>
    have hmap := (lookup_map reset_watchId st.channels id).symm.trans hc'
    obtain ⟨c,hc,rfl⟩ := map_eq_some_iff.mp hmap
    exact .kept c hc .reset
  | @fanOutPush e ids rest hfan =>
    have hfold := (lookup_foldl_push e (h.matched e ids rest hfan).nodup st.channels id).symm.trans hc'
    by_cases hid : id ∈ ids
    · rw [if_pos hid] at hfold
      obtain ⟨c,hc,rfl⟩ := map_eq_some_iff.mp hfold
      exact .kept c hc (.push e ids rest hfan)
    · rw [if_neg hid] at hfold
      exact .kept c' hfold (.same _)
  | prepare j => exact modifyChannel_origin prepareChannelEvents_watchId (fun _ => .prepare) hc'
  | notify j code =>
    exact modifyChannel_origin (notifyReturned_watchId code) (fun _ => .notify code) hc'
  | acknowledge j => exact modifyChannel_origin acknowledge_watchId (fun _ => .acknowledge) hc'
  | @advance i call r hcall hadv =>
    unfold advanceCall at hadv
    split at hadv
    · rename_i hphase
      cases hadv
      have hadd : (if id = call.watchId then
          some (new call.watchId call.watcherAddr st.store.revision)
          else st.channel id) = some c' :=
        (lookup_upsert (new call.watchId call.watcherAddr st.store.revision) st.channels id).symm.trans hc'
      by_cases hid : id = call.watchId
      · rw [if_pos hid,some.injEq] at hadd
        subst hid
        exact .added i call rfl hcall rfl hphase hadd.symm
      · rw [if_neg hid] at hadd
        exact .kept c' hadd (.same _)
    · cases hadv
      exact .kept c' hc' (.same _)
    · rename_i revision kvs hphase
      cases hadv
      exact modifyChannel_origin (setSnapshotRevision_watchId revision)
        (fun c => .setSnapshot i call revision kvs hcall rfl hphase) hc'
    · cases hadv
  | removeChannel j =>
    have hrem := (lookup_remove st.channels j id).symm.trans hc'
    split_ifs at hrem
    exact .kept c' hrem (.same _)
  | _ => exact .kept c' hc' (.same _)

theorem reachable_pipelineInv (h : watchMachine.Reachable st) : PipelineInv st :=
  h.invariant empty_pipelineInv fun _ _ _ hinv hstep => watchStep_pipelineInv hinv hstep

end Datasystem.Coordinator
