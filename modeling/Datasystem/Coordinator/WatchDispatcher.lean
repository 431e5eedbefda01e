import Datasystem.Lib.Machine
import Datasystem.Coordinator.WatchRegistry

/-!
# Watch dispatcher

The machine below has one action for each section that runs under one lock; a push of one event to its matched
channels counts as one section, since pushes to different channels commute with everything else that touches a
channel.
-/

namespace Datasystem.Coordinator

open Keyed MemoryKvStore

def maxPendingEvents : Nat := 10000
def maxWatchEventsPerFanOut : Nat := 4096
def maxWatchEventsPerBatch : Nat := 32
def watchEventBatchMergeThresholdBytes : Nat := 256 * 1024
def watchEventWireOverheadBytes : Nat := 128

/-- The payload-free event that tells a watcher to rebuild its watch. -/
def makeRewatchEvent (revision : Int) : WatchEvent := ⟨.rewatch,⟨[],[],0,0⟩,revision⟩

/-- Where the dispatch of a channel stands. Every phase but `idle` has `dispatchQueued` set, so
that one worker at a time handles the channel. -/
inductive DispatchPhase where
  | idle
  | queued
  | notifying (events : List WatchEvent) (needReWatch : Bool) (maxEventRevision : Int)
  | notified (events : List WatchEvent) (maxEventRevision : Int)
  | closing
deriving DecidableEq, Repr

/-- A channel. `addedRevision` is the store revision when the channel was created, `enqueued` and
`delivered` are the events ever pushed to its queue and ever notified with success. -/
structure WatcherChannel where
  watchId : Int
  watcherAddr : Bytes
  queue : List WatchEvent := []
  backpressureLimit : Nat := 1024
  snapshotRevision : Int := 0
  needReWatch : Bool := false
  dispatch : DispatchPhase := .idle
  addedRevision : Int
  enqueued : List WatchEvent := []
  delivered : List WatchEvent := []
deriving DecidableEq, Repr

namespace WatcherChannel

def new (id : Int) (watcherAddr : Bytes) (revision : Int) : WatcherChannel where
  watchId := id
  watcherAddr := watcherAddr
  addedRevision := revision

variable (c : WatcherChannel)

def schedule : WatcherChannel :=
  if c.dispatch = .idle then { c with dispatch := .queued } else c

/-- Fan-out of one event to one channel: a full queue collapses to a rewatch event. -/
def push (e : WatchEvent) (c : WatcherChannel) : WatcherChannel :=
  if c.needReWatch then c
  else if c.queue.length < c.backpressureLimit then
    schedule { c with queue := c.queue ++ [e], enqueued := c.enqueued ++ [e] }
  else schedule { c with queue := [makeRewatchEvent e.revision], needReWatch := true }

/-- The reset of a channel after an overflow of the pending queue. -/
def reset : WatcherChannel :=
  if c.needReWatch then c
  else schedule { c with queue := [makeRewatchEvent 0], needReWatch := true }

def setSnapshotRevision (revision : Int) (c : WatcherChannel) : WatcherChannel :=
  let c := { c with snapshotRevision := revision }
  if c.queue.isEmpty then c else c.schedule

def eventBytes (e : WatchEvent) : Nat :=
  watchEventWireOverheadBytes +
    if e.type = .rewatch then 0 else e.entry.key.length + e.entry.value.length

/-- The events of one notification: at most `count`, and none after the size threshold is
passed. -/
def takeBatch : Nat → Nat → List WatchEvent → List WatchEvent
  | 0, _, _ => []
  | _ + 1, _, [] => []
  | count + 1, batchBytes, e :: events =>
    let batchBytes := batchBytes + eventBytes e
    if watchEventBatchMergeThresholdBytes < batchBytes then [e]
    else e :: takeBatch count batchBytes events

def maxRevision (events : List WatchEvent) : Int := events.foldl (fun m e => max m e.revision) 0

/-- The queue as a dispatch finds it: events the snapshot already shows are dropped from the
front. -/
def pruned : List WatchEvent := c.queue.dropWhile fun e => e.revision ≤ c.snapshotRevision

def prepareChannelEvents : WatcherChannel :=
  if c.queue.isEmpty then { c with dispatch := .idle }
  else if c.needReWatch then { c with dispatch := .notifying (c.queue.take 1) true 0 }
  else if c.snapshotRevision ≤ 0 then { c with dispatch := .idle }
  else if c.pruned.isEmpty then { c with queue := c.pruned, dispatch := .idle }
  else
    let events := takeBatch maxWatchEventsPerBatch 0 c.pruned
    { c with queue := c.pruned, dispatch := .notifying events false (maxRevision events) }

def notifyReturned (code : StatusCode) (c : WatcherChannel) : WatcherChannel :=
  match c.dispatch with
  | .notifying events needReWatch maxEventRevision =>
    match code with
    | .ok =>
      { c with
        delivered := c.delivered ++ events
        dispatch := if needReWatch then .closing else .notified events maxEventRevision }
    | .notFound => { c with dispatch := .closing }
    | _ => { c with dispatch := .queued }
  | _ => c

def acknowledged (maxEventRevision : Int) : List WatchEvent :=
  c.queue.takeWhile fun e => e.revision ≤ maxEventRevision

def acknowledge : WatcherChannel :=
  match c.dispatch with
  | .notified _ maxEventRevision =>
    let queue := c.queue.dropWhile fun e => e.revision ≤ maxEventRevision
    { c with queue := queue, dispatch := if queue.isEmpty then .idle else .queued }
  | _ => c

end WatcherChannel

/-- A `WatchRange` call after its registration: what it does next. -/
inductive WatchCallPhase where
  | addChannel
  | range
  | setSnapshot (revision : Int) (kvs : List KeyValueEntry)
  | returned (revision : Int) (kvs : List KeyValueEntry)
deriving DecidableEq, Repr

structure WatchCall where
  key : Bytes
  rangeEnd : Bytes
  watcherAddr : Bytes
  watchId : Int
  phase : WatchCallPhase
deriving DecidableEq, Repr

inductive FanOutPhase where
  | idle
  | popped (batch : List WatchEvent)
  | resetting (batch : List WatchEvent)
  | fanning (batch : List WatchEvent)
  | matched (event : WatchEvent) (watchIds : List Int) (rest : List WatchEvent)
deriving DecidableEq, Repr

/-- The whole path from the store to the watchers. `log` lists the committed events, `inFlight`
has, for each mutation, the events its callback has still to hand over. -/
structure WatchState where
  store : MemoryKvStore
  log : List WatchEvent
  registry : WatchRegistry
  inFlight : List (List WatchEvent)
  pendingQueue : List WatchEvent
  pendingOverflow : Bool
  fanOut : FanOutPhase
  channels : List WatcherChannel
  calls : List WatchCall

inductive WatchAction where
  | mutate (op : StoreOp)
  | callback (i : Nat)
  | fanOutPop
  | fanOutExchange
  | fanOutReset
  | fanOutMatch
  | fanOutPush
  | prepare (watchId : Int)
  | notify (watchId : Int) (code : StatusCode)
  | acknowledge (watchId : Int)
  | watchRange (key rangeEnd watcherAddr registrationId : Bytes)
  | advance (i : Nat)
  | cancel (watchId : Int) (watcherAddr : Bytes)
  | removeChannel (watchId : Int)
deriving DecidableEq, Repr

namespace WatchState

def empty : WatchState := ⟨.empty,[],.empty,[],[],false,.idle,[],[]⟩

variable (st : WatchState)

def channel (id : Int) : Option WatcherChannel := lookup WatcherChannel.watchId id st.channels

def modifyChannel (id : Int) (f : WatcherChannel → WatcherChannel) : WatchState :=
  { st with channels := modify WatcherChannel.watchId id f st.channels }

def enqueue (e : WatchEvent) : WatchState :=
  if maxPendingEvents ≤ st.pendingQueue.length then { st with pendingOverflow := true }
  else { st with pendingQueue := st.pendingQueue ++ [e] }

def addChannel (id : Int) (watcherAddr : Bytes) : WatchState :=
  { st with
    channels := upsert WatcherChannel.watchId (.new id watcherAddr st.store.revision) st.channels }

def advanceCall (call : WatchCall) : Option (WatchState × WatchCallPhase) :=
  match call.phase with
  | .addChannel => some (st.addChannel call.watchId call.watcherAddr, .range)
  | .range =>
    let r := st.store.range call.key call.rangeEnd
    some (st, .setSnapshot r.2 r.1)
  | .setSnapshot revision kvs =>
    some (st.modifyChannel call.watchId (WatcherChannel.setSnapshotRevision revision),
      .returned revision kvs)
  | .returned _ _ => none

end WatchState

variable (st : WatchState)

/-- The fan-out thread between its lock sections. -/
def fanOutStep : WatchAction → Option WatchState
  | .fanOutPop =>
    match st.fanOut with
    | .idle =>
      some { st with
        fanOut := .popped (st.pendingQueue.take maxWatchEventsPerFanOut)
        pendingQueue := st.pendingQueue.drop maxWatchEventsPerFanOut }
    | _ => none
  | .fanOutExchange =>
    match st.fanOut with
    | .popped batch =>
      if st.pendingOverflow then
        some { st with pendingOverflow := false, fanOut := .resetting batch }
      else some { st with fanOut := .fanning batch }
    | _ => none
  | .fanOutReset =>
    match st.fanOut with
    | .resetting batch =>
      some { st with channels := st.channels.map WatcherChannel.reset, fanOut := .fanning batch }
    | _ => none
  | .fanOutMatch =>
    match st.fanOut with
    | .fanning [] => some { st with fanOut := .idle }
    | .fanning (e :: rest) =>
      some { st with fanOut := .matched e (st.registry.matchedIds e.entry.key) rest }
    | _ => none
  | .fanOutPush =>
    match st.fanOut with
    | .matched e ids rest =>
      some { st with
        channels := ids.foldl (fun channels id =>
          modify WatcherChannel.watchId id (WatcherChannel.push e) channels) st.channels
        fanOut := .fanning rest }
    | _ => none
  | _ => none

def watchStep : WatchAction → Option WatchState
  | .mutate op =>
    let o := op.apply st.store
    some { st with
      store := o.store
      log := st.log ++ o.events
      inFlight := st.inFlight ++ [o.events] }
  | .callback i =>
    match st.inFlight[i]? with
    | some (e :: events) => some { st.enqueue e with inFlight := st.inFlight.set i events }
    | _ => none
  | .prepare id =>
    match st.channel id with
    | some c =>
      if c.dispatch = .queued then
        some (st.modifyChannel id WatcherChannel.prepareChannelEvents)
      else none
    | none => none
  | .notify id code => some (st.modifyChannel id (WatcherChannel.notifyReturned code))
  | .acknowledge id => some (st.modifyChannel id WatcherChannel.acknowledge)
  | .watchRange key rangeEnd watcherAddr registrationId =>
    match st.registry.register key rangeEnd watcherAddr registrationId with
    | .error _ => some st
    | .ok res =>
      some { st with
        registry := res.registry
        calls := st.calls ++ [⟨key,rangeEnd,watcherAddr,res.watchId,
          if res.created then .addChannel else .range⟩] }
  | .advance i =>
    (st.calls[i]?).bind fun call =>
      (st.advanceCall call).map fun r =>
        { r.1 with calls := st.calls.set i { call with phase := r.2 } }
  | .cancel id watcherAddr => some { st with registry := (st.registry.cancel id watcherAddr).2 }
  | .removeChannel id =>
    some { st with channels := remove WatcherChannel.watchId id st.channels }
  | action => fanOutStep st action

def watchMachine : Machine WatchState WatchAction where
  init := .empty
  step := watchStep

inductive WatchStep (st : WatchState) : WatchAction → WatchState → Prop
  | mutate (op : StoreOp) : WatchStep st (.mutate op) { st with
      store := (op.apply st.store).store
      log := st.log ++ (op.apply st.store).events
      inFlight := st.inFlight ++ [(op.apply st.store).events] }
  | callback {i : Nat} {e : WatchEvent} {events : List WatchEvent} (hi : st.inFlight[i]? = some (e :: events)) :
      WatchStep st (.callback i) { st.enqueue e with inFlight := st.inFlight.set i events }
  | fanOutPop (hfan : st.fanOut = .idle) : WatchStep st .fanOutPop { st with
      fanOut := .popped (st.pendingQueue.take maxWatchEventsPerFanOut)
      pendingQueue := st.pendingQueue.drop maxWatchEventsPerFanOut }
  | overflow {batch : List WatchEvent} (hfan : st.fanOut = .popped batch) :
      WatchStep st .fanOutExchange { st with pendingOverflow := false, fanOut := .resetting batch }
  | fanOutExchange {batch : List WatchEvent} (hfan : st.fanOut = .popped batch) :
      WatchStep st .fanOutExchange { st with fanOut := .fanning batch }
  | fanOutReset {batch : List WatchEvent} (hfan : st.fanOut = .resetting batch) : WatchStep st .fanOutReset
      { st with channels := st.channels.map WatcherChannel.reset, fanOut := .fanning batch }
  | fannedOut (hfan : st.fanOut = .fanning []) : WatchStep st .fanOutMatch { st with fanOut := .idle }
  | fanOutMatch {e : WatchEvent} {rest : List WatchEvent} (hfan : st.fanOut = .fanning (e :: rest)) :
      WatchStep st .fanOutMatch { st with fanOut := .matched e (st.registry.matchedIds e.entry.key) rest }
  | fanOutPush {e : WatchEvent} {ids : List Int} {rest : List WatchEvent} (hfan : st.fanOut = .matched e ids rest) :
      WatchStep st .fanOutPush { st with
        channels := ids.foldl (fun channels id =>
          modify WatcherChannel.watchId id (WatcherChannel.push e) channels) st.channels
        fanOut := .fanning rest }
  | prepare (id : Int) : WatchStep st (.prepare id) (st.modifyChannel id WatcherChannel.prepareChannelEvents)
  | notify (id : Int) (code : StatusCode) :
      WatchStep st (.notify id code) (st.modifyChannel id (WatcherChannel.notifyReturned code))
  | acknowledge (id : Int) : WatchStep st (.acknowledge id) (st.modifyChannel id WatcherChannel.acknowledge)
  | refused (key rangeEnd watcherAddr registrationId : Bytes) :
      WatchStep st (.watchRange key rangeEnd watcherAddr registrationId) st
  | watchRange {key rangeEnd watcherAddr registrationId : Bytes} {res : WatchRegistry.Registered}
      (hreg : st.registry.register key rangeEnd watcherAddr registrationId = .ok res) :
      WatchStep st (.watchRange key rangeEnd watcherAddr registrationId) { st with
        registry := res.registry
        calls := st.calls ++ [⟨key,rangeEnd,watcherAddr,res.watchId,
          if res.created then .addChannel else .range⟩] }
  | advance {i : Nat} {call : WatchCall} {r : WatchState × WatchCallPhase} (hcall : st.calls[i]? = some call)
      (hadv : st.advanceCall call = some r) :
      WatchStep st (.advance i) { r.1 with calls := st.calls.set i { call with phase := r.2 } }
  | cancel (id : Int) (watcherAddr : Bytes) : WatchStep st (.cancel id watcherAddr)
      { st with registry := (st.registry.cancel id watcherAddr).2 }
  | removeChannel (id : Int) : WatchStep st (.removeChannel id)
      { st with channels := remove WatcherChannel.watchId id st.channels }

theorem WatchStep.of_fanOutStep {st st' : WatchState} {a : WatchAction} (h : fanOutStep st a = some st') :
    WatchStep st a st' := by
  unfold fanOutStep at h
  split at h
  · split at h <;> cases h
    exact .fanOutPop (by assumption)
  · split at h
    · split_ifs at h <;> cases h
      · exact .overflow (by assumption)
      · exact .fanOutExchange (by assumption)
    · cases h
  · split at h <;> cases h
    exact .fanOutReset (by assumption)
  · split at h <;> cases h
    · exact .fannedOut (by assumption)
    · exact .fanOutMatch (by assumption)
  · split at h <;> cases h
    exact .fanOutPush (by assumption)
  · cases h

theorem WatchStep.of_watchStep {st st' : WatchState} {a : WatchAction} (h : watchStep st a = some st') :
    WatchStep st a st' := by
  unfold watchStep at h
  split at h
  · cases h
    exact .mutate _
  · split at h <;> cases h
    exact .callback (by assumption)
  · split at h
    · split_ifs at h
      cases h
      exact .prepare _
    · cases h
  · cases h
    exact .notify _ _
  · cases h
    exact .acknowledge _
  · split at h <;> cases h
    · exact .refused _ _ _ _
    · exact .watchRange (by assumption)
  · obtain ⟨call,hcall,h⟩ := Option.bind_eq_some_iff.mp h
    obtain ⟨r,hadv,rfl⟩ := Option.map_eq_some_iff.mp h
    exact .advance hcall hadv
  · cases h
    exact .cancel _ _
  · cases h
    exact .removeChannel _
  · exact .of_fanOutStep h

/-- The events the fan-out thread still holds for a watch. -/
def FanOutPhase.pendingFor (id : Int) : FanOutPhase → List WatchEvent
  | .idle => []
  | .popped batch => batch
  | .resetting batch => batch
  | .fanning batch => batch
  | .matched e ids rest => if id ∈ ids then e :: rest else rest

/-- The committed events that have not yet reached the channel of a watch. -/
def WatchState.onTheWay (id : Int) : List WatchEvent :=
  st.fanOut.pendingFor id ++ st.pendingQueue ++ st.inFlight.flatten

/-- The fan-out thread has taken an overflow mark and is about to reset all channels. -/
def FanOutPhase.isResetting : FanOutPhase → Bool
  | .resetting _ => true
  | _ => false

/-- Some reset is due or has been delivered: a pending overflow, or a rewatch event queued for or
delivered to the watch. -/
def Superseded (c : WatcherChannel) : Prop :=
  st.pendingOverflow = true ∨ st.fanOut.isResetting = true ∨
    (∃ e ∈ c.queue, e.type = .rewatch) ∨ ∃ e ∈ c.delivered, e.type = .rewatch

/-- No mutation is lost: every committed event in the scope of a live watch above its snapshot
revision is delivered, queued, on the way, or superseded by a reset. -/
def NoEventLost : Prop :=
  ∀ id c scope, st.channel id = some c → st.registry.scopeOf id = some scope →
    0 < c.snapshotRevision → ∀ e ∈ st.log, inScope scope.1 scope.2 e.entry.key →
      c.snapshotRevision < e.revision →
        e ∈ c.delivered ∨ e ∈ c.queue ∨ e ∈ st.onTheWay id ∨ Superseded st c

end Datasystem.Coordinator
