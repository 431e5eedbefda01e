import Datasystem.Metastore.KvTxn

/-!
# The watchers of the metastore

A watcher gets the writes of a range of keys on a stream. Those it has missed are read from the history and
written to the stream directly; new ones wait in its queue, from which a worker takes them when the history is
through.
-/

namespace Datasystem.Metastore

structure WatchResponse where
  watchId : Int
  /-- The revision in the header. -/
  revision : Int
  created : Bool := false
  event : Option WatchEvent := none
deriving DecidableEq, Repr

structure WatchCreateRequest where
  key : Bytes
  rangeEnd : Bytes := []
  startRevision : Int := 0
  prevKv : Bool := false
deriving DecidableEq, Repr

structure Watcher where
  watchId : Int
  key : Bytes
  rangeEnd : Bytes
  startRevision : Int
  prevKv : Bool
  initializing : Bool := true
  lastHistoricalRevision : Int := 0
  writeQueue : List WatchResponse := []
  /-- A worker knows the watcher. -/
  inThreadPool : Bool := false
  /-- What was written to the stream. -/
  stream : List WatchResponse := []
deriving DecidableEq, Repr

/-- One response leaves the queue, and reaches the stream if the history did not have it. -/
def Watcher.takeResponse (w : Watcher) : Watcher :=
  if w.initializing || !w.inThreadPool then w
  else
    match w.writeQueue with
    | [] => w
    | response :: rest =>
      if response.revision ≤ w.lastHistoricalRevision then { w with writeQueue := rest }
      else { w with writeQueue := rest, stream := w.stream ++ [response] }

theorem Watcher.watchId_takeResponse (w : Watcher) : w.takeResponse.watchId = w.watchId := by
  unfold takeResponse
  split
  · rfl
  · split
    · rfl
    · split <;> rfl

def keyMatchesWatcher (key : Bytes) (w : Watcher) : Bool :=
  if key < w.key then false
  else if w.rangeEnd.isEmpty then key = w.key
  else if w.rangeEnd.head? = some 0 then w.key ≤ key
  else key < w.rangeEnd

theorem Watcher.sorted_nil : Keyed.Sorted Watcher.watchId [] := List.Pairwise.nil

structure WatchManager where
  watchers : List Watcher := []
  nextWatchId : Int := 1
  watchers_sorted : Keyed.Sorted Watcher.watchId watchers := by exact Watcher.sorted_nil
deriving DecidableEq

namespace WatchManager

variable (m : WatchManager) (watchId : Int)

def find : Option Watcher := Keyed.lookup Watcher.watchId watchId m.watchers

/-- The watcher enters the map while it is still initializing. -/
def addWatcher (req : WatchCreateRequest) : Int × WatchManager :=
  (m.nextWatchId,
    { watchers := Keyed.upsert Watcher.watchId
        ⟨m.nextWatchId,req.key,req.rangeEnd,req.startRevision,req.prevKv,true,0,[],false,[]⟩ m.watchers
      nextWatchId := m.nextWatchId + 1
      watchers_sorted := m.watchers_sorted.upsert _ })

def collectWatchers (key : Bytes) : List Watcher := m.watchers.filter fun w => keyMatchesWatcher key w

def modify (m : WatchManager) (watchId : Int) (f : Watcher → Watcher)
    (hf : ∀ w, (f w).watchId = w.watchId) : WatchManager where
  watchers := Keyed.modify Watcher.watchId watchId f m.watchers
  nextWatchId := m.nextWatchId
  watchers_sorted := by
    refine List.pairwise_map.mpr (m.watchers_sorted.imp ?_)
    intro a b hab
    split_ifs <;> simpa [hf] using hab

def sendWatchResponse (response : WatchResponse) : WatchManager :=
  m.modify response.watchId (fun w => { w with writeQueue := w.writeQueue ++ [response] }) fun _ => rfl

def writeStream (responses : List WatchResponse) : WatchManager :=
  m.modify watchId (fun w => { w with stream := w.stream ++ responses }) fun _ => rfl

def historicalResponse (entry : HistoricalEntry) : WatchResponse :=
  ⟨watchId,entry.revision,false,some ⟨entry.type,entry.kv.key,entry.kv,none⟩⟩

/-- The section of `SendHistoricalEvents` that holds the mutex of the stream. -/
def sendHistory (events : List HistoricalEntry) : WatchManager :=
  m.modify watchId (fun w =>
    { w with
      stream := w.stream ++ events.map (historicalResponse watchId)
      lastHistoricalRevision :=
        events.foldl (fun r entry => max r entry.revision) (w.startRevision - 1) }) fun _ => rfl

/-- The end of `RegisterWatcher`: into the thread pool, and no longer initializing. -/
def startWatcher : WatchManager :=
  m.modify watchId (fun w => { w with inThreadPool := true, initializing := false }) fun _ => rfl

def processWatcherQueue : WatchManager := m.modify watchId Watcher.takeResponse Watcher.watchId_takeResponse

end WatchManager

end Datasystem.Metastore
