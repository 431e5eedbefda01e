import Datasystem.Metastore.WatchProtocol

/-!
# The sections that commit, notify and register

Each section of a call that keeps to its note leaves every watcher in order.
-/

namespace Datasystem.Metastore

open Watcher List Option
open WatchResponse (write)

namespace PhaseOk

variable {w w' : Watcher} {log : List Write} {revision : Int} {underWay : List Write} {phase : RegistrationPhase}

theorem commit {writes : List Write} {revision' : Int} (h : PhaseOk w log revision underWay phase)
    (hcommit : IsCommit log revision writes revision') :
    PhaseOk w (writes.reverse ++ log) revision' (underWay ++ writes.filter fun x => keyMatchesWatcher x.key w)
      phase := by
  cases phase with
  | added =>
    refine ⟨h.1,h.2.1,?_⟩
    intro x hx
    rcases mem_append.mp hx with hx | hx
    · exact ⟨mem_append_right _ (h.2.2 x hx).1,(h.2.2 x hx).2⟩
    · obtain ⟨hmem,hkey⟩ := mem_filter.mp hx
      exact ⟨mem_append_left _ (mem_reverse.mpr hmem),hkey⟩
  | read events => exact ⟨h.1,h.2.1,h.2.2.commit hcommit⟩
  | sent => exact Delivers.commit h hcommit

theorem congr (h : PhaseOk w log revision underWay phase) (hrange : w.SameRange w')
    (hinitializing : w'.initializing = w.initializing) (hstream : w'.streamed = w.streamed)
    (hlast : w'.lastHistoricalRevision = w.lastHistoricalRevision) : PhaseOk w' log revision underWay phase := by
  cases phase with
  | added =>
    refine ⟨hinitializing.trans h.1,hstream.trans h.2.1,?_⟩
    intro x hx
    rw [hrange.keyMatchesWatcher]
    exact h.2.2 x hx
  | read events =>
    refine ⟨hinitializing.trans h.1,hstream.trans h.2.1,?_⟩
    rw [hrange.startRevision]
    exact h.2.2.congr hrange
  | sent =>
    have hdelivers : Delivers w' log revision underWay w.streamed w.lastHistoricalRevision := Delivers.congr h hrange
    rw [← hstream,← hlast] at hdelivers
    exact hdelivers

end PhaseOk

theorem Watcher.SameRange.refl (w : Watcher) : w.SameRange w := ⟨rfl,rfl,rfl⟩

theorem Watcher.underWay_eq (w : Watcher) (pending : List Write) (sending : List (Int × Write)) :
    w.underWay pending sending = w.queued ++ ((sending.filter fun p => p.1 = w.watchId).map Prod.snd ++
      pending.filter fun x => keyMatchesWatcher x.key w) := by
  rw [underWay,append_assoc]

variable {w : Watcher}

/-- The watchers of a range get the writes that the history of the range shows. -/
theorem keyInRange_eq_keyMatchesWatcher {req : WatchCreateRequest} (hreq : req.RangeOk) (hkey : w.key = req.key)
    (hrangeEnd : w.rangeEnd = req.rangeEnd) (k : Bytes) :
    keyInRange k req.key req.rangeEnd = keyMatchesWatcher k w := by
  rw [keyInRange,keyMatchesWatcher,hkey,hrangeEnd]
  by_cases hlt : k < req.key
  · simp [hlt]
  · simp only [hlt,if_false]
    by_cases hempty : req.rangeEnd.isEmpty = true
    · simp [hempty]
    · rcases hreq with hall | hhead
      · simp [hall,not_lt.mp hlt]
      · have hne : req.rangeEnd ≠ [0] := by
          intro hall
          exact hhead (by rw [hall]; rfl)
        simp [hempty,hhead,hne]

/-- The history has been read: it shows all that is in the log, and what is under way is known from it. -/
theorem PhaseOk.read {s : KvManager} {log underWay : List Write} (h : Tracks s log) {req : WatchCreateRequest}
    (hreq : req.RangeOk) (hkey : w.key = req.key) (hrangeEnd : w.rangeEnd = req.rangeEnd)
    (hstart : w.startRevision = req.startRevision) (hhistory : HistoryOk log req.key req.rangeEnd req.startRevision)
    {events : List HistoricalEntry} (hevents : s.rangeHistory req.key req.rangeEnd req.startRevision = some events)
    (hadded : PhaseOk w log s.revision underWay .added) : PhaseOk w log s.revision underWay (.read events) := by
  have hexpected : w.expected log = writesFrom log req.key req.rangeEnd req.startRevision := by
    unfold expected writesFrom
    apply filter_congr
    intro x _
    rw [keyInRange_eq_keyMatchesWatcher hreq hkey hrangeEnd,hstart]
  have hperm := h.rangeHistory_perm hhistory.few hevents
  have hsorted := h.rangeHistory_sorted hperm hhistory.order hevents
  obtain ⟨hlower,hall,hlast⟩ := lastRevision_spec w.startRevision events
  rw [← hexpected] at hperm
  have hnone : (underWay.filter fun x => lastRevision w.startRevision events < x.revision) = [] := by
    rw [filter_eq_nil_iff]
    intro x hx
    obtain ⟨hmem,hmatch⟩ := hadded.2.2 x hx
    simp only [decide_eq_true_eq,not_lt]
    by_cases hfrom : w.startRevision ≤ x.revision
    · have hshown := hperm.mem_iff.mpr (mem_expected.mpr ⟨hmem,hmatch,hfrom⟩)
      obtain ⟨e,he,rfl⟩ := mem_map.mp hshown
      exact hall e he
    · omega
  refine ⟨hadded.1,hadded.2.1,?_,?_,hlower,?_⟩
  · rwa [hnone,append_nil]
  · rwa [hnone,append_nil]
  · rcases hlast with hlast | ⟨e,he,hlast⟩
    · exact le_max_of_le_left hlast.le
    · have hmem := hperm.mem_iff.mp (mem_map_of_mem he)
      have hbound := h.bound _ (mem_expected.mp hmem).1
      rw [hlast]
      exact le_max_of_le_right hbound

theorem sending_collectWatchers {watchers : List Watcher} (hsorted : Keyed.Sorted watchId watchers)
    (hw : w ∈ watchers) (x : Write) (p : Watcher → Bool) :
    (((watchers.filter p).map fun v => (v.watchId, x)).filter fun e => e.1 = w.watchId).map Prod.snd =
      if p w then [x] else [] := by
  induction watchers with
  | nil => cases hw
  | cons v watchers ih =>
    have hnone : ∀ i, (∀ u ∈ watchers, i ≠ u.watchId) →
        (((watchers.filter p).map fun v => (v.watchId, x)).filter fun e => e.1 = i) = [] := by
      intro i hi
      rw [filter_eq_nil_iff]
      intro e he
      obtain ⟨u,hu,rfl⟩ := mem_map.mp he
      simpa using (hi u (mem_of_mem_filter hu)).symm
    rcases mem_cons.mp hw with rfl | hw
    · have hrest := hnone w.watchId fun u hu => (hsorted.head_lt hu).ne
      by_cases hp : p w = true
      · simp [hp,hrest]
      · simp [hp,hrest]
    · have hne : v.watchId ≠ w.watchId := (hsorted.head_lt hw).ne
      rw [← ih hsorted.tail hw]
      by_cases hp : p v = true
      · simp [hp,hne]
      · simp [hp]

theorem Watcher.streamed_sendHistory (w : Watcher) (watchId : Int) (events : List HistoricalEntry) :
    ((w.stream ++ events.map (WatchManager.historicalResponse watchId)).filterMap write) =
      w.streamed ++ events.map HistoricalEntry.write := by
  rw [filterMap_append,filterMap_map]
  congr 1
  induction events with
  | nil => rfl
  | cons e events ih => simpa [write,WatchManager.historicalResponse,HistoricalEntry.write] using ih

theorem PhaseOk.take {log rest : List Write} {revision : Int} {phase : RegistrationPhase}
    (h : PhaseOk w log revision (w.queued ++ rest) phase) :
    PhaseOk w.takeResponse log revision (w.takeResponse.queued ++ rest) phase := by
  by_cases hskip : (w.initializing || !w.inThreadPool) = true
  · simpa only [takeResponse,hskip,if_true] using h
  · cases phase with
    | added => simp [h.1] at hskip
    | read events => simp [h.1] at hskip
    | sent =>
      have hdelivers : Delivers w log revision (w.queued ++ rest) w.streamed w.lastHistoricalRevision := h
      cases hqueue : w.writeQueue with
      | nil => simpa only [takeResponse,hskip,hqueue,Bool.false_eq_true,if_false] using h
      | cons response queue =>
        have htake : w.takeResponse = { w with
            writeQueue := queue
            stream := if response.revision ≤ w.lastHistoricalRevision then w.stream else w.stream ++ [response] } := by
          simp only [takeResponse,hskip,hqueue,Bool.false_eq_true,if_false]
          split_ifs <;> rfl
        rw [htake]
        cases hwrite : response.write with
        | none =>
          have hstream : (if response.revision ≤ w.lastHistoricalRevision then w.stream
              else w.stream ++ [response]).filterMap write = w.streamed := by
            split_ifs <;> simp [streamed,hwrite]
          have hqueued : w.queued = queue.filterMap write := by simp [Watcher.queued,hqueue,hwrite]
          have hsent : PhaseOk w log revision (queue.filterMap write ++ rest) .sent := hqueued ▸ h
          exact hsent.congr ⟨rfl,rfl,rfl⟩ rfl hstream rfl
        | some x =>
          have hrevision : response.revision = x.revision := by
            obtain ⟨e,-,rfl⟩ := map_eq_some_iff.mp hwrite
            rfl
          have hqueued : w.queued = x :: queue.filterMap write := by
            simp [Watcher.queued,hqueue,hwrite]
          rw [hqueued,cons_append] at hdelivers
          have hstream : (if response.revision ≤ w.lastHistoricalRevision then w.stream
              else w.stream ++ [response]).filterMap write =
              if x.revision ≤ w.lastHistoricalRevision then w.streamed else w.streamed ++ [x] := by
            rw [hrevision]
            split_ifs <;> simp [streamed,hwrite]
          have htaken := hdelivers.take
          rw [← hstream] at htaken
          exact htaken.congr ⟨rfl,rfl,rfl⟩

namespace WatchInv

variable {s s' : MetaStore} {n n' : WatchNote} {others : List WatchNote} (h : WatchInv s (n :: others))

include h

theorem step (htracks : Tracks s'.kv s'.log) (hlog : s'.log = s.log)
    (hrevision : s'.kv.revision = s.kv.revision) (hnext : s'.watch.nextWatchId = s.watch.nextWatchId)
    (hpending : n'.pending = n.pending) (hsending : n'.sending = n.sending)
    (hregistering : ∀ r', n'.registering = some r' → ∃ r, n.registering = some r ∧ r.watchId = r'.watchId ∧ r.req = r'.req)
    (hwatchers : ∀ w' ∈ s'.watch.watchers, ∃ w ∈ s.watch.watchers, w'.watchId = w.watchId ∧ w.SameRange w' ∧
      (0 < w.startRevision → ∀ rest phase, PhaseOf (n' :: others) w.watchId phase →
        (∀ before, PhaseOf (n :: others) w.watchId before → PhaseOk w s.log s.kv.revision (w.queued ++ rest) before) →
        PhaseOk w' s.log s.kv.revision (w'.queued ++ rest) phase)) :
    WatchInv s' (n' :: others) := by
  obtain ⟨pending,sending,hway,hpendings,hsendings,hok⟩ := h.underWay
  refine ⟨htracks,⟨pending,sending,hway.replace hpending hsending,?_,?_,?_⟩,?_,?_,?_⟩
  · rw [hlog]
    exact hpendings
  · rw [hlog,hnext]
    exact hsendings
  · intro w' hw' hstart phase hphase
    obtain ⟨w,hw,hid,hrange,hmove⟩ := hwatchers w' hw'
    rw [hrange.startRevision] at hstart
    rw [hid] at hphase
    have hmatches : (pending.filter fun x => keyMatchesWatcher x.key w') =
        pending.filter fun x => keyMatchesWatcher x.key w :=
      filter_congr fun x _ => hrange.keyMatchesWatcher x.key
    rw [hlog,hrevision,underWay_eq,hid,hmatches]
    apply hmove hstart _ phase hphase
    intro before hbefore
    rw [← underWay_eq]
    exact hok w hw hstart before hbefore
  · intro w' hw'
    obtain ⟨w,hw,hid,-⟩ := hwatchers w' hw'
    rw [hid,hnext]
    exact h.ids w hw
  · intro m hm r' hr'
    rw [hnext]
    have hbefore : r'.watchId < s.watch.nextWatchId ∧ r'.req.RangeOk ∧ ∀ w ∈ s.watch.watchers, w.watchId = r'.watchId →
        w.key = r'.req.key ∧ w.rangeEnd = r'.req.rangeEnd ∧ w.startRevision = r'.req.startRevision := by
      rcases mem_cons.mp hm with rfl | hm
      · obtain ⟨r,hr,hid,hreq⟩ := hregistering r' hr'
        rw [← hid,← hreq]
        exact h.registering n mem_cons_self r hr
      · exact h.registering m (mem_cons_of_mem _ hm) r' hr'
    refine ⟨hbefore.1,hbefore.2.1,?_⟩
    intro w' hw' hid'
    obtain ⟨w,hw,hid,hrange,-⟩ := hwatchers w' hw'
    rw [hrange.key,hrange.rangeEnd,hrange.startRevision]
    exact hbefore.2.2 w hw (hid.symm.trans hid')
  · obtain ⟨hfirst,hrest⟩ := pairwise_cons.mp h.apart
    refine pairwise_cons.mpr ⟨?_,hrest⟩
    intro m hm r' r₂ hr' hr₂
    obtain ⟨r,hr,hid,-⟩ := hregistering r' hr'
    rw [← hid]
    exact hfirst m hm r r₂ hr hr₂

theorem quiet (htracks : Tracks s'.kv s'.log) (hlog : s'.log = s.log)
    (hrevision : s'.kv.revision = s.kv.revision) (hwatch : s'.watch = s.watch) : WatchInv s' (n :: others) := by
  refine h.step htracks hlog hrevision (by rw [hwatch]) rfl rfl (fun r hr => ⟨r,hr,rfl,rfl⟩) ?_
  rw [hwatch]
  intro w hw
  exact ⟨w,hw,rfl,.refl w,fun _ rest phase hphase hok => hok phase hphase⟩

theorem modifyOne (n' : WatchNote) (watchId : Int) (f : Watcher → Watcher)
    (hf : ∀ w, (f w).watchId = w.watchId) (hrange : ∀ w : Watcher, w.SameRange (f w))
    (hpending : n'.pending = n.pending) (hsending : n'.sending = n.sending)
    (hregistering : ∀ r', n'.registering = some r' → ∃ r, n.registering = some r ∧ r.watchId = r'.watchId ∧ r.req = r'.req)
    (hother : ∀ r, r.watchId ≠ watchId → (n'.registering = some r ↔ n.registering = some r))
    (hone : ∀ w ∈ s.watch.watchers, w.watchId = watchId → 0 < w.startRevision →
      ∀ rest phase, PhaseOf (n' :: others) watchId phase →
        (∀ before, PhaseOf (n :: others) watchId before → PhaseOk w s.log s.kv.revision (w.queued ++ rest) before) →
        PhaseOk (f w) s.log s.kv.revision ((f w).queued ++ rest) phase) :
    WatchInv { s with watch := s.watch.modify watchId f hf } (n' :: others) := by
  refine h.step h.tracks rfl rfl rfl hpending hsending hregistering ?_
  intro w' hw'
  obtain ⟨w,hw,rfl⟩ := mem_map.mp hw'
  by_cases hid : w.watchId = watchId
  · refine ⟨w,hw,?_,?_,?_⟩
    · rw [if_pos hid,hf]
    · rw [if_pos hid]
      exact hrange w
    · intro hstart rest phase hphase hok
      rw [if_pos hid]
      rw [hid] at hphase hok
      exact hone w hw hid hstart rest phase hphase hok
  · refine ⟨w,hw,?_,?_,?_⟩
    · rw [if_neg hid]
    · rw [if_neg hid]
      exact .refl w
    · intro _ rest phase hphase hok
      rw [if_neg hid]
      apply hok phase
      refine hphase.replace fun r hr => hother r ?_
      rw [hr]
      exact hid

theorem writeStream (watchId : Int) {responses : List WatchResponse} (hnone : ∀ r ∈ responses, r.event = none) :
    WatchInv { s with watch := s.watch.writeStream watchId responses } (n :: others) := by
  have hwrites : responses.filterMap write = [] := by
    rw [filterMap_eq_nil_iff]
    intro r hr
    rw [write,hnone r hr]
    rfl
  refine h.modifyOne n watchId (fun w => { w with stream := w.stream ++ responses }) (fun _ => rfl) (fun w => ⟨rfl,rfl,rfl⟩) rfl rfl (fun r hr => ⟨r,hr,rfl,rfl⟩)
    (fun _ _ => Iff.rfl) ?_
  intro w _ _ _ rest phase hphase hok
  refine (hok phase hphase).congr ⟨rfl,rfl,rfl⟩ rfl ?_ rfl
  simp [streamed,hwrites]

theorem processWatcherQueue (watchId : Int) :
    WatchInv { s with watch := s.watch.processWatcherQueue watchId } (n :: others) := by
  have hrange : ∀ w : Watcher, w.SameRange w.takeResponse := by
    intro w
    unfold takeResponse
    split
    · exact .refl w
    · split
      · exact .refl w
      · split <;> exact ⟨rfl,rfl,rfl⟩
  refine h.modifyOne n watchId takeResponse watchId_takeResponse hrange rfl rfl (fun r hr => ⟨r,hr,rfl,rfl⟩)
    (fun _ _ => Iff.rfl) ?_
  intro w _ _ _ rest phase hphase hok
  exact (hok phase hphase).take

theorem addWatcher {req : WatchCreateRequest} (hreq : req.RangeOk) (hnone : n.registering = none) :
    WatchInv { s with watch := (s.watch.addWatcher req).2 }
      ({ n with registering := some ⟨s.watch.nextWatchId,req,.added⟩ } :: others) := by
  obtain ⟨pending,sending,hway,hpendings,hsendings,hok⟩ := h.underWay
  have hapart : ({ n with registering := some ⟨s.watch.nextWatchId,req,.added⟩ } :: others).Pairwise
      fun m n => ∀ r r', m.registering = some r → n.registering = some r' → r.watchId ≠ r'.watchId := by
    refine pairwise_cons.mpr ⟨?_,(pairwise_cons.mp h.apart).2⟩
    intro m hm r r' hr hr'
    cases hr
    exact (h.registering m (mem_cons_of_mem _ hm) r' hr').1.ne'
  have hwatcher : ∀ w ∈ (s.watch.addWatcher req).2.watchers,
      w = ⟨s.watch.nextWatchId,req.key,req.rangeEnd,req.startRevision,req.prevKv,true,0,[],false,[]⟩ ∨
        w ∈ s.watch.watchers := fun w hw => Keyed.mem_upsert hw
  refine ⟨h.tracks,⟨pending,sending,hway.replace rfl rfl,hpendings,?_,?_⟩,?_,?_,hapart⟩
  · intro p hp
    exact ⟨(hsendings p hp).1,(hsendings p hp).2.trans (Int.lt_succ _)⟩
  · intro w hw hstart phase hphase
    rcases hwatcher w hw with rfl | hw
    · obtain rfl := PhaseOf.eq_of_registering hapart rfl hphase
      have hnobody : (sending.filter fun p => p.1 = s.watch.nextWatchId) = [] := by
        rw [filter_eq_nil_iff]
        intro p hp
        simpa using (hsendings p hp).2.ne
      refine ⟨rfl,rfl,?_⟩
      intro x hx
      simp only [Watcher.underWay,hnobody,Watcher.queued,filterMap_nil,map_nil,nil_append,mem_filter] at hx
      exact ⟨hpendings x hx.1,hx.2⟩
    · apply hok w hw hstart phase
      refine hphase.replace fun r hr => ?_
      have hne : s.watch.nextWatchId ≠ w.watchId := (h.ids w hw).ne'
      rw [hnone]
      constructor
      · intro heq
        exact absurd ((congrArg Registration.watchId (some.inj heq)).trans hr) hne
      · intro heq
        cases heq
  · intro w hw
    rcases hwatcher w hw with rfl | hw
    · exact Int.lt_succ _
    · exact (h.ids w hw).trans (Int.lt_succ _)
  · intro m hm r hr
    rcases mem_cons.mp hm with rfl | hm
    · cases hr
      refine ⟨Int.lt_succ _,hreq,?_⟩
      intro w hw hid
      rcases hwatcher w hw with rfl | hw
      · exact ⟨rfl,rfl,rfl⟩
      · exact absurd hid (h.ids w hw).ne
    · obtain ⟨hlt,hrange,hsame⟩ := h.registering m (mem_cons_of_mem _ hm) r hr
      refine ⟨hlt.trans (Int.lt_succ _),hrange,?_⟩
      intro w hw hid
      rcases hwatcher w hw with rfl | hw
      · exact absurd hid hlt.ne'
      · exact hsame w hw hid

omit h

section Registering

variable {watchId : Int} {req : WatchCreateRequest}

/-- The phases of the watchers when the first call comes to the next phase of a registration. -/
theorem apart_phase (h : WatchInv s (n :: others)) {phase phase' : RegistrationPhase}
    (hn : n.registering = some ⟨watchId,req,phase⟩) :
    ({ n with registering := some ⟨watchId,req,phase'⟩ } :: others).Pairwise
      fun m n => ∀ r r', m.registering = some r → n.registering = some r' → r.watchId ≠ r'.watchId := by
  obtain ⟨hfirst,hrest⟩ := pairwise_cons.mp h.apart
  refine pairwise_cons.mpr ⟨?_,hrest⟩
  intro m hm r r' hr hr'
  cases hr
  exact hfirst m hm ⟨watchId,req,phase⟩ r' hn hr'

theorem phaseOf_self {phase : RegistrationPhase} (hn : n.registering = some ⟨watchId,req,phase⟩) :
    PhaseOf (n :: others) watchId phase :=
  Or.inl ⟨n,mem_cons_self,_,hn,rfl,rfl⟩

theorem rangeHistory (h : WatchInv s (n :: others)) (hn : n.registering = some ⟨watchId,req,.added⟩)
    (hhistory : HistoryOk s.log req.key req.rangeEnd req.startRevision) {events : List HistoricalEntry}
    (hevents : s.kv.rangeHistory req.key req.rangeEnd req.startRevision = some events) :
    WatchInv s ({ n with registering := some ⟨watchId,req,.read events⟩ } :: others) := by
  obtain ⟨-,hrange,hsame⟩ := h.registering n mem_cons_self _ hn
  refine h.step h.tracks rfl rfl rfl rfl rfl ?_ ?_
  · intro r' hr'
    obtain rfl := some.inj hr'
    exact ⟨_,hn,rfl,rfl⟩
  · intro w hw
    refine ⟨w,hw,rfl,.refl w,?_⟩
    intro _ rest phase hphase hok
    by_cases hid : w.watchId = watchId
    · obtain ⟨hkey,hrangeEnd,hstart⟩ := hsame w hw hid
      subst hid
      obtain rfl := PhaseOf.eq_of_registering (h.apart_phase hn) rfl hphase
      exact PhaseOk.read h.tracks hrange hkey hrangeEnd hstart hhistory hevents (hok .added (phaseOf_self hn))
    · apply hok phase
      refine hphase.replace fun r hr => ?_
      rw [hn]
      constructor
      · intro heq
        exact absurd (hr.symm.trans (congrArg Registration.watchId (some.inj heq)).symm) hid
      · intro heq
        exact absurd (hr.symm.trans (congrArg Registration.watchId (some.inj heq)).symm) hid

theorem sendHistory (h : WatchInv s (n :: others)) {events : List HistoricalEntry}
    (hn : n.registering = some ⟨watchId,req,.read events⟩) :
    WatchInv { s with watch := s.watch.sendHistory watchId events }
      ({ n with registering := some ⟨watchId,req,.sent⟩ } :: others) := by
  refine h.modifyOne { n with registering := some ⟨watchId,req,.sent⟩ } watchId (fun w => { w with
    stream := w.stream ++ events.map (WatchManager.historicalResponse watchId)
    lastHistoricalRevision := lastRevision w.startRevision events }) (fun _ => rfl) (fun w => ⟨rfl,rfl,rfl⟩) rfl rfl ?_ ?_ ?_
  · intro r' hr'
    obtain rfl := some.inj hr'
    exact ⟨_,hn,rfl,rfl⟩
  · intro r hr
    rw [hn]
    constructor
    · intro heq
      exact absurd (congrArg Registration.watchId (some.inj heq)).symm hr
    · intro heq
      exact absurd (congrArg Registration.watchId (some.inj heq)).symm hr
  · intro w _ _ _ rest phase hphase hok
    obtain rfl := PhaseOf.eq_of_registering (r := ⟨watchId,req,.sent⟩) (h.apart_phase hn) rfl hphase
    obtain ⟨-,hstreamed,hdelivers⟩ := hok (.read events) (phaseOf_self hn)
    have hsent := w.streamed_sendHistory watchId events
    rw [hstreamed,nil_append] at hsent
    rw [← hsent] at hdelivers
    exact hdelivers.congr ⟨rfl,rfl,rfl⟩

theorem startWatcher (h : WatchInv s (n :: others)) {phase : RegistrationPhase}
    (hn : n.registering = some ⟨watchId,req,phase⟩) (hphase : 0 < req.startRevision → phase = .sent) :
    WatchInv { s with watch := s.watch.startWatcher watchId } ({ n with registering := none } :: others) := by
  obtain ⟨-,-,hsame⟩ := h.registering n mem_cons_self _ hn
  refine h.modifyOne { n with registering := none } watchId
    (fun w => { w with inThreadPool := true, initializing := false }) (fun _ => rfl) (fun w => ⟨rfl,rfl,rfl⟩) rfl rfl ?_ ?_ ?_
  · intro r' hr'
    cases hr'
  · intro r hr
    rw [hn]
    constructor
    · intro heq
      cases heq
    · intro heq
      exact absurd (congrArg Registration.watchId (some.inj heq)).symm hr
  · intro w hw hid hstart rest phase' hphase' hok
    rw [(hsame w hw hid).2.2] at hstart
    obtain rfl := hphase hstart
    have hsent : phase' = .sent := by
      rcases hphase' with ⟨m,hm,r,hr,hrid,-⟩ | ⟨-,hsent⟩
      · rcases mem_cons.mp hm with rfl | hm
        · cases hr
        · exact absurd hrid.symm ((pairwise_cons.mp h.apart).1 m hm _ r hn hr)
      · exact hsent
    subst hsent
    have hdelivers : Delivers w s.log s.kv.revision (w.queued ++ rest) w.streamed w.lastHistoricalRevision :=
      hok .sent (phaseOf_self hn)
    exact hdelivers.congr ⟨rfl,rfl,rfl⟩

end Registering

theorem commit (h : WatchInv s (n :: others)) (htracks : Tracks s'.kv s'.log) {writes : List Write}
    (hlog : s'.log = writes.reverse ++ s.log)
    (hcommit : IsCommit s.log s.kv.revision writes s'.kv.revision) (hwatch : s'.watch = s.watch)
    (hothers : ∀ m ∈ others, ¬ m.Busy) (hn : ¬ n.Busy) :
    WatchInv s' ({ n with pending := n.pending ++ writes } :: others) := by
  obtain ⟨pending,sending,hway,-,-,hok⟩ := h.underWay
  obtain ⟨rfl,rfl⟩ := hway.of_idle hn hothers
  rw [WatchNote.Busy,not_or,not_not,not_not] at hn
  have hself := UnderWay.self (n := { n with pending := n.pending ++ writes }) hothers
  simp only [hn.1,hn.2,nil_append] at hself ⊢
  refine ⟨htracks,⟨writes,[],hself,?_,by simp,?_⟩,?_,?_,?_⟩
  · intro x hx
    rw [hlog]
    exact mem_append_left _ (mem_reverse.mpr hx)
  · rw [hwatch]
    intro w hw hstart phase hphase
    have hbefore := hok w hw hstart phase (hphase.replace fun r _ => Iff.rfl)
    rw [hlog]
    have hafter := hbefore.commit hcommit
    simp only [Watcher.underWay,filter_nil,map_nil,append_nil] at hafter ⊢
    exact hafter
  · rw [hwatch]
    exact h.ids
  · rw [hwatch]
    exact forall_mem_cons.mpr (forall_mem_cons.mp h.registering)
  · exact pairwise_cons.mpr (pairwise_cons.mp h.apart)

theorem collectWatchers (h : WatchInv s (n :: others)) {x : Write} {rest : List Write} (hn : n.pending = x :: rest)
    (hnone : n.sending = []) :
    WatchInv s ({ n with
      pending := rest
      sending := (s.watch.collectWatchers x.key).map fun w => (w.watchId, x) } :: others) := by
  obtain ⟨pending,sending,hway,hpendings,-,hok⟩ := h.underWay
  obtain ⟨rfl,rfl,hothers⟩ := hway.of_busy (Or.inl (by simp [hn]))
  rw [hn] at hpendings hok
  rw [hnone] at hok
  refine ⟨h.tracks,⟨rest,_,.self hothers,?_,?_,?_⟩,h.ids,?_,?_⟩
  · intro y hy
    exact hpendings y (mem_cons_of_mem _ hy)
  · intro p hp
    obtain ⟨w,hw,rfl⟩ := mem_map.mp hp
    exact ⟨hpendings x mem_cons_self,h.ids w (mem_of_mem_filter hw)⟩
  · intro w hw hstart phase hphase
    have hbefore := hok w hw hstart phase (hphase.replace fun r _ => Iff.rfl)
    have hsame : w.underWay rest ((s.watch.collectWatchers x.key).map fun w => (w.watchId, x)) =
        w.underWay (x :: rest) [] := by
      rw [Watcher.underWay,WatchManager.collectWatchers,
        sending_collectWatchers s.watch.watchers_sorted hw x fun w => keyMatchesWatcher x.key w,Watcher.underWay]
      by_cases hmatch : keyMatchesWatcher x.key w = true
      · simp [hmatch]
      · simp [hmatch]
    rw [hsame]
    exact hbefore
  · exact forall_mem_cons.mpr (forall_mem_cons.mp h.registering)
  · exact pairwise_cons.mpr (pairwise_cons.mp h.apart)

theorem sendWatchResponse (h : WatchInv s (n :: others)) {response : WatchResponse} {x : Write}
    {rest : List (Int × Write)} (hn : n.sending = (response.watchId, x) :: rest) (hwrite : response.write = some x) :
    WatchInv { s with watch := s.watch.sendWatchResponse response } ({ n with sending := rest } :: others) := by
  obtain ⟨pending,sending,hway,hpendings,hsendings,hok⟩ := h.underWay
  obtain ⟨rfl,rfl,hothers⟩ := hway.of_busy (Or.inr (by simp [hn]))
  rw [hn] at hsendings hok
  -- A watcher of the new table asks for the same and has the same under way as before.
  have hwatcher : ∀ w' ∈ (s.watch.sendWatchResponse response).watchers, ∃ w ∈ s.watch.watchers,
      w'.watchId = w.watchId ∧ w.SameRange w' ∧ w'.initializing = w.initializing ∧ w'.streamed = w.streamed ∧
        w'.lastHistoricalRevision = w.lastHistoricalRevision ∧
          w'.underWay n.pending rest = w.underWay n.pending ((response.watchId, x) :: rest) := by
    intro w' hw'
    obtain ⟨w,hw,rfl⟩ := mem_map.mp hw'
    refine ⟨w,hw,?_⟩
    by_cases hid : w.watchId = response.watchId
    · rw [if_pos hid]
      refine ⟨rfl,⟨rfl,rfl,rfl⟩,rfl,rfl,rfl,?_⟩
      simp [Watcher.underWay,Watcher.queued,keyMatchesWatcher,hid,hwrite]
    · rw [if_neg hid]
      refine ⟨rfl,.refl w,rfl,rfl,rfl,?_⟩
      simp [Watcher.underWay,Ne.symm hid]
  refine ⟨h.tracks,⟨_,_,.self hothers,hpendings,?_,?_⟩,?_,?_,?_⟩
  · intro p hp
    exact hsendings p (mem_cons_of_mem _ hp)
  · intro w' hw' hstart phase hphase
    obtain ⟨w,hw,hid,hrange,hinitializing,hstreamed,hlast,hunder⟩ := hwatcher w' hw'
    rw [hrange.startRevision] at hstart
    rw [hid] at hphase
    have hbefore := hok w hw hstart phase (hphase.replace fun r _ => Iff.rfl)
    rw [← hunder] at hbefore
    exact hbefore.congr hrange hinitializing hstreamed hlast
  · intro w' hw'
    obtain ⟨w,hw,hid,-⟩ := hwatcher w' hw'
    rw [hid]
    exact h.ids w hw
  · intro m hm r hr
    have hbefore : r.watchId < s.watch.nextWatchId ∧ r.req.RangeOk ∧ ∀ w ∈ s.watch.watchers, w.watchId = r.watchId →
        w.key = r.req.key ∧ w.rangeEnd = r.req.rangeEnd ∧ w.startRevision = r.req.startRevision := by
      rcases mem_cons.mp hm with rfl | hm
      · exact h.registering n mem_cons_self r hr
      · exact h.registering m (mem_cons_of_mem _ hm) r hr
    refine ⟨hbefore.1,hbefore.2.1,?_⟩
    intro w' hw' hid'
    obtain ⟨w,hw,hid,hrange,-⟩ := hwatcher w' hw'
    rw [hrange.key,hrange.rangeEnd,hrange.startRevision]
    exact hbefore.2.2 w hw (hid.symm.trans hid')
  · exact pairwise_cons.mpr (pairwise_cons.mp h.apart)

end WatchInv

/-- What a call has to have noted when it comes to a section. -/
def MetaOp.Serves (n : WatchNote) : MetaOp → Prop
  | .updatePutData _ _ _ _ => ¬ n.Busy
  | .deleteData _ _ => ¬ n.Busy
  | .txnData _ => ¬ n.Busy
  | .collectWatchers key => ∃ x rest, n.pending = x :: rest ∧ n.sending = [] ∧ x.key = key
  | .sendWatchResponse response => ∃ x rest, n.sending = (response.watchId, x) :: rest ∧ response.write = some x
  | .addWatcher _ => n.registering = none
  | .writeStream _ responses => ∀ r ∈ responses, r.event = none
  | .rangeHistory start rangeEnd startRevision => ∃ watchId prevKv,
      n.registering = some ⟨watchId,⟨start,rangeEnd,startRevision,prevKv⟩,.added⟩
  | .sendHistory watchId events => ∃ req, n.registering = some ⟨watchId,req,.read events⟩
  | .startWatcher watchId => ∃ req phase,
      n.registering = some ⟨watchId,req,phase⟩ ∧ (0 < req.startRevision → phase = .sent)
  | _ => True

theorem WatchInv.exec {s s' : MetaStore} {n : WatchNote} {others : List WatchNote} (h : WatchInv s (n :: others))
    {o : MetaOp} (hguard : watchGuard o s others) (hserves : o.Serves n) {r : o.Res}
    (hexec : MetaStore.exec o s = some (r, s')) :
    WatchInv s' (watchNote o r n :: others) ∧ ∀ m ∈ others, WatchRely m s s' := by
  have hquiet : s'.kv.revision = s.kv.revision → ∀ m ∈ others, WatchRely m s s' := fun hsame _ _ _ => hsame
  cases o with
  | updatePutData key value lease uninitialized =>
    obtain ⟨-,rfl,rfl⟩ := MetaStore.eq_of_unlocked hexec
    have hrevision : (s.kv.updatePutData key value lease uninitialized).2.revision = s.kv.revision + 1 := by
      simp [KvManager.updatePutData]
    refine ⟨h.commit (h.tracks.updatePutData key value lease uninitialized) rfl ?_ rfl hguard hserves,
      fun m hm hbusy => absurd hbusy (hguard m hm)⟩
    refine .next h.tracks.bound hrevision ?_
    intro x hx
    rw [mem_singleton.mp hx]
    rfl
  | deleteData key rangeEnd =>
    obtain ⟨-,rfl,rfl⟩ := MetaStore.eq_of_unlocked hexec
    have hrevision : (s.kv.deleteData key rangeEnd).2.revision = s.kv.revision + 1 := by
      simp [KvManager.deleteData]
    have hwrites : ((s.kv.deleteData key rangeEnd).1.map fun kv : KeyValue =>
        (⟨kv.modRevision,.delete,kv.key,kv.value,kv.lease⟩ : Write)) =
        (s.kv.deleteData key rangeEnd).1.map fun kv : KeyValue =>
          ⟨s.kv.revision + 1,.delete,kv.key,kv.value,kv.lease⟩ := by
      simp [KvManager.deleteData]
    refine ⟨?_,fun m hm hbusy => absurd hbusy (hguard m hm)⟩
    simp only [watchNote,hwrites]
    refine h.commit (h.tracks.deleteData key rangeEnd) rfl ?_ rfl hguard hserves
    refine .next h.tracks.bound hrevision ?_
    intro x hx
    obtain ⟨kv,-,rfl⟩ := mem_map.mp hx
    rfl
  | txnData req =>
    obtain ⟨⟨outcome,kv⟩,htxn,heq⟩ := map_eq_some_iff.mp hexec
    cases heq
    obtain ⟨htracks,hresponse⟩ := h.tracks.txnData htxn
    refine ⟨h.commit htracks rfl ?_ rfl hguard hserves,fun m hm hbusy => absurd hbusy (hguard m hm)⟩
    have hrevision := MetaStore.exec_revision (o := MetaOp.txnData req) hexec
    refine ⟨h.tracks.bound,?_,?_,?_⟩
    · intro x hx
      obtain ⟨e,-,rfl⟩ := mem_map.mp hx
      exact hresponse
    · rcases hrevision with ⟨-,hle⟩ | hlt
      · exact hle
      · exact hlt.le
    · intro hne
      rcases hrevision with ⟨hsame,-⟩ | hlt
      · exact absurd (reverse_eq_nil_iff.mp (append_left_eq_self.mp hsame)) hne
      · exact hlt
  | restore key prevKv => exact hguard.elim
  | unlock =>
    cases hexec
    exact ⟨h.quiet (h.tracks.setLocked false) rfl rfl rfl,hquiet rfl⟩
  | collectWatchers key =>
    cases hexec
    obtain ⟨x,rest,hpending,hsending,rfl⟩ := hserves
    refine ⟨?_,hquiet rfl⟩
    have hnote : watchNote (.collectWatchers x.key) (s.watch.collectWatchers x.key) n = { n with
        pending := rest
        sending := (s.watch.collectWatchers x.key).map fun w => (w.watchId, x) } := by
      simp only [watchNote,hpending,hsending,nil_append]
    rw [hnote]
    exact h.collectWatchers hpending hsending
  | sendWatchResponse response =>
    cases hexec
    obtain ⟨x,rest,hsending,hwrite⟩ := hserves
    refine ⟨?_,hquiet rfl⟩
    simp only [watchNote,hsending,tail_cons]
    exact h.sendWatchResponse hsending hwrite
  | addWatcher req =>
    cases hexec
    exact ⟨h.addWatcher hguard hserves,hquiet rfl⟩
  | writeStream watchId responses =>
    cases hexec
    exact ⟨h.writeStream watchId hserves,hquiet rfl⟩
  | rangeHistory start rangeEnd startRevision =>
    obtain ⟨events,hevents,heq⟩ := map_eq_some_iff.mp hexec
    cases heq
    obtain ⟨watchId,prevKv,hregistering⟩ := hserves
    refine ⟨?_,hquiet rfl⟩
    simp only [watchNote,hregistering,map_some]
    exact h.rangeHistory hregistering hguard hevents
  | sendHistory watchId events =>
    cases hexec
    obtain ⟨req,hregistering⟩ := hserves
    refine ⟨?_,hquiet rfl⟩
    simp only [watchNote,hregistering,map_some]
    exact h.sendHistory hregistering
  | startWatcher watchId =>
    cases hexec
    obtain ⟨req,phase,hregistering,hphase⟩ := hserves
    exact ⟨h.startWatcher hregistering hphase,hquiet rfl⟩
  | processWatcherQueue watchId =>
    cases hexec
    exact ⟨h.processWatcherQueue watchId,hquiet rfl⟩
  | _ =>
    cases hexec
    exact ⟨h.quiet h.tracks rfl rfl rfl,hquiet rfl⟩

end Datasystem.Metastore
