import Datasystem.Metastore.MetastoreCalls
import Datasystem.Metastore.WriteHistory

/-!
# What a watcher is sent

A watcher is to get the writes of its range from a revision on, each once and in the order of their revisions.
-/

namespace Datasystem.Metastore

open List

/-- The write that a response shows; the first response on a stream shows none. -/
def WatchResponse.write (r : WatchResponse) : Option Write :=
  r.event.map fun e => ⟨r.revision,e.type,e.key,e.newKv.value,e.newKv.lease⟩

namespace Watcher

def streamed (w : Watcher) : List Write := w.stream.filterMap WatchResponse.write

def queued (w : Watcher) : List Write := w.writeQueue.filterMap WatchResponse.write

def expected (w : Watcher) (log : List Write) : List Write :=
  log.reverse.filter fun x => keyMatchesWatcher x.key w && decide (w.startRevision ≤ x.revision)

theorem mem_expected {w : Watcher} {log : List Write} {x : Write} :
    x ∈ w.expected log ↔ x ∈ log ∧ keyMatchesWatcher x.key w = true ∧ w.startRevision ≤ x.revision := by
  simp [expected]

/-- A watcher that asks for the same writes. -/
structure SameRange (w w' : Watcher) : Prop where
  key : w'.key = w.key
  rangeEnd : w'.rangeEnd = w.rangeEnd
  startRevision : w'.startRevision = w.startRevision

theorem SameRange.keyMatchesWatcher {w w' : Watcher} (h : SameRange w w') (key : Bytes) :
    keyMatchesWatcher key w' = keyMatchesWatcher key w := by
  simp only [Metastore.keyMatchesWatcher,h.key,h.rangeEnd]

theorem SameRange.expected {w w' : Watcher} (h : SameRange w w') (log : List Write) :
    w'.expected log = w.expected log := by
  simp only [Watcher.expected,h.keyMatchesWatcher,h.startRevision]

end Watcher

def lastRevision (startRevision : Int) (events : List HistoricalEntry) : Int :=
  events.foldl (fun r entry => max r entry.revision) (startRevision - 1)

theorem lastRevision_spec (startRevision : Int) (events : List HistoricalEntry) :
    startRevision - 1 ≤ lastRevision startRevision events ∧
      (∀ e ∈ events, e.revision ≤ lastRevision startRevision events) ∧
        (lastRevision startRevision events = startRevision - 1 ∨
          ∃ e ∈ events, lastRevision startRevision events = e.revision) := by
  unfold lastRevision
  induction events using List.reverseRecOn with
  | nil => simp
  | append_singleton events e ih =>
    obtain ⟨hlower,hall,hsome⟩ := ih
    rw [foldl_append,foldl_cons,foldl_nil]
    refine ⟨le_max_of_le_left hlower,?_,?_⟩
    · intro e' he'
      rcases mem_append.mp he' with he' | he'
      · exact le_max_of_le_left (hall e' he')
      · obtain rfl := mem_singleton.mp he'
        exact le_max_right _ _
    · rcases max_choice (events.foldl (fun r entry => max r entry.revision) (startRevision - 1)) e.revision with h | h
      · rw [h]
        rcases hsome with hsome | ⟨e',he',hsome⟩
        · exact Or.inl hsome
        · exact Or.inr ⟨e',mem_append_left _ he',hsome⟩
      · rw [h]
        exact Or.inr ⟨e,mem_append_right _ (mem_singleton.mpr rfl),rfl⟩

/-- What the stream has, together with what is under way and not yet known from the history, is what it is
to carry. -/
structure Delivers (w : Watcher) (log : List Write) (revision : Int) (underWay base : List Write) (last : Int) :
    Prop where
  sorted : (base ++ underWay.filter fun x => last < x.revision).Pairwise fun a b => a.revision ≤ b.revision
  perm : (base ++ underWay.filter fun x => last < x.revision).Perm (w.expected log)
  lower : w.startRevision - 1 ≤ last
  upper : last ≤ max (w.startRevision - 1) revision

/-- Writes at one revision that is greater than those before. -/
structure IsCommit (log : List Write) (revision : Int) (writes : List Write) (revision' : Int) : Prop where
  before : ∀ x ∈ log, x.revision ≤ revision
  at_revision : ∀ x ∈ writes, x.revision = revision'
  le : revision ≤ revision'
  lt : writes ≠ [] → revision < revision'

theorem IsCommit.next {log writes : List Write} {revision revision' : Int} (hbefore : ∀ x ∈ log, x.revision ≤ revision)
    (hnext : revision' = revision + 1) (hwrites : ∀ x ∈ writes, x.revision = revision + 1) :
    IsCommit log revision writes revision' := by
  subst hnext
  exact ⟨hbefore,hwrites,by omega,fun _ => by omega⟩

theorem Delivers.commit {w : Watcher} {log writes underWay base : List Write} {revision revision' last : Int}
    (h : Delivers w log revision underWay base last) (hcommit : IsCommit log revision writes revision') :
    Delivers w (writes.reverse ++ log) revision'
      (underWay ++ writes.filter fun x => keyMatchesWatcher x.key w) base last := by
  have hexpected : w.expected (writes.reverse ++ log) = w.expected log ++
      (writes.filter fun x => keyMatchesWatcher x.key w).filter fun x => last < x.revision := by
    rw [Watcher.expected,reverse_append,reverse_reverse,filter_append,filter_filter]
    congr 1
    apply filter_congr
    intro x hx
    have hlt := hcommit.lt (ne_nil_of_mem hx)
    have hupper := h.upper
    have hlower := h.lower
    have hiff : w.startRevision ≤ x.revision ↔ last < x.revision := by
      rw [hcommit.at_revision x hx]
      rcases max_cases (w.startRevision - 1) revision with hmax | hmax <;> omega
    rw [decide_eq_decide.mpr hiff,Bool.and_comm]
  constructor
  · rw [filter_append,← append_assoc,pairwise_append]
    refine ⟨h.sorted,?_,?_⟩
    · refine pairwise_of_forall_mem_list ?_
      intro a ha b hb
      have hmem : ∀ c ∈ (writes.filter fun x => keyMatchesWatcher x.key w).filter fun x => last < x.revision,
          c.revision = revision' := fun c hc => hcommit.at_revision c (mem_of_mem_filter (mem_of_mem_filter hc))
      rw [hmem a ha,hmem b hb]
    · intro a ha b hb
      rw [hcommit.at_revision b (mem_of_mem_filter (mem_of_mem_filter hb))]
      have hmem := (Watcher.mem_expected.mp (h.perm.mem_iff.mp ha)).1
      exact (hcommit.before a hmem).trans hcommit.le
  · rw [filter_append,← append_assoc,hexpected]
    exact h.perm.append_right _
  · exact h.lower
  · exact h.upper.trans (max_le_max le_rfl hcommit.le)

theorem Delivers.take {w : Watcher} {log underWay base : List Write} {revision last : Int} {x : Write}
    (h : Delivers w log revision (x :: underWay) base last) :
    Delivers w log revision underWay (if x.revision ≤ last then base else base ++ [x]) last := by
  have hsame : (if x.revision ≤ last then base else base ++ [x]) ++ underWay.filter (fun x => last < x.revision) =
      base ++ (x :: underWay).filter fun x => last < x.revision := by
    by_cases hx : x.revision ≤ last
    · rw [if_pos hx,filter_cons_of_neg (by simpa using hx)]
    · rw [if_neg hx,filter_cons_of_pos (by simpa using hx),append_assoc]
      rfl
  exact ⟨hsame ▸ h.sorted,hsame ▸ h.perm,h.lower,h.upper⟩

theorem Delivers.congr {w w' : Watcher} {log underWay base : List Write} {revision last : Int}
    (h : Delivers w log revision underWay base last) (hw : Watcher.SameRange w w') :
    Delivers w' log revision underWay base last :=
  ⟨h.sorted,(hw.expected log).symm ▸ h.perm,hw.startRevision.symm ▸ h.lower,hw.startRevision.symm ▸ h.upper⟩

end Datasystem.Metastore
