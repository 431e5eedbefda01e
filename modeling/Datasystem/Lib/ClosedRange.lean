import Mathlib

/-!
# Lists of closed ranges

In a separated list some point lies between every two ranges; such a list is the only one for its set.
-/

structure ClosedRange (τ : Type*) where
  first : τ
  last : τ
deriving DecidableEq, Repr

namespace ClosedRange

open List

variable {τ : Type*} [LinearOrder τ]

def contains (r : ClosedRange τ) (t : τ) : Bool := r.first ≤ t && t ≤ r.last

variable {r : ClosedRange τ} {t : τ}

@[simp] theorem contains_iff : r.contains t = true ↔ r.first ≤ t ∧ t ≤ r.last := by
  simp [contains]

def Covers (l : List (ClosedRange τ)) (t : τ) : Prop := ∃ r ∈ l, r.contains t

theorem covers_nil (t : τ) : ¬ Covers [] t := by
  rintro ⟨_,hr,_⟩
  cases hr

theorem covers_append {l l' : List (ClosedRange τ)} : Covers (l ++ l') t ↔ Covers l t ∨ Covers l' t := by
  simp [Covers,or_and_right,exists_or]

theorem covers_singleton : Covers [r] t ↔ r.contains t := by
  simp [Covers]

/-- Nonempty ranges in ascending order. -/
structure Ascending (l : List (ClosedRange τ)) : Prop where
  nonempty : ∀ r ∈ l, r.first ≤ r.last
  lt : l.Pairwise fun a b => a.last < b.first

/-- Nonempty ranges in ascending order with a point between every two. -/
structure Separated (l : List (ClosedRange τ)) : Prop where
  nonempty : ∀ r ∈ l, r.first ≤ r.last
  gap : l.Pairwise fun a b => ∃ g, a.last < g ∧ g < b.first

variable {l : List (ClosedRange τ)}

theorem exists_covers (hne : l ≠ []) (hnonempty : ∀ r ∈ l, r.first ≤ r.last) : ∃ t, Covers l t := by
  obtain ⟨r,hr⟩ := exists_mem_of_ne_nil _ hne
  exact ⟨r.first,r,hr,contains_iff.mpr ⟨le_rfl,hnonempty r hr⟩⟩

theorem Separated.ascending (h : Separated l) : Ascending l := ⟨h.nonempty,h.gap.imp fun ⟨_,hag,hgb⟩ => hag.trans hgb⟩

theorem Ascending.filter (h : Ascending l) (p : ClosedRange τ → Bool) : Ascending (l.filter p) :=
  ⟨fun r hr => h.nonempty r (mem_filter.mp hr).1,h.lt.filter p⟩

theorem Ascending.countP_contains_le (h : Ascending l) (t : τ) : l.countP (fun r => r.contains t) ≤ 1 := by
  induction l with
  | nil => simp
  | cons a l ih =>
    obtain ⟨ha,hl⟩ := pairwise_cons.mp h.lt
    have htail := ih ⟨fun r hr => h.nonempty r (mem_cons_of_mem _ hr),hl⟩
    rw [countP_cons]
    split_ifs with hat
    · have hnone : l.countP (fun r => r.contains t) = 0 := by
        rw [countP_eq_zero]
        intro r hr hrt
        have hlt := ha r hr
        rw [contains_iff] at hat hrt
        exact absurd (hat.2.trans_lt hlt) (not_lt.mpr hrt.1)
      omega
    · omega

variable {a : ClosedRange τ} (h : Separated (a :: l))

include h

private theorem Separated.tail : Separated l :=
  ⟨fun r hr => h.nonempty r (mem_cons_of_mem _ hr),(pairwise_cons.mp h.gap).2⟩

private theorem Separated.first_le (ht : Covers (a :: l) t) : a.first ≤ t := by
  obtain ⟨r,hr,hrt⟩ := ht
  rw [contains_iff] at hrt
  rcases mem_cons.mp hr with rfl | hr
  · exact hrt.1
  · have hlt := (pairwise_cons.mp h.ascending.lt).1 r hr
    exact (h.nonempty a mem_cons_self).trans (hlt.le.trans hrt.1)

/-- Between the end of the first range and any later covered point lies an uncovered one. -/
private theorem Separated.gap_after (ht : Covers (a :: l) t) (hat : a.last < t) :
    ∃ g, a.last < g ∧ g < t ∧ ¬ Covers (a :: l) g := by
  cases l with
  | nil =>
    obtain ⟨r,hr,hrt⟩ := ht
    rw [mem_singleton.mp hr,contains_iff] at hrt
    exact absurd hat (not_lt.mpr hrt.2)
  | cons b l =>
    obtain ⟨g,hag,hgb⟩ := (pairwise_cons.mp h.gap).1 b mem_cons_self
    have hbt : b.first ≤ t := by
      refine h.tail.first_le ?_
      obtain ⟨r,hr,hrt⟩ := ht
      rcases mem_cons.mp hr with rfl | hr
      · rw [contains_iff] at hrt
        exact absurd hat (not_lt.mpr hrt.2)
      · exact ⟨r,hr,hrt⟩
    refine ⟨g,hag,hgb.trans_le hbt,?_⟩
    rintro ⟨r,hr,hrg⟩
    rw [contains_iff] at hrg
    rcases mem_cons.mp hr with rfl | hr
    · exact absurd hag (not_lt.mpr hrg.2)
    · have hbg : b.first ≤ g := h.tail.first_le ⟨r,hr,contains_iff.mpr hrg⟩
      exact absurd hgb (not_lt.mpr hbg)

private theorem covers_tail : Covers l t ↔ Covers (a :: l) t ∧ a.last < t := by
  constructor
  · rintro ⟨r,hr,hrt⟩
    have hlt := (pairwise_cons.mp h.ascending.lt).1 r hr
    exact ⟨⟨r,mem_cons_of_mem _ hr,hrt⟩,hlt.trans_le (contains_iff.mp hrt).1⟩
  · rintro ⟨⟨r,hr,hrt⟩,hat⟩
    rcases mem_cons.mp hr with rfl | hr
    · exact absurd hat (not_lt.mpr (contains_iff.mp hrt).2)
    · exact ⟨r,hr,hrt⟩

omit h

private theorem Separated.last_le {a b : ClosedRange τ} {l m : List (ClosedRange τ)}
    (ha : Separated (a :: l)) (hb : Separated (b :: m)) (hfirst : a.first = b.first)
    (h : ∀ t, Covers (b :: m) t → Covers (a :: l) t) : b.last ≤ a.last := by
  by_contra hlt
  rw [not_le] at hlt
  have hcov : Covers (b :: m) b.last := ⟨b,mem_cons_self,contains_iff.mpr ⟨hb.nonempty b mem_cons_self,le_rfl⟩⟩
  obtain ⟨g,hag,hgb,hnot⟩ := ha.gap_after (h _ hcov) hlt
  have hafirst := ha.nonempty a mem_cons_self
  refine hnot (h g ⟨b,mem_cons_self,contains_iff.mpr ⟨?_,hgb.le⟩⟩)
  rw [← hfirst]
  exact hafirst.trans hag.le

/-- A separated list is determined by the points it covers. -/
theorem Separated.ext {l m : List (ClosedRange τ)} (hl : Separated l) (hm : Separated m)
    (h : ∀ t, Covers l t ↔ Covers m t) : l = m := by
  induction l generalizing m with
  | nil =>
    cases m with
    | nil => rfl
    | cons b m =>
      have hb : Covers (b :: m) b.first := ⟨b,mem_cons_self,contains_iff.mpr ⟨le_rfl,hm.nonempty b mem_cons_self⟩⟩
      exact absurd ((h _).mpr hb) (covers_nil _)
  | cons a l ih =>
    have ha : Covers (a :: l) a.first := ⟨a,mem_cons_self,contains_iff.mpr ⟨le_rfl,hl.nonempty a mem_cons_self⟩⟩
    cases m with
    | nil => exact absurd ((h _).mp ha) (covers_nil _)
    | cons b m =>
      have hb : Covers (b :: m) b.first := ⟨b,mem_cons_self,contains_iff.mpr ⟨le_rfl,hm.nonempty b mem_cons_self⟩⟩
      have hfirst : a.first = b.first := le_antisymm (hl.first_le ((h _).mpr hb)) (hm.first_le ((h _).mp ha))
      have hlast : a.last = b.last := le_antisymm (hm.last_le hl hfirst.symm fun t => (h t).mp)
          (hl.last_le hm hfirst fun t => (h t).mpr)
      have htail : l = m := by
        refine ih hl.tail hm.tail fun t => ?_
        rw [covers_tail hl,covers_tail hm,h,hlast]
      cases a
      cases b
      simp_all

/-- Append a range, joining it with the last one when the two touch. -/
def append (touches : τ → τ → Bool) (l : List (ClosedRange τ)) (r : ClosedRange τ) : List (ClosedRange τ) :=
  match l.getLast? with
  | some prev =>
    if touches prev.last r.first then l.dropLast ++ [⟨prev.first,r.last⟩] else l ++ [r]
  | none => l ++ [r]

variable {touches : τ → τ → Bool}

private theorem append_cases (htouch : ∀ a b, touches a b = true ↔ a ⋖ b)
    (l : List (ClosedRange τ)) (r : ClosedRange τ) :
    (append touches l r = l ++ [r] ∧ ∀ p, l.getLast? = some p → ¬ p.last ⋖ r.first) ∨
      ∃ l' p, l = l' ++ [p] ∧ p.last ⋖ r.first ∧ append touches l r = l' ++ [⟨p.first,r.last⟩] := by
  unfold append
  split
  · rename_i p hlast
    have hl : l = l.dropLast ++ [p] := (dropLast_append_getLast? p hlast).symm
    split_ifs with ht
    · exact Or.inr ⟨l.dropLast,p,hl,(htouch _ _).mp ht,rfl⟩
    · refine Or.inl ⟨rfl,fun q hq => ?_⟩
      obtain rfl := Option.some.inj (hlast.symm.trans hq)
      rwa [← htouch]
  · rename_i hnone
    refine Or.inl ⟨rfl,fun p hp => ?_⟩
    rw [hnone] at hp
    cases hp

private theorem exists_between_of_not_covBy {a b : τ} (hlt : a < b) (h : ¬ a ⋖ b) : ∃ g, a < g ∧ g < b := by
  by_contra hnone
  push Not at hnone
  exact h ⟨hlt,fun g hag hgb => absurd hgb (not_lt.mpr (hnone g hag))⟩

variable (htouch : ∀ a b, touches a b = true ↔ a ⋖ b)

include htouch

theorem Separated.append (h : Separated l) (hr : r.first ≤ r.last)
    (hlt : ∀ a ∈ l, a.last < r.first) : Separated (append touches l r) := by
  rcases append_cases htouch l r with ⟨heq,hgap⟩ | ⟨l',p,rfl,hcov,heq⟩
  · rw [heq]
    constructor
    · intro a ha
      rcases mem_append.mp ha with ha | ha
      · exact h.nonempty a ha
      · rw [mem_singleton.mp ha]
        exact hr
    · refine pairwise_append.mpr ⟨h.gap,pairwise_singleton _ _,?_⟩
      intro a ha b hb
      obtain rfl := mem_singleton.mp hb
      -- only the last range can touch the new one
      rcases eq_nil_or_concat' l with rfl | ⟨l',p,rfl⟩
      · cases ha
      · rcases mem_append.mp ha with ha' | ha'
        · obtain ⟨g,hag,hgp⟩ := (pairwise_append.mp h.gap).2.2 a ha' p (by simp)
          have hp := h.nonempty p (by simp)
          exact ⟨g,hag,hgp.trans_le (hp.trans (hlt p (by simp)).le)⟩
        · obtain rfl := mem_singleton.mp ha'
          exact exists_between_of_not_covBy (hlt a (by simp)) (hgap a (by simp))
  · rw [heq]
    have hp := h.nonempty p (by simp)
    obtain ⟨hl',_,hcross⟩ := pairwise_append.mp h.gap
    constructor
    · intro a ha
      rcases mem_append.mp ha with ha | ha
      · exact h.nonempty a (mem_append_left _ ha)
      · rw [mem_singleton.mp ha]
        exact hp.trans (hcov.lt.le.trans hr)
    · refine pairwise_append.mpr ⟨hl',pairwise_singleton _ _,?_⟩
      intro a ha b hb
      obtain rfl := mem_singleton.mp hb
      exact hcross a ha p (by simp)

theorem covers_append_range (hne : ∀ a ∈ l, a.first ≤ a.last)
    (hr : r.first ≤ r.last) (t : τ) : Covers (append touches l r) t ↔ Covers l t ∨ r.contains t := by
  rcases append_cases htouch l r with ⟨heq,_⟩ | ⟨l',p,rfl,hcov,heq⟩
  · rw [heq,covers_append,covers_singleton]
  · rw [heq,covers_append,covers_append,covers_singleton,covers_singleton,or_assoc]
    have hp := hne p (by simp)
    have hjoin : (⟨p.first,r.last⟩ : ClosedRange τ).contains t = true ↔ p.contains t = true ∨ r.contains t = true := by
      simp only [contains_iff]
      constructor
      · rintro ⟨hpt,htr⟩
        rcases le_or_gt t p.last with htp | htp
        · exact Or.inl ⟨hpt,htp⟩
        · exact Or.inr ⟨not_lt.mp fun htf => hcov.2 htp htf,htr⟩
      · rintro (⟨hpt,htp⟩ | ⟨hrt,htr⟩)
        · exact ⟨hpt,htp.trans (hcov.lt.le.trans hr)⟩
        · exact ⟨hp.trans (hcov.lt.le.trans hrt),htr⟩
    rw [hjoin]

private theorem last_le_of_mem_append (hr : r.first ≤ r.last)
    (hlt : ∀ a ∈ l, a.last < r.first) : ∀ a ∈ append touches l r, a.last ≤ r.last := by
  intro a ha
  rcases append_cases htouch l r with ⟨heq,_⟩ | ⟨l',p,rfl,_,heq⟩
  · rw [heq] at ha
    rcases mem_append.mp ha with ha | ha
    · exact (hlt a ha).le.trans hr
    · rw [mem_singleton.mp ha]
  · rw [heq] at ha
    rcases mem_append.mp ha with ha | ha
    · exact (hlt a (mem_append_left _ ha)).le.trans hr
    · rw [mem_singleton.mp ha]

omit htouch

/-- Appending an ascending list range by range. -/
def join (touches : τ → τ → Bool) (l : List (ClosedRange τ)) : List (ClosedRange τ) := l.foldl (append touches) []

omit [LinearOrder τ] in
theorem join_concat (l : List (ClosedRange τ)) (r : ClosedRange τ) :
    join touches (l ++ [r]) = append touches (join touches l) r := by
  simp [join]

variable (htouch : ∀ a b, touches a b = true ↔ a ⋖ b)

include htouch

private theorem join_bound (h : Ascending l) :
    Separated (join touches l) ∧ (∀ t, Covers (join touches l) t ↔ Covers l t) ∧
      ∀ a ∈ join touches l, ∃ r ∈ l, a.last ≤ r.last := by
  induction l using List.reverseRecOn with
  | nil =>
    exact ⟨⟨(fun r hr => by cases hr),List.Pairwise.nil⟩,(fun t => Iff.rfl), (fun a ha => by cases ha)⟩
  | append_singleton l r ih =>
    obtain ⟨hl,_,hcross⟩ := pairwise_append.mp h.lt
    have hne : ∀ a ∈ l, a.first ≤ a.last := fun a ha => h.nonempty a (mem_append_left _ ha)
    have hr : r.first ≤ r.last := h.nonempty r (by simp)
    obtain ⟨hsep,hcov,hbound⟩ := ih ⟨hne,hl⟩
    have hlt : ∀ a ∈ join touches l, a.last < r.first := by
      intro a ha
      obtain ⟨b,hb,hle⟩ := hbound a ha
      exact hle.trans_lt (hcross b hb r (by simp))
    rw [join_concat]
    refine ⟨hsep.append htouch hr hlt,?_,?_⟩
    · intro t
      rw [covers_append_range htouch hsep.nonempty hr,hcov,covers_append,covers_singleton]
    · intro a ha
      exact ⟨r,by simp,last_le_of_mem_append htouch hr hlt a ha⟩

theorem join_separated (h : Ascending l) : Separated (join touches l) := (join_bound htouch h).1

theorem covers_join (h : Ascending l) (t : τ) : Covers (join touches l) t ↔ Covers l t := (join_bound htouch h).2.1 t

omit htouch

end ClosedRange
