import Datasystem.Cluster.HashAlgorithm

/-!
# What a comparison of two rings says

The changes between two rings list each token once, under the pair of owners it moves between, and every token
that moves.
-/

namespace Datasystem.Cluster

open Keyed ClosedRange TokenRing
open List hiding lookup

def ownerOf (owners : List (UInt32 × MemberIdentity)) (t : UInt32) : Option MemberIdentity :=
  (find owners t).map Prod.snd

def Moves (fromOwners toOwners : List (UInt32 × MemberIdentity)) (t : UInt32)
    (source target : MemberIdentity) : Prop :=
  ownerOf fromOwners t = some source ∧ ownerOf toOwners t = some target ∧ source ≠ target

theorem Moves.unique {fromOwners toOwners : List (UInt32 × MemberIdentity)} {t : UInt32}
    {s g s' g' : MemberIdentity} (h : Moves fromOwners toOwners t s g) (h' : Moves fromOwners toOwners t s' g') :
    s = s' ∧ g = g' :=
  ⟨Option.some.inj (h.1.symm.trans h'.1),Option.some.inj (h.2.1.symm.trans h'.2.1)⟩

/-- The changes of a relation that says which tokens move from whom to whom. -/
structure ChangeSpec (R : UInt32 → MemberIdentity → MemberIdentity → Prop)
    (changes : List TopologyOwnerChange) : Prop where
  sorted : Sorted changeKey changes
  sound : ∀ c ∈ changes, ∃ source, c.source = some source ∧ c.ranges ≠ [] ∧ Separated c.ranges ∧
    ∀ t, Covers c.ranges t ↔ R t source c.target
  complete : ∀ t source target, R t source target →
    ∃ c ∈ changes, c.source = some source ∧ c.target = target

variable {R : UInt32 → MemberIdentity → MemberIdentity → Prop}

theorem ChangeSpec.mem_of {changes changes' : List TopologyOwnerChange} (h : ChangeSpec R changes)
    (h' : ChangeSpec R changes') {c : TopologyOwnerChange} (hc : c ∈ changes) : c ∈ changes' := by
  obtain ⟨source,hsource,hne,hsep,hcov⟩ := h.sound c hc
  obtain ⟨t,ht⟩ := exists_covers hne hsep.nonempty
  obtain ⟨c',hc',hsource',htarget⟩ := h'.complete _ _ _ ((hcov t).mp ht)
  obtain ⟨source',hs,_,hsep',hcov'⟩ := h'.sound c' hc'
  obtain rfl := Option.some.inj (hsource'.symm.trans hs)
  have hranges : c.ranges = c'.ranges := by
    refine hsep.ext hsep' fun t => ?_
    rw [hcov,hcov',htarget]
  have heq : c = c' := by
    cases c
    cases c'
    simp_all
  exact heq ▸ hc'

theorem ChangeSpec.unique {changes changes' : List TopologyOwnerChange} (h : ChangeSpec R changes)
    (h' : ChangeSpec R changes') : changes = changes' := by
  refine h.sorted.ext h'.sorted fun k => Option.ext fun c => ?_
  rw [h.sorted.lookup_eq_some,h'.sorted.lookup_eq_some]
  exact and_congr_left' ⟨h.mem_of h',h'.mem_of h⟩

theorem ChangeSpec.congr {R R' : UInt32 → MemberIdentity → MemberIdentity → Prop}
    {changes : List TopologyOwnerChange} (h : ChangeSpec R changes)
    (hR : ∀ t source target, R t source target ↔ R' t source target) : ChangeSpec R' changes := by
  have heq : R = R' := by
    funext t source target
    exact propext (hR t source target)
  exact heq ▸ h

theorem ChangeSpec.filter {changes : List TopologyOwnerChange} (h : ChangeSpec R changes) (p : MemberIdentity → Bool) :
    ChangeSpec (fun t source target => R t source target ∧ p source = true)
      (changes.filter fun c => c.source.any p) where
  sorted := h.sorted.filter _
  sound c hc := by
    obtain ⟨hmem,hp⟩ := mem_filter.mp hc
    obtain ⟨source,hsource,hne,hsep,hcov⟩ := h.sound c hmem
    rw [hsource,Option.any_some] at hp
    refine ⟨source,hsource,hne,hsep,fun t => ?_⟩
    rw [hcov,and_iff_left hp]
  complete := by
    rintro t source target ⟨hR,hp⟩
    obtain ⟨c,hc,hsource,htarget⟩ := h.complete t source target hR
    refine ⟨c,mem_filter.mpr ⟨hc,?_⟩,hsource,htarget⟩
    rw [hsource,Option.any_some,hp]

theorem touches_iff (a b : UInt32) : (decide (a ≠ maxToken) && decide (a + 1 = b)) = true ↔ a ⋖ b := by
  simp only [Bool.and_eq_true,decide_eq_true_eq,maxToken]
  constructor
  · rintro ⟨hmax,rfl⟩
    refine ⟨by grind,fun c hac hcb => ?_⟩
    grind
  · rintro ⟨hlt,hcov⟩
    have hmax : a ≠ 0xffffffff := by grind
    refine ⟨decide_eq_true hmax,?_⟩
    by_contra hne
    exact hcov (c := a + 1) (by grind) (by grind)

section BoundaryRanges

variable {bs : List UInt32} {r : TokenRange}

theorem first_mem_of_mem_boundaryRanges (hr : r ∈ boundaryRanges bs) : r.first ∈ bs := by
  induction bs using boundaryRanges.induct with
  | case1 => cases hr
  | case2 b =>
    rw [boundaryRanges,mem_singleton] at hr
    simp [hr]
  | case3 b b' rest ih =>
    rw [boundaryRanges,mem_cons] at hr
    rcases hr with rfl | hr
    · exact mem_cons_self
    · exact mem_cons_of_mem _ (ih hr)

/-- A range between boundaries ends before the next boundary. -/
theorem last_lt_of_mem_boundaryRanges (hbs : bs.Pairwise (· < ·))
    (hr : r ∈ boundaryRanges bs) : r.first ≤ r.last ∧ ∀ b ∈ bs, r.first < b → r.last < b := by
  induction bs using boundaryRanges.induct with
  | case1 => cases hr
  | case2 b =>
    rw [boundaryRanges,mem_singleton] at hr
    subst hr
    refine ⟨by simp only [maxToken]; grind,fun x hx hlt => ?_⟩
    rw [mem_singleton.mp hx] at hlt
    exact absurd hlt (lt_irrefl _)
  | case3 b b' rest ih =>
    obtain ⟨hb,hrest⟩ := pairwise_cons.mp hbs
    have hbb' : b < b' := hb b' mem_cons_self
    rw [boundaryRanges,mem_cons] at hr
    rcases hr with rfl | hr
    · refine ⟨by grind,fun x hx hlt => ?_⟩
      rcases mem_cons.mp hx with rfl | hx
      · exact absurd hlt (lt_irrefl _)
      · have hle : b' ≤ x := by
          rcases mem_cons.mp hx with rfl | hx
          · exact le_rfl
          · exact ((pairwise_cons.mp hrest).1 x hx).le
        grind
    · obtain ⟨hle,hnext⟩ := ih hrest hr
      refine ⟨hle,fun x hx hlt => ?_⟩
      rcases mem_cons.mp hx with rfl | hx
      · exact absurd (hb r.first (first_mem_of_mem_boundaryRanges hr)) (lt_asymm hlt)
      · exact hnext x hx hlt

theorem boundaryRanges_ascending (hbs : bs.Pairwise (· < ·)) : Ascending (boundaryRanges bs) := by
  refine ⟨fun r hr => (last_lt_of_mem_boundaryRanges hbs hr).1,?_⟩
  induction bs using boundaryRanges.induct with
  | case1 => exact List.Pairwise.nil
  | case2 b => exact pairwise_singleton _ _
  | case3 b b' rest ih =>
    obtain ⟨hb,hrest⟩ := pairwise_cons.mp hbs
    rw [boundaryRanges]
    refine pairwise_cons.mpr ⟨fun r hr => ?_,ih hrest⟩
    have hfirst := first_mem_of_mem_boundaryRanges hr
    have hle : b' ≤ r.first := by
      rcases mem_cons.mp hfirst with heq | hmem
      · exact heq.ge
      · exact ((pairwise_cons.mp hrest).1 r.first hmem).le
    have hbb' : b < b' := hb b' mem_cons_self
    dsimp only
    grind

variable {t : UInt32}

theorem covers_boundaryRanges {b : UInt32} (hbs : (b :: bs).Pairwise (· < ·))
    (ht : b ≤ t) : Covers (boundaryRanges (b :: bs)) t := by
  induction bs generalizing b with
  | nil =>
    refine ⟨⟨b,maxToken⟩,by simp [boundaryRanges],contains_iff.mpr ⟨ht,?_⟩⟩
    simp only [maxToken]
    grind
  | cons b' bs ih =>
    obtain ⟨hb,hrest⟩ := pairwise_cons.mp hbs
    have hbb' : b < b' := hb b' mem_cons_self
    rw [boundaryRanges]
    rcases lt_or_ge t b' with hlt | hge
    · refine ⟨⟨b,b' - 1⟩,mem_cons_self,contains_iff.mpr ⟨ht,?_⟩⟩
      dsimp only
      grind
    · obtain ⟨r,hr,hrt⟩ := ih hrest hge
      exact ⟨r,mem_cons_of_mem _ hr,hrt⟩

end BoundaryRanges

section Boundaries

variable {fromOwners toOwners : List (UInt32 × MemberIdentity)}

theorem mem_boundaries {b : UInt32} : b ∈ boundaries fromOwners toOwners ↔
    b = 0 ∨ ∃ o ∈ fromOwners ++ toOwners, o.1 ≠ maxToken ∧ o.1 + 1 = b := by
  simp only [boundaries,mem_dedup,(perm_insertionSort _ _).mem_iff,mem_cons,
    mem_map,mem_filter,decide_eq_true_eq,and_assoc]

theorem boundaries_sorted (fromOwners toOwners : List (UInt32 × MemberIdentity)) :
    (boundaries fromOwners toOwners).Pairwise (· < ·) := by
  have hle : (boundaries fromOwners toOwners).Pairwise (· ≤ ·) :=
    (pairwise_insertionSort (· ≤ ·) _).sublist (dedup_sublist _)
  have hne : (boundaries fromOwners toOwners).Pairwise (· ≠ ·) := nodup_dedup _
  exact hle.imp₂ (fun _ _ hle hne => lt_of_le_of_ne hle hne) hne

theorem covers_all (fromOwners toOwners : List (UInt32 × MemberIdentity)) (t : UInt32) :
    Covers (boundaryRanges (boundaries fromOwners toOwners)) t := by
  have hzero : (0 : UInt32) ∈ boundaries fromOwners toOwners := mem_boundaries.mpr (Or.inl rfl)
  have hsorted := boundaries_sorted fromOwners toOwners
  cases hbs : boundaries fromOwners toOwners with
  | nil =>
    rw [hbs] at hzero
    cases hzero
  | cons b bs =>
    rw [hbs] at hzero hsorted
    refine covers_boundaryRanges hsorted ?_
    rcases mem_cons.mp hzero with heq | hmem
    · rw [← heq]
      grind
    · have hlt := (pairwise_cons.mp hsorted).1 0 hmem
      grind

/-- No point of the rings lies inside a range before its end, so the owner is the same all over
the range. -/
theorem ownerOf_range {owners : List (UInt32 × MemberIdentity)} (hord : Ordered owners)
    (hsub : ∀ o ∈ owners, o ∈ fromOwners ++ toOwners)
    (hr : r ∈ boundaryRanges (boundaries fromOwners toOwners)) (ht : r.contains t) :
    ownerOf owners t = ownerOf owners r.first := by
  obtain ⟨hft,htl⟩ := contains_iff.mp ht
  have hnone : ∀ q ∈ owners, r.first ≤ q.1 → t ≤ q.1 := by
    intro q hq hle
    by_contra hlt
    rw [not_le] at hlt
    have hmax : q.1 ≠ maxToken := by
      simp only [maxToken]
      grind
    have hb : q.1 + 1 ∈ boundaries fromOwners toOwners := mem_boundaries.mpr (Or.inr ⟨q,hsub q hq,hmax,rfl⟩)
    have hnext := (last_lt_of_mem_boundaryRanges (boundaries_sorted _ _) hr).2 _ hb
    simp only [maxToken] at hmax
    grind
  unfold ownerOf
  cases hfirst : find owners r.first with
  | none => rw [find_eq_none.mp hfirst]; rfl
  | some p =>
    have howns := (hord.find_eq_some.mp hfirst).of_no_point hft hnone
    rw [hord.find_eq_some.mpr howns]

end Boundaries

section Grouping

variable {fromOwners toOwners : List (UInt32 × MemberIdentity)}

/-- The ranges at whose first token the owners are the given ones. -/
def rangesBetween (fromOwners toOwners : List (UInt32 × MemberIdentity))
    (source target : MemberIdentity) (ranges : List TokenRange) : List TokenRange :=
  ranges.filter fun r => ownerOf fromOwners r.first = some source && ownerOf toOwners r.first = some target

def groupRange (fromOwners toOwners : List (UInt32 × MemberIdentity))
    (grouped : List TopologyOwnerChange) (range : TokenRange) : List TopologyOwnerChange :=
  match ownerOf fromOwners range.first, ownerOf toOwners range.first with
  | some source, some target =>
    if source = target then grouped else recordChange source target range grouped
  | _, _ => grouped

theorem diffOwners_eq : diffOwners fromOwners toOwners =
    (boundaryRanges (boundaries fromOwners toOwners)).foldl (groupRange fromOwners toOwners) [] := by
  unfold diffOwners
  congr 1
  funext grouped range
  unfold groupRange ownerOf
  cases find fromOwners range.first <;> cases find toOwners range.first <;> rfl

/-- The groups after some ranges: each is the join of its ranges, and none is missing. -/
structure GroupSpec (fromOwners toOwners : List (UInt32 × MemberIdentity)) (ranges : List TokenRange)
    (grouped : List TopologyOwnerChange) : Prop where
  sorted : Sorted changeKey grouped
  sound : ∀ c ∈ grouped, ∃ source, c.source = some source ∧ source ≠ c.target ∧
    rangesBetween fromOwners toOwners source c.target ranges ≠ [] ∧
    c.ranges = join (fun a b => decide (a ≠ maxToken) && decide (a + 1 = b))
      (rangesBetween fromOwners toOwners source c.target ranges)
  complete : ∀ source target, source ≠ target →
    rangesBetween fromOwners toOwners source target ranges ≠ [] →
      ∃ c ∈ grouped, c.source = some source ∧ c.target = target

theorem rangesBetween_concat (source target : MemberIdentity) (ranges : List TokenRange)
    (r : TokenRange) : rangesBetween fromOwners toOwners source target (ranges ++ [r]) =
      rangesBetween fromOwners toOwners source target ranges ++
        if ownerOf fromOwners r.first = some source ∧ ownerOf toOwners r.first = some target then [r]
        else [] := by
  simp only [rangesBetween,filter_append]
  congr 1
  by_cases h : ownerOf fromOwners r.first = some source ∧ ownerOf toOwners r.first = some target
  · simp [h]
  · rw [if_neg h]
    simpa using h

variable {grouped : List TopologyOwnerChange} {ranges : List TokenRange}

theorem GroupSpec.skip (h : GroupSpec fromOwners toOwners ranges grouped) {r : TokenRange}
    (hr : ∀ source target, source ≠ target →
      ¬ (ownerOf fromOwners r.first = some source ∧ ownerOf toOwners r.first = some target)) :
    GroupSpec fromOwners toOwners (ranges ++ [r]) grouped := by
  have hsame : ∀ source target, source ≠ target → rangesBetween fromOwners toOwners source target (ranges ++ [r]) =
        rangesBetween fromOwners toOwners source target ranges := by
    intro source target hne
    rw [rangesBetween_concat,if_neg (hr source target hne),append_nil]
  refine ⟨h.sorted,fun c hc => ?_,fun source target hne hmem => ?_⟩
  · obtain ⟨source,hsource,hne,hnonempty,hranges⟩ := h.sound c hc
    refine ⟨source,hsource,hne,?_,?_⟩
    · rw [hsame source c.target hne]
      exact hnonempty
    · rw [hsame source c.target hne]
      exact hranges
  · rw [hsame source target hne] at hmem
    exact h.complete source target hne hmem

/-- The identities on two rings that share an address are the same. -/
def SameByAddress (owners : List (UInt32 × MemberIdentity)) : Prop :=
  ∀ o ∈ owners, ∀ o' ∈ owners, o.2.address = o'.2.address → o.2 = o'.2

theorem mem_of_ownerOf {owners : List (UInt32 × MemberIdentity)} (hord : Ordered owners)
    {identity : MemberIdentity} (h : ownerOf owners t = some identity) :
    ∃ o ∈ owners, o.2 = identity := by
  obtain ⟨o,ho,rfl⟩ := Option.map_eq_some_iff.mp h
  exact ⟨o,(hord.find_eq_some.mp ho).1,rfl⟩

variable (hfrom : Ordered fromOwners) (hto : Ordered toOwners) (hsame : SameByAddress (fromOwners ++ toOwners))

include hfrom hto hsame

/-- A change recorded under the addresses of two owners is the change between them. -/
theorem GroupSpec.of_key (h : GroupSpec fromOwners toOwners ranges grouped)
    {source target : MemberIdentity} (hs : ownerOf fromOwners t = some source) (ht : ownerOf toOwners t = some target)
    {c : TopologyOwnerChange} (hc : c ∈ grouped) (hkey : changeKey c = toLex (source.address, target.address)) :
    c.source = some source ∧ c.target = target := by
  obtain ⟨source',hsource,_,hne,_⟩ := h.sound c hc
  obtain ⟨r,hr⟩ := exists_mem_of_ne_nil _ hne
  obtain ⟨_,htag⟩ := mem_filter.mp hr
  simp only [Bool.and_eq_true,decide_eq_true_eq] at htag
  have haddr : source'.address = source.address ∧ c.target.address = target.address := by
    simp only [changeKey,hsource,Option.map_some,Option.getD_some,toLex_inj,Prod.mk.injEq] at hkey
    exact hkey
  obtain ⟨o,ho,rfl⟩ := mem_of_ownerOf hfrom hs
  obtain ⟨o',ho',rfl⟩ := mem_of_ownerOf hfrom htag.1
  obtain ⟨p,hp,rfl⟩ := mem_of_ownerOf hto ht
  obtain ⟨p',hp',hpt⟩ := mem_of_ownerOf hto htag.2
  have hsrc : o'.2 = o.2 := hsame o' (mem_append_left _ ho') o (mem_append_left _ ho) haddr.1
  have htgt : p'.2 = p.2 := by
    refine hsame p' (mem_append_right _ hp') p (mem_append_right _ hp) ?_
    rw [hpt]
    exact haddr.2
  exact ⟨by rw [hsource,hsrc],by rw [← hpt,htgt]⟩

theorem GroupSpec.record (h : GroupSpec fromOwners toOwners ranges grouped) {r : TokenRange}
    {source target : MemberIdentity} (hs : ownerOf fromOwners r.first = some source)
    (ht : ownerOf toOwners r.first = some target) (hne : source ≠ target) :
    GroupSpec fromOwners toOwners (ranges ++ [r]) (recordChange source target r grouped) := by
  -- the ranges already recorded for the two owners
  have hbefore : ((lookup changeKey (toLex (source.address, target.address)) grouped).map
      TopologyOwnerChange.ranges).getD [] = join (fun a b => decide (a ≠ maxToken) && decide (a + 1 = b))
          (rangesBetween fromOwners toOwners source target ranges) := by
    cases hl : lookup changeKey (toLex (source.address, target.address)) grouped with
    | none =>
      have hnil : rangesBetween fromOwners toOwners source target ranges = [] := by
        by_contra hmem
        obtain ⟨c,hc,hsource,htarget⟩ := h.complete source target hne hmem
        refine lookup_eq_none.mp hl c hc ?_
        simp [changeKey,hsource,htarget]
      rw [hnil]
      rfl
    | some c =>
      obtain ⟨hc,hkey⟩ := h.sorted.lookup_eq_some.mp hl
      obtain ⟨hsource,htarget⟩ := h.of_key hfrom hto hsame hs ht hc hkey
      obtain ⟨source',hsource',_,_,hranges⟩ := h.sound c hc
      obtain rfl := Option.some.inj (hsource.symm.trans hsource')
      rw [Option.map_some,Option.getD_some,hranges,htarget]
  have hconcat : rangesBetween fromOwners toOwners source target (ranges ++ [r]) =
      rangesBetween fromOwners toOwners source target ranges ++ [r] := by
    rw [rangesBetween_concat,if_pos ⟨hs,ht⟩]
  have hother : ∀ source' target', (source', target') ≠ (source, target) →
      rangesBetween fromOwners toOwners source' target' (ranges ++ [r]) =
        rangesBetween fromOwners toOwners source' target' ranges := by
    intro source' target' hdiff
    rw [rangesBetween_concat,if_neg,append_nil]
    rintro ⟨hs',ht'⟩
    refine hdiff ?_
    rw [Option.some.inj (hs.symm.trans hs'),Option.some.inj (ht.symm.trans ht')]
  set change : TopologyOwnerChange := ⟨some source,target,
    appendRange (((lookup changeKey (toLex (source.address, target.address)) grouped).map
      TopologyOwnerChange.ranges).getD []) r⟩ with hchange
  have hkey : changeKey change = toLex (source.address, target.address) := rfl
  have hrecord : recordChange source target r grouped = upsert changeKey change grouped := rfl
  rw [hrecord]
  refine ⟨h.sorted.upsert change,fun c hc => ?_,fun source' target' hne' hmem' => ?_⟩
  · rcases h.sorted.mem_upsert_iff.mp hc with rfl | ⟨hc,hk⟩
    · refine ⟨source,rfl,hne,?_,?_⟩
      · rw [hconcat]
        simp
      · rw [hconcat,join_concat,← hbefore]
        rfl
    · obtain ⟨source',hsource,hne',hnonempty,hranges⟩ := h.sound c hc
      have hdiff : (source', c.target) ≠ (source, target) := by
        intro heq
        obtain ⟨rfl,htarget⟩ := Prod.mk.inj heq
        refine hk ?_
        rw [hkey]
        simp [changeKey,hsource,htarget]
      refine ⟨source',hsource,hne',?_,?_⟩
      · rw [hother _ _ hdiff]
        exact hnonempty
      · rw [hother _ _ hdiff]
        exact hranges
  · by_cases hdiff : (source', target') = (source, target)
    · cases hdiff
      exact ⟨change,h.sorted.mem_upsert_iff.mpr (Or.inl rfl),rfl,rfl⟩
    · rw [hother _ _ hdiff] at hmem'
      obtain ⟨c,hc,hsource,htarget⟩ := h.complete source' target' hne' hmem'
      refine ⟨c,h.sorted.mem_upsert_iff.mpr (Or.inr ⟨hc,?_⟩),hsource,htarget⟩
      intro hk
      obtain ⟨hsource',htarget'⟩ := h.of_key hfrom hto hsame hs ht hc (hk.trans hkey)
      refine hdiff ?_
      rw [Option.some.inj (hsource.symm.trans hsource'),← htarget,htarget']

theorem groupSpec_foldl (ranges : List TokenRange) :
    GroupSpec fromOwners toOwners ranges (ranges.foldl (groupRange fromOwners toOwners) []) := by
  induction ranges using List.reverseRecOn with
  | nil =>
    exact ⟨List.Pairwise.nil,(fun c hc => by cases hc),(fun _ _ _ hmem => absurd rfl hmem)⟩
  | append_singleton ranges r ih =>
    rw [foldl_append]
    simp only [foldl_cons,foldl_nil]
    unfold groupRange
    split
    · rename_i source target hs ht
      split_ifs with heq
      · subst heq
        refine ih.skip ?_
        rintro source' target' hne ⟨hs',ht'⟩
        exact hne (Option.some.inj ((hs.symm.trans hs').symm.trans (ht.symm.trans ht')))
      · exact ih.record hfrom hto hsame hs ht heq
    · rename_i hnone
      refine ih.skip ?_
      rintro source target _ ⟨hs,ht⟩
      exact hnone source target hs ht

/-- The comparison of two rings lists the tokens that move, by source and target. -/
theorem diffOwners_spec : ChangeSpec (Moves fromOwners toOwners) (diffOwners fromOwners toOwners) := by
  have hspec := groupSpec_foldl hfrom hto hsame (boundaryRanges (boundaries fromOwners toOwners))
  rw [← diffOwners_eq] at hspec
  have hasc := boundaryRanges_ascending (boundaries_sorted fromOwners toOwners)
  -- a token is in the ranges of a pair of owners exactly when these are its owners
  have hcovers : ∀ source target t, Covers (rangesBetween fromOwners toOwners source target
      (boundaryRanges (boundaries fromOwners toOwners))) t ↔
        ownerOf fromOwners t = some source ∧ ownerOf toOwners t = some target := by
    intro source target t
    obtain ⟨r,hr,hrt⟩ := covers_all fromOwners toOwners t
    have hconst : ∀ r' ∈ boundaryRanges (boundaries fromOwners toOwners), r'.contains t →
        ownerOf fromOwners t = ownerOf fromOwners r'.first ∧ ownerOf toOwners t = ownerOf toOwners r'.first := by
      intro r' hr' hr't
      exact ⟨ownerOf_range hfrom (fun o ho => mem_append_left _ ho) hr' hr't,
        ownerOf_range hto (fun o ho => mem_append_right _ ho) hr' hr't⟩
    constructor
    · rintro ⟨r',hr',hr't⟩
      obtain ⟨hmem,htag⟩ := mem_filter.mp hr'
      simp only [Bool.and_eq_true,decide_eq_true_eq] at htag
      rw [(hconst r' hmem hr't).1,(hconst r' hmem hr't).2]
      exact htag
    · rintro ⟨hs,ht⟩
      refine ⟨r,mem_filter.mpr ⟨hr,?_⟩,hrt⟩
      simp [← (hconst r hr hrt).1,← (hconst r hr hrt).2,hs,ht]
  refine ⟨hspec.sorted,fun c hc => ?_,?_⟩
  · obtain ⟨source,hsource,hne,hnonempty,hranges⟩ := hspec.sound c hc
    have hfilter : Ascending (rangesBetween fromOwners toOwners source c.target
        (boundaryRanges (boundaries fromOwners toOwners))) := hasc.filter _
    have hcov : ∀ t, Covers c.ranges t ↔ Moves fromOwners toOwners t source c.target := by
      intro t
      rw [hranges,covers_join touches_iff hfilter,hcovers]
      exact ⟨fun h => ⟨h.1,h.2,hne⟩,fun h => ⟨h.1,h.2.1⟩⟩
    refine ⟨source,hsource,?_,?_,hcov⟩
    · intro hnil
      obtain ⟨t,ht⟩ := exists_covers hnonempty hfilter.nonempty
      rw [← covers_join touches_iff hfilter,← hranges,hnil] at ht
      exact covers_nil t ht
    · rw [hranges]
      exact join_separated touches_iff hfilter
  · rintro t source target ⟨hs,ht,hne⟩
    refine hspec.complete source target hne ?_
    intro hnil
    have hcov := (hcovers source target t).mpr ⟨hs,ht⟩
    rw [hnil] at hcov
    exact covers_nil _ hcov

end Grouping

end Datasystem.Cluster
