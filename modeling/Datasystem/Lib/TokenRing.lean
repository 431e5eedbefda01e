import Datasystem.Lib.Keyed

/-!
# Token rings

The point that owns a token is the first one at or after it, and behind the last point the ring wraps around
to its first.
-/

namespace TokenRing

open List

variable {τ α β : Type*} [LinearOrder τ] (points : List (τ × α))

def Ordered : Prop := points.Pairwise fun p q => p.1 < q.1

/-- The first point at or after a token, or else the first point of all. -/
def find (points : List (τ × α)) (t : τ) : Option (τ × α) := (points.find? fun p => t ≤ p.1).or points.head?

/-- Once around the ring, from the first point at or after a token on. -/
def walk (t : τ) : List (τ × α) := points.dropWhile (fun p => p.1 < t) ++ points.takeWhile fun p => p.1 < t

def build : List (τ × α) := points.insertionSort fun p q => p.1 ≤ q.1

/-- A point owns a token: no other point lies between them, going around the ring. -/
def Owns (t : τ) (p : τ × α) : Prop :=
  p ∈ points ∧ ((t ≤ p.1 ∧ ∀ q ∈ points, t ≤ q.1 → p.1 ≤ q.1) ∨
    ((∀ q ∈ points, q.1 < t) ∧ ∀ q ∈ points, p.1 ≤ q.1))

variable {points} {p : τ × α}

theorem mem_build : p ∈ build points ↔ p ∈ points := (perm_insertionSort _ points).mem_iff

theorem build_ordered (h : (points.map Prod.fst).Nodup) : Ordered (build points) := by
  have hsorted : (build points).Pairwise fun p q => p.1 ≤ q.1 := by
    have : Std.Total fun p q : τ × α => p.1 ≤ q.1 := ⟨fun p q => le_total p.1 q.1⟩
    have : IsTrans (τ × α) fun p q => p.1 ≤ q.1 := ⟨fun _ _ _ => le_trans⟩
    exact pairwise_insertionSort _ points
  have hperm : (build points).Perm points := perm_insertionSort _ points
  have hnodup : (build points).Pairwise fun p q => p.1 ≠ q.1 := by
    rw [← pairwise_map]
    exact (hperm.map Prod.fst).nodup_iff.mpr h
  exact hsorted.imp₂ (fun _ _ hle hne => lt_of_le_of_ne hle hne) hnodup

theorem build_map (f : α → β) (points : List (τ × α)) :
    build (points.map (Prod.map id f)) = (build points).map (Prod.map id f) := by
  unfold build
  exact (map_insertionSort _ _ (Prod.map id f) points fun _ _ _ _ => Iff.rfl).symm

variable {t : τ}

theorem find_eq_none : find points t = none ↔ points = [] := by
  rw [find,Option.or_eq_none_iff]
  constructor
  · rintro ⟨_,hhead⟩
    exact head?_eq_none_iff.mp hhead
  · rintro rfl
    exact ⟨rfl,rfl⟩

variable (h : Ordered points)

include h

theorem Ordered.head_le (hp : points.head? = some p) : ∀ q ∈ points, p.1 ≤ q.1 := by
  cases points with
  | nil => cases hp
  | cons a points =>
    cases hp
    intro q hq
    rcases mem_cons.mp hq with rfl | hq
    · exact le_rfl
    · exact ((pairwise_cons.mp h).1 q hq).le

theorem Ordered.find?_le (hp : points.find? (fun q => t ≤ q.1) = some p) : ∀ q ∈ points, t ≤ q.1 → p.1 ≤ q.1 := by
  induction points with
  | nil => cases hp
  | cons a points ih =>
    obtain ⟨ha,hrest⟩ := pairwise_cons.mp h
    rw [find?_cons] at hp
    intro q hq hle
    by_cases hat : t ≤ a.1
    · simp only [hat,decide_true] at hp
      cases hp
      rcases mem_cons.mp hq with rfl | hq
      · exact le_rfl
      · exact (ha q hq).le
    · simp only [hat,decide_false] at hp
      rcases mem_cons.mp hq with rfl | hq
      · exact absurd hle hat
      · exact ih hrest hp q hq hle

theorem Ordered.owns_of_find (hp : find points t = some p) : Owns points t p := by
  unfold find at hp
  cases hfind : points.find? (fun q => t ≤ q.1) with
  | some q =>
    rw [hfind,Option.some_or] at hp
    cases hp
    refine ⟨mem_of_find?_eq_some hfind,Or.inl ⟨?_,h.find?_le hfind⟩⟩
    simpa using find?_some hfind
  | none =>
    rw [hfind,Option.none_or] at hp
    refine ⟨mem_of_mem_head? hp,Or.inr ⟨?_,h.head_le hp⟩⟩
    intro q hq
    simpa using find?_eq_none.mp hfind q hq

theorem Ordered.owns_unique {p q : τ × α} (hp : Owns points t p) (hq : Owns points t q) : p = q := by
  have htoken : p.1 = q.1 := by
    obtain ⟨hpm,hp⟩ := hp
    obtain ⟨hqm,hq⟩ := hq
    rcases hp with ⟨hpt,hpmin⟩ | ⟨hpall,hpmin⟩
    · rcases hq with ⟨hqt,hqmin⟩ | ⟨hqall,_⟩
      · exact le_antisymm (hpmin q hqm hqt) (hqmin p hpm hpt)
      · exact absurd (hqall p hpm) (not_lt.mpr hpt)
    · rcases hq with ⟨hqt,_⟩ | ⟨_,hqmin⟩
      · exact absurd (hpall q hqm) (not_lt.mpr hqt)
      · exact le_antisymm (hpmin q hqm) (hqmin p hpm)
  have hnodup : (points.map Prod.fst).Nodup := by
    rw [List.Nodup,pairwise_map]
    exact h.imp fun hlt => hlt.ne
  exact inj_on_of_nodup_map hnodup hp.1 hq.1 htoken

theorem Ordered.find_eq_some : find points t = some p ↔ Owns points t p := by
  constructor
  · exact h.owns_of_find
  · intro hp
    cases hfind : find points t with
    | none =>
      rw [find_eq_none.mp hfind] at hp
      cases hp.1
    | some q => rw [h.owns_unique hp (h.owns_of_find hfind)]

theorem Ordered.find?_walk (q : τ × α → Bool) : (walk points t).find? q = find (points.filter q) t := by
  have hsorted : Keyed.Sorted Prod.fst points := h
  rw [walk,hsorted.dropWhile_eq,hsorted.takeWhile_eq,find,find?_append,find?_filter,find?_filter,find?_filter,
    head?_filter]
  cases hfind : points.find? fun p => decide (q p = true ∧ decide (t ≤ p.1) = true) with
  | some p => simp only [and_comm,hfind,Option.some_or]
  | none =>
    -- All the points that are looked for lie before the token.
    simp only [and_comm,hfind,Option.none_or]
    apply find?_congr
    intro p hp
    have hbefore : q p = true → p.1 < t := by simpa using find?_eq_none.mp hfind p hp
    cases hq : q p <;> simp [hbefore,hq]

omit h

theorem find_map (f : α → β) (points : List (τ × α)) (t : τ) :
    find (points.map (Prod.map id f)) t = (find points t).map (Prod.map id f) := by
  unfold find
  rw [find?_map,head?_map,Option.map_or]
  rfl

theorem Owns.congr {points points' : List (τ × α)} (h : ∀ p, p ∈ points ↔ p ∈ points') (hp : Owns points t p) :
    Owns points' t p := by
  unfold Owns at *
  simp only [← h]
  exact hp

/-- A point that keeps its place owns its tokens also when other points are taken away. -/
theorem Owns.of_subset {points points' : List (τ × α)} (hsub : ∀ p ∈ points', p ∈ points) (hp : Owns points t p)
    (hmem : p ∈ points') : Owns points' t p := by
  obtain ⟨_,hp⟩ := hp
  refine ⟨hmem,hp.imp ?_ ?_⟩
  · rintro ⟨hle,hmin⟩
    exact ⟨hle,fun q hq => hmin q (hsub q hq)⟩
  · rintro ⟨hall,hmin⟩
    exact ⟨fun q hq => hall q (hsub q hq),fun q hq => hmin q (hsub q hq)⟩

/-- Two tokens without a point between them have the same owner. -/
theorem Owns.of_no_point {s t : τ} (hst : s ≤ t) (hnone : ∀ q ∈ points, s ≤ q.1 → t ≤ q.1) (hp : Owns points s p) :
    Owns points t p := by
  obtain ⟨hmem,hp⟩ := hp
  refine ⟨hmem,hp.imp ?_ ?_⟩
  · rintro ⟨hle,hmin⟩
    exact ⟨hnone p hmem hle,fun q hq hq' => hmin q hq (hst.trans hq')⟩
  · rintro ⟨hall,hmin⟩
    exact ⟨fun q hq => (hall q hq).trans_le hst,hmin⟩

end TokenRing
