import Datasystem.Lib.Bytes
import Datasystem.Lib.Keyed
import Datasystem.Status

/-!
# The leases of the metastore

A lease has the set of keys that are bound to it. The functions are the sections of `LeaseManager` that
hold its mutex.
-/

namespace Datasystem.Metastore

open Keyed

structure LeaseInfo where
  leaseId : Int
  ttl : Int
  keys : List Bytes := []
  keys_sorted : Sorted id keys := by simp [Sorted]
deriving DecidableEq

theorem LeaseInfo.sorted_nil : Sorted LeaseInfo.leaseId [] := List.Pairwise.nil

structure LeaseManager where
  leases : List LeaseInfo := []
  leases_sorted : Sorted LeaseInfo.leaseId leases := by exact LeaseInfo.sorted_nil
deriving DecidableEq

namespace LeaseManager

variable (m : LeaseManager) (leaseId : Int)

def find : Option LeaseInfo := lookup LeaseInfo.leaseId leaseId m.leases

/-- `Grant` with the identifier that was generated. -/
def grant (leaseId ttl : Int) : LeaseManager :=
  ⟨upsert LeaseInfo.leaseId ⟨leaseId,ttl,[],by simp [Sorted]⟩ m.leases,
    m.leases_sorted.upsert _⟩

def leaseExists : Bool := (m.find leaseId).isSome

def setInfo (info : LeaseInfo) : LeaseManager := ⟨upsert LeaseInfo.leaseId info m.leases,m.leases_sorted.upsert _⟩

/-- `AttachKey`; whether the lease was found. -/
def attachKey (key : Bytes) : Bool × LeaseManager :=
  match m.find leaseId with
  | none => (false, m)
  | some info =>
    (true, m.setInfo { info with keys := upsert id key info.keys, keys_sorted := info.keys_sorted.upsert key })

def detachKey (key : Bytes) : LeaseManager :=
  match m.find leaseId with
  | none => m
  | some info =>
    m.setInfo { info with keys := remove id key info.keys, keys_sorted := info.keys_sorted.remove key }

def eraseLease : Option (List Bytes) × LeaseManager :=
  ((m.find leaseId).map LeaseInfo.keys,
    ⟨remove LeaseInfo.leaseId leaseId m.leases,m.leases_sorted.remove leaseId⟩)

def HasKey (key : Bytes) : Prop := ∃ info, m.find leaseId = some info ∧ key ∈ info.keys

variable {m leaseId}

theorem find_leaseId {info : LeaseInfo} (h : m.find leaseId = some info) : info.leaseId = leaseId := lookup_key _ h

theorem HasKey.leaseExists {key : Bytes} (h : m.HasKey leaseId key) : m.leaseExists leaseId = true := by
  obtain ⟨info,hinfo,-⟩ := h
  simp [LeaseManager.leaseExists,hinfo]

variable {key k : Bytes}

theorem mem_upsert_id {keys : List Bytes} (h : Sorted id keys) : k ∈ upsert id key keys ↔ k = key ∨ k ∈ keys := by
  rw [h.mem_upsert_iff]
  by_cases hk : k = key <;> simp [hk]

variable (m)

@[simp] theorem find_setInfo (info : LeaseInfo) (l : Int) :
    (m.setInfo info).find l = if l = info.leaseId then some info else m.find l :=
  lookup_upsert _ _ _

theorem find_grant (leaseId ttl l : Int) : (m.grant leaseId ttl).find l =
      if l = leaseId then some ⟨leaseId,ttl,[],by simp [Sorted]⟩ else m.find l :=
  lookup_upsert _ _ _

theorem find_eraseLease (leaseId l : Int) : (m.eraseLease leaseId).2.find l = if l = leaseId then none else m.find l :=
  lookup_remove _ _ _

@[simp] theorem leaseExists_attachKey (leaseId : Int) (key : Bytes) (l : Int) :
    (m.attachKey leaseId key).2.leaseExists l = m.leaseExists l := by
  unfold attachKey leaseExists
  cases hfind : m.find leaseId with
  | none => rfl
  | some info =>
    simp only [find_setInfo,find_leaseId hfind]
    split_ifs with hl
    · simp [hl,hfind]
    · rfl

@[simp] theorem leaseExists_detachKey (leaseId : Int) (key : Bytes) (l : Int) :
    (m.detachKey leaseId key).leaseExists l = m.leaseExists l := by
  unfold detachKey leaseExists
  cases hfind : m.find leaseId with
  | none => rfl
  | some info =>
    simp only [find_setInfo,find_leaseId hfind]
    split_ifs with hl
    · simp [hl,hfind]
    · rfl

theorem attachKey_fst (leaseId : Int) (key : Bytes) : (m.attachKey leaseId key).1 = m.leaseExists leaseId := by
  unfold attachKey leaseExists
  cases m.find leaseId <;> rfl

variable {m} {k : Bytes}

theorem hasKey_attachKey {key : Bytes} {l : Int} : (m.attachKey leaseId key).2.HasKey l k ↔
      m.HasKey l k ∨ l = leaseId ∧ k = key ∧ m.leaseExists leaseId = true := by
  unfold attachKey HasKey leaseExists
  cases hfind : m.find leaseId with
  | none => simp
  | some info =>
    simp only [find_setInfo,find_leaseId hfind]
    by_cases hl : l = leaseId
    · subst hl
      simp [hfind,mem_upsert_id info.keys_sorted,or_comm]
    · simp [hl]

theorem hasKey_detachKey {key : Bytes} {l : Int} :
    (m.detachKey leaseId key).HasKey l k ↔ m.HasKey l k ∧ ¬ (l = leaseId ∧ k = key) := by
  unfold detachKey HasKey
  cases hfind : m.find leaseId with
  | none =>
    constructor
    · rintro ⟨info,hinfo,hk⟩
      refine ⟨⟨info,hinfo,hk⟩,?_⟩
      rintro ⟨rfl,-⟩
      rw [hfind] at hinfo
      cases hinfo
    · exact fun h => h.1
  | some info =>
    simp only [find_setInfo,find_leaseId hfind]
    by_cases hl : l = leaseId
    · subst hl
      simp [hfind,remove]
    · simp [hl]

theorem hasKey_grant {leaseId ttl : Int} (hfresh : m.leaseExists leaseId = false) {l : Int} :
    (m.grant leaseId ttl).HasKey l k ↔ m.HasKey l k := by
  unfold HasKey
  rw [find_grant]
  by_cases hl : l = leaseId
  · subst hl
    have hnone : m.find l = none := by simpa [leaseExists] using hfresh
    simp [hnone]
  · simp [hl]

theorem hasKey_eraseLease {l : Int} : (m.eraseLease leaseId).2.HasKey l k ↔ l ≠ leaseId ∧ m.HasKey l k := by
  unfold HasKey
  rw [find_eraseLease]
  by_cases hl : l = leaseId
  · simp [hl]
  · simp [hl]

/-- A key is in the set of one lease and of no other; zero stands for none. -/
def HeldBy (m : LeaseManager) (key : Bytes) (lease : Int) : Prop := ∀ l, m.HasKey l key ↔ l = lease ∧ l ≠ 0

namespace HeldBy

variable {m m' : LeaseManager} {key : Bytes} {lease : Int}

theorem leaseExists (h : m.HeldBy key lease) (hne : lease ≠ 0) : m.leaseExists lease = true :=
  ((h lease).mpr ⟨rfl,hne⟩).leaseExists

theorem congr (h : m.HeldBy key lease) (hsame : ∀ l, m'.HasKey l key ↔ m.HasKey l key) : m'.HeldBy key lease :=
  fun l => (hsame l).trans (h l)

theorem detach (h : m.HeldBy key lease) : (m.detachKey lease key).HeldBy key 0 := by
  intro l
  rw [hasKey_detachKey,h l]
  constructor
  · intro hl
    exact absurd ⟨hl.1.1,rfl⟩ hl.2
  · intro hl
    exact absurd hl.1 hl.2

theorem detach_of_none (h : m.HeldBy key 0) (l : Int) : (m.detachKey l key).HeldBy key 0 := by
  refine h.congr fun l' => ?_
  rw [hasKey_detachKey,and_iff_left_iff_imp]
  intro hl
  exact absurd ((h l').mp hl).1 ((h l').mp hl).2

theorem attach (h : m.HeldBy key 0) (hexists : m.leaseExists lease = true) (hne : lease ≠ 0) :
    (m.attachKey lease key).2.HeldBy key lease := by
  intro l
  rw [hasKey_attachKey,h l]
  constructor
  · intro hl
    rcases hl with hl | hl
    · exact absurd hl.1 hl.2
    · exact ⟨hl.1,hl.1 ▸ hne⟩
  · intro hl
    exact Or.inr ⟨hl.1,rfl,hexists⟩

theorem erase (h : m.HeldBy key lease) : (m.eraseLease lease).2.HeldBy key 0 := by
  intro l
  rw [hasKey_eraseLease,h l]
  constructor
  · intro hl
    exact absurd hl.2.1 hl.1
  · intro hl
    exact absurd hl.1 hl.2

end HeldBy

theorem hasKey_attachKey_of_ne (hk : k ≠ key) (lease l : Int) :
    (m.attachKey lease key).2.HasKey l k ↔ m.HasKey l k := by
  rw [hasKey_attachKey]
  simp [hk]

theorem hasKey_detachKey_of_ne (hk : k ≠ key) (lease l : Int) : (m.detachKey lease key).HasKey l k ↔ m.HasKey l k := by
  rw [hasKey_detachKey]
  simp [hk]

end LeaseManager

end Datasystem.Metastore
