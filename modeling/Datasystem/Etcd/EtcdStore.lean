import Datasystem.Lib.Bytes
import Datasystem.Lib.Keyed
import Datasystem.Lib.Machine
import Datasystem.Lib.Prog
import Datasystem.Lib.VersionedCell
import Datasystem.Status

/-!
# Compare and swap on etcd

The result of the read is kept in one variable over all attempts, and a read that finds no key leaves it
alone.
-/

namespace Datasystem.Etcd

open Bytes VersionedCell Act

variable {ν τ : Type}

/-- What the function of the caller decides: a new value, nothing to write, or an error that is
worth another attempt or not. -/
inductive ProcessResult (ν : Type) where
  | write (newValue : ν)
  | nothing
  | fails (e : Status) (retry : Bool)
deriving DecidableEq, Repr

/-- The requests of a client, and the calls of the function that its caller has given it. -/
inductive EtcdOp (ν : Type) where
  | range (key : Bytes)
  | rangeAll
  | txn (key : Bytes) (version : Nat) (value : ν)
  | deleteRange (key : Bytes)
  | processFunc (value : ν)
deriving DecidableEq, Repr

/-- An error is one of the request itself; that a key is absent is an answer. -/
def EtcdOp.Res : EtcdOp ν → Type
  | .range _ => Except Status (VersionedCell ν)
  | .rangeAll => Except Status (List (Bytes × ν))
  | .txn _ _ _ => Except Status Nat
  | .deleteRange _ => Except Status Bool
  | .processFunc _ => ProcessResult ν

/-- A computation of a client with local variables of type `τ`. -/
abbrev EtcdAct (ν τ α : Type) := Act (EtcdOp ν) EtcdOp.Res Status τ α

structure RangeSearchResult (ν : Type) where
  value : ν
  modRevision : Nat := 0
  version : Nat := 0
deriving DecidableEq, Repr

/-- `ParseKeyValue` of what was found; otherwise the result stays as it is. -/
def RangeSearchResult.parse (res : RangeSearchResult ν) : VersionedCell ν → RangeSearchResult ν
  | none => res
  | some kv => ⟨kv.value,kv.modRevision,kv.version⟩

def casErrorMaxRetryNum : Nat := 10

structure Server (ν : Type) where
  entries : List (Bytes × Versioned ν) := []
  revision : Nat := 1
  sorted : Keyed.Sorted Prod.fst entries := by simp [Keyed.Sorted]

namespace Server

variable (s : Server ν)

def cell (key : Bytes) : VersionedCell ν := (Keyed.lookup Prod.fst key s.entries).map Prod.snd

def put (key : Bytes) (value : ν) : Server ν :=
  ⟨Keyed.upsert Prod.fst (key, ⟨value,version (s.cell key) + 1,s.revision + 1⟩) s.entries,
    s.revision + 1,s.sorted.upsert _⟩

def delete (key : Bytes) : Server ν := ⟨Keyed.remove Prod.fst key s.entries,s.revision + 1,s.sorted.remove key⟩

@[simp] theorem cell_put (key : Bytes) (value : ν) (k : Bytes) : (s.put key value).cell k =
      if k = key then VersionedCell.put (s.cell key) value (s.revision + 1) else s.cell k := by
  rw [cell,put,Keyed.lookup_upsert]
  split_ifs <;> rfl

@[simp] theorem cell_delete (key k : Bytes) : (s.delete key).cell k = if k = key then none else s.cell k := by
  rw [cell,delete,Keyed.lookup_remove]
  split_ifs <;> rfl

/-- The answer to a request; a call of the caller's function is none. -/
def answer : (o : EtcdOp ν) → Option (o.Res × Server ν)
  | .range key => some (.ok (s.cell key), s)
  | .rangeAll => some (.ok (s.entries.map fun e => (e.1, e.2.value)), s)
  | .txn key v value =>
    if version (s.cell key) = v then some (.ok (s.revision + 1), s.put key value)
    else some (.error ⟨.tryAgain,
      "Transaction comparison failed, maybe need to update req and try again"⟩, s)
  | .deleteRange key => some (.ok (s.cell key).isSome, s.delete key)
  | .processFunc _ => none

/-- A request fails with an error, before or after the server has performed it. -/
def failure (e : Status) (performed : Bool) : (o : EtcdOp ν) → Option (o.Res × Server ν)
  | .range _ => some (.error e, s)
  | .rangeAll => some (.error e, s)
  | .txn key v value =>
    if performed && version (s.cell key) = v then some (.error e, s.put key value)
    else some (.error e, s)
  | .deleteRange key => if performed then some (.error e, s.delete key) else some (.error e, s)
  | .processFunc _ => none

end Server

def rawGet (key : Bytes) : EtcdAct ν τ (Except Status (VersionedCell ν)) := ask (EtcdOp.range key)

/-- `DoTransaction`: put the value if the key has the version. -/
def doTransaction (key : Bytes) (version : Nat) (value : ν) : EtcdAct ν τ (Except Status Nat) :=
  ask (EtcdOp.txn key version value)

def callProcessFunc (value : ν) : EtcdAct ν τ (ProcessResult ν) := ask (EtcdOp.processFunc value)

section Cas

variable (key : Bytes)

/-- What follows the function of the caller: a transaction on the version read, and another attempt
when it does not go through. -/
def casCommit (again : RangeSearchResult ν → Status → EtcdAct ν τ (RangeSearchResult ν))
    (res : RangeSearchResult ν) : ProcessResult ν → EtcdAct ν τ (RangeSearchResult ν)
  | .fails e retry => if retry then again res e else .fail e
  | .nothing => .ret res
  | .write newValue =>
    Act.bind (doTransaction key res.version newValue) fun
      | .error e => again res e
      | .ok revision => .ret { res with modRevision := revision }

def casLoop (processFunc : ν → EtcdAct ν τ (ProcessResult ν)) :
    Nat → RangeSearchResult ν → Status → EtcdAct ν τ (RangeSearchResult ν)
  | 0, _, lastErr => .fail lastErr
  | n + 1, res, _ =>
    Act.bind (rawGet key) fun
      | .error e => .fail e
      | .ok found =>
        Act.bind (processFunc (res.parse found).value)
          (casCommit key (casLoop processFunc n) (res.parse found))

def cas [Inhabited ν] (processFunc : ν → EtcdAct ν τ (ProcessResult ν)) : EtcdAct ν τ (RangeSearchResult ν) :=
  casLoop key processFunc casErrorMaxRetryNum ⟨default,0,0⟩ .success

end Cas

section Rules

variable {σ γ : Type} {c : Prog.Contract (EtcdOp ν) EtcdOp.Res σ γ} {E : Status → τ → σ → γ → Prop}
  {t : τ} {s : σ} {g : γ}

theorem wp_rawGet {key : Bytes} {Q : Except Status (VersionedCell ν) → τ → σ → γ → Prop} :
    wp c Q E (rawGet key) t s g ↔ ∀ s₁ g₁, c.env s g s₁ g₁ → c.keeps (.range key) s₁ g₁ ∧
        ∀ (r : Except Status (VersionedCell ν)) s₂, c.step (.range key) s₁ r s₂ →
          ∃ g₂, c.moves (.range key) s₁ g₁ s₂ g₂ ∧ Q r t s₂ g₂ := Iff.rfl

theorem wp_doTransaction {key : Bytes} {v : Nat} {value : ν} {Q : Except Status Nat → τ → σ → γ → Prop} :
    wp c Q E (doTransaction key v value) t s g ↔ ∀ s₁ g₁, c.env s g s₁ g₁ → c.keeps (.txn key v value) s₁ g₁ ∧
        ∀ (r : Except Status Nat) s₂, c.step (.txn key v value) s₁ r s₂ →
          ∃ g₂, c.moves (.txn key v value) s₁ g₁ s₂ g₂ ∧ Q r t s₂ g₂ := Iff.rfl

theorem wp_callProcessFunc {value : ν} {Q : ProcessResult ν → τ → σ → γ → Prop} :
    wp c Q E (callProcessFunc value) t s g ↔ ∀ s₁ g₁, c.env s g s₁ g₁ → c.keeps (.processFunc value) s₁ g₁ ∧
        ∀ (r : ProcessResult ν) s₂, c.step (.processFunc value) s₁ r s₂ →
          ∃ g₂, c.moves (.processFunc value) s₁ g₁ s₂ g₂ ∧ Q r t s₂ g₂ := Iff.rfl

end Rules

abbrev CasProg := Prog (EtcdOp Bytes) EtcdOp.Res (Except Status (RangeSearchResult Bytes) × Unit)

/-- A call of `CAS` on a key. `lastRead` is what the read of the current attempt has found. -/
structure CasSystem where
  server : Server Bytes
  lastRead : Option (VersionedCell Bytes) := none
  call : CasProg

inductive CasEvent where
  | put (key value : Bytes)
  | delete (key : Bytes)
  | work
  | requestFails (e : Status) (performed : Bool)
  | processed (r : ProcessResult Bytes)

namespace CasSystem

/-- The call with a function of its caller that may do anything. -/
def start (key : Bytes) (server : Server Bytes) : CasSystem where
  server := server
  call := cas key callProcessFunc ()

/-- What was read last, after an operation. -/
def noteRead (server : Server Bytes) (lastRead : Option (VersionedCell Bytes)) :
    EtcdOp Bytes → Option (VersionedCell Bytes)
  | .range key => some (server.cell key)
  | _ => lastRead

def step (s : CasSystem) : CasEvent → Option CasSystem
  | .put key value => some { s with server := s.server.put key value }
  | .delete key => some { s with server := s.server.delete key }
  | .work =>
    match s.call with
    | .pure _ => none
    | .op o k => (s.server.answer o).map fun r => ⟨r.2,noteRead s.server s.lastRead o,k r.1⟩
  | .requestFails e performed =>
    match s.call with
    | .pure _ => none
    | .op o k =>
      (s.server.failure e performed o).map fun r => ⟨r.2,noteRead s.server s.lastRead o,k r.1⟩
  | .processed r =>
    match s.call with
    | .op (.processFunc _) k => some { s with call := k r }
    | _ => none

def machine (key : Bytes) (server : Server Bytes) : Machine CasSystem CasEvent := ⟨start key server,step⟩

def valueOf (c : VersionedCell Bytes) : Bytes := c.elim [] Versioned.value

/-- The function of the caller is about to get the value that the key had at the read of the attempt. -/
def ProcessesValueRead (s : CasSystem) : Prop :=
  ∀ value k, s.call = .op (.processFunc value) k → ∃ c, s.lastRead = some c ∧ value = valueOf c

/-- A transaction that would go through finds the key as the attempt has read it. -/
def CommitsUnchanged (s : CasSystem) (key : Bytes) : Prop :=
  ∀ v value k, s.call = .op (.txn key v value) k → version (s.server.cell key) = v →
    s.lastRead = some (s.server.cell key)

/-- Nobody takes the key away once the call has read it. -/
def KeepsKey (key : Bytes) (s : CasSystem) : CasEvent → Prop
  | .delete k => k = key → s.lastRead = none ∨ s.server.cell key = none
  | _ => True

def Holds (res : RangeSearchResult Bytes) (c : VersionedCell Bytes) : Prop :=
  res.value = valueOf c ∧ res.version = version c

/-- Others put to the key, and do anything before it is read. -/
def contract (key : Bytes) :
    Prog.Contract (EtcdOp Bytes) EtcdOp.Res (Server Bytes × Option (VersionedCell Bytes)) Unit where
  env s _ s' _ := s'.2 = s.2 ∧ (s.2 ≠ none → PutsTo (s.1.cell key) (s'.1.cell key))
  step o s r s' := s'.2 = noteRead s.1 s.2 o ∧
    (s.1.answer o = some (r, s'.1) ∨ (∃ e performed, s.1.failure e performed o = some (r, s'.1)) ∨
      (∃ value, o = .processFunc value) ∧ s'.1 = s.1)
  keeps o s _ :=
    (∀ value, o = .processFunc value → ∃ c, s.2 = some c ∧ value = valueOf c) ∧
    ∀ v value, o = .txn key v value → version (s.1.cell key) = v → s.2 = some (s.1.cell key)
  moves _ _ _ _ _ := True

/-- What the result variable has to do with the key between two attempts. -/
structure Ready (key : Bytes) (res : RangeSearchResult Bytes) (server : Server Bytes)
    (lastRead : Option (VersionedCell Bytes)) : Prop where
  first : lastRead = none → Holds res none
  later : ∀ c, lastRead = some c → Holds res c ∧ PutsTo c (server.cell key)

variable {res : RangeSearchResult Bytes} {key : Bytes}

theorem Ready.env {server server' : Server Bytes} {lastRead lastRead' : Option (VersionedCell Bytes)}
    (h : Ready key res server lastRead) (henv : (contract key).env (server, lastRead) () (server', lastRead') ()) :
    Ready key res server' lastRead' := by
  obtain ⟨hlast,hputs⟩ := henv
  dsimp only at hlast hputs
  subst hlast
  refine ⟨h.first,?_⟩
  intro c hc
  obtain ⟨hholds,hc'⟩ := h.later c hc
  exact ⟨hholds,hc'.trans (hputs (by simp [hc]))⟩

variable {server : Server Bytes}

/-- A read of the key leaves its value and version in the result variable: a key that is not found
has never been there, and neither has anything been read. -/
theorem Ready.parse {lastRead : Option (VersionedCell Bytes)} (h : Ready key res server lastRead) :
    Holds (res.parse (server.cell key)) (server.cell key) := by
  cases hcell : server.cell key with
  | some kv => exact ⟨rfl,rfl⟩
  | none =>
    cases hlast : lastRead with
    | none => exact h.first hlast
    | some c =>
      obtain ⟨hholds,hputs⟩ := h.later c hlast
      rw [hcell] at hputs
      rw [hputs.eq_none] at hholds
      exact hholds

theorem Ready.of_holds {c : VersionedCell Bytes} (hholds : Holds res c) (hputs : PutsTo c (server.cell key)) :
    Ready key res server (some c) := by
  refine ⟨by simp,?_⟩
  intro c' hc'
  exact Option.some.inj hc' ▸ ⟨hholds,hputs⟩

theorem putsTo_of_txn {server server' : Server Bytes} {v : Nat} {value : Bytes} {r : (EtcdOp.txn key v value).Res}
    (h : server.answer (.txn key v value) = some (r, server') ∨
      ∃ e performed, server.failure e performed (.txn key v value) = some (r, server')) :
    PutsTo (server.cell key) (server'.cell key) := by
  have hput : PutsTo (server.cell key) ((server.put key value).cell key) := by
    rw [Server.cell_put,if_pos rfl]
    exact PutsTo.refl.put _ _
  rcases h with h | ⟨e,performed,h⟩
  · rw [Server.answer] at h
    split_ifs at h
    · cases h
      exact hput
    · cases h
      exact .refl
  · rw [Server.failure] at h
    split_ifs at h
    · cases h
      exact hput
    · cases h
      exact .refl

theorem wp_casCommit {again : RangeSearchResult Bytes → Status →
      EtcdAct Bytes Unit (RangeSearchResult Bytes)} (hagain : ∀ res e server lastRead, Ready key res server lastRead →
      wp (contract key) (fun _ _ _ _ => True) (fun _ _ _ _ => True) (again res e) () (server, lastRead) ())
    {c : VersionedCell Bytes} (hholds : Holds res c) (hputs : PutsTo c (server.cell key)) (r : ProcessResult Bytes) :
    Act.wp (contract key) (fun _ _ _ _ => True) (fun _ _ _ _ => True) (casCommit key again res r) ()
      (server, some c) () := by
  cases r with
  | fails e retry =>
    cases retry with
    | true => exact hagain res e server (some c) (Ready.of_holds hholds hputs)
    | false => trivial
  | nothing => trivial
  | write newValue =>
    rw [casCommit,wp_bind',wp_doTransaction]
    rintro ⟨server₁,lastRead₁⟩ _ henv
    have hready := (Ready.of_holds hholds hputs).env henv
    obtain ⟨hlast,-⟩ := henv
    dsimp only at hlast
    subst hlast
    obtain ⟨-,hputs₁⟩ := hready.later c rfl
    refine ⟨⟨by simp,?_⟩,?_⟩
    · -- the version is the one read, so the key is as it was read
      intro v value ho hversion
      cases ho
      exact congrArg some (hputs₁.eq_of_version_eq (hversion.trans hholds.2)).symm
    · rintro r ⟨server₂,lastRead₂⟩ ⟨hnote,hstep⟩
      refine ⟨(),trivial,?_⟩
      cases r with
      | ok revision => trivial
      | error e =>
        dsimp only [noteRead] at hnote
        subst hnote
        apply hagain
        refine Ready.of_holds hholds (hputs₁.trans ?_)
        rcases hstep with h | h | ⟨⟨value,ho⟩,-⟩
        · exact putsTo_of_txn (Or.inl h)
        · exact putsTo_of_txn (Or.inr h)
        · cases ho

theorem wp_casLoop (key : Bytes) (n : Nat) : ∀ res e server lastRead, Ready key res server lastRead →
      wp (contract key) (fun _ _ _ _ => True) (fun _ _ _ _ => True)
        (casLoop key callProcessFunc n res e) () (server, lastRead) () := by
  induction n with
  | zero =>
    intros
    trivial
  | succ n ih =>
    intro res e server lastRead hready
    rw [casLoop.eq_def,wp_bind',wp_rawGet]
    rintro ⟨server₁,lastRead₁⟩ _ henv
    have hholds := (hready.env henv).parse
    refine ⟨⟨by simp,by simp⟩,?_⟩
    rintro r ⟨server₂,lastRead₂⟩ ⟨hnote,hstep⟩
    refine ⟨(),trivial,?_⟩
    cases r with
    | error e => trivial
    | ok found =>
      have hread : found = server₁.cell key ∧ server₂ = server₁ := by
        rcases hstep with h | ⟨e',performed,h⟩ | ⟨⟨value,ho⟩,-⟩
        · cases h
          exact ⟨rfl,rfl⟩
        · cases h
        · cases ho
      obtain ⟨rfl,rfl⟩ := hread
      dsimp only [noteRead] at hnote
      subst hnote
      dsimp only
      rw [wp_bind',wp_callProcessFunc]
      rintro ⟨server₃,lastRead₃⟩ _ ⟨hlast₃,hputs₃⟩
      dsimp only at hlast₃ hputs₃
      subst hlast₃
      refine ⟨⟨?_,by simp⟩,?_⟩
      · intro value ho
        cases ho
        exact ⟨_,rfl,hholds.1⟩
      · rintro r ⟨server₄,lastRead₄⟩ ⟨hnote,hstep⟩
        refine ⟨(),trivial,?_⟩
        have hsame : server₄ = server₃ := by
          rcases hstep with h | ⟨e',performed,h⟩ | ⟨-,h⟩
          · cases h
          · cases h
          · exact h
        dsimp only [noteRead] at hnote
        subst hsame hnote
        exact wp_casCommit ih hholds (hputs₃ (by simp)) r

/-- What the rest of the call still guarantees. -/
def Sound (key : Bytes) (s : CasSystem) : Prop :=
  s.call.wp (contract key) (fun _ _ _ => True) (s.server, s.lastRead) ()

theorem Sound.start (key : Bytes) (server : Server Bytes) : Sound key (start key server) :=
  Prog.wp_mono (fun _ _ _ _ => trivial)
    (wp_casLoop key casErrorMaxRetryNum ⟨[],0,0⟩ .success server none ⟨fun _ => ⟨rfl,rfl⟩,by simp⟩)

theorem contract_env_trans {s s' s'' : Server Bytes × Option (VersionedCell Bytes)} {g g' g'' : Unit}
    (h : (contract key).env s g s' g') (h' : (contract key).env s' g' s'' g'') : (contract key).env s g s'' g'' := by
  refine ⟨h'.1.trans h.1,?_⟩
  intro hread
  exact (h.2 hread).trans (h'.2 (h.1 ▸ hread))

theorem Sound.env {s : CasSystem} (h : Sound key s)
    (henv : s.lastRead ≠ none → PutsTo (s.server.cell key) (server.cell key)) :
    Sound key { s with server := server } := by
  unfold Sound at h ⊢
  cases hcall : s.call with
  | pure a => trivial
  | op o k =>
    rw [hcall] at h
    exact Prog.wp_op_env contract_env_trans h ⟨rfl,henv⟩

theorem Sound.op {s : CasSystem} (h : Sound key s) {o : EtcdOp Bytes} {k : o.Res → CasProg} (hcall : s.call = .op o k)
    {r : o.Res} (hstep : s.server.answer o = some (r, server) ∨
      (∃ e performed, s.server.failure e performed o = some (r, server)) ∨
      (∃ value, o = .processFunc value) ∧ server = s.server) :
    Sound key ⟨server,noteRead s.server s.lastRead o,k r⟩ := by
  unfold Sound at h ⊢
  rw [hcall] at h
  obtain ⟨-,hnext⟩ := h _ () ⟨rfl,fun _ => .refl⟩
  obtain ⟨_,-,hrest⟩ := hnext r (server, noteRead s.server s.lastRead o) ⟨rfl,hstep⟩
  exact hrest

theorem Sound.step {s s' : CasSystem} {a : CasEvent} (h : Sound key s) (hkeeps : KeepsKey key s a)
    (hstep : s.step a = some s') : Sound key s' := by
  cases a with
  | put k value =>
    cases hstep
    refine h.env fun _ => ?_
    rw [Server.cell_put]
    split_ifs with hk
    · rw [hk]
      exact PutsTo.refl.put _ _
    · exact .refl
  | delete k =>
    cases hstep
    refine h.env fun hread => ?_
    rw [Server.cell_delete]
    split_ifs with hk
    · rw [(hkeeps hk.symm).resolve_left hread]
      exact .refl
    · exact .refl
  | work =>
    unfold CasSystem.step at hstep
    cases hcall : s.call with
    | pure a => simp [hcall] at hstep
    | op o k =>
      simp only [hcall] at hstep
      obtain ⟨⟨r,server⟩,hanswer,rfl⟩ := Option.map_eq_some_iff.mp hstep
      exact h.op hcall (Or.inl hanswer)
  | requestFails e performed =>
    unfold CasSystem.step at hstep
    cases hcall : s.call with
    | pure a => simp [hcall] at hstep
    | op o k =>
      simp only [hcall] at hstep
      obtain ⟨⟨r,server⟩,hfailure,rfl⟩ := Option.map_eq_some_iff.mp hstep
      exact h.op hcall (Or.inr (Or.inl ⟨e,performed,hfailure⟩))
  | processed r =>
    simp only [CasSystem.step] at hstep
    split at hstep
    · rename_i value k hcall
      cases hstep
      exact h.op hcall (Or.inr (Or.inr ⟨⟨value,rfl⟩,rfl⟩))
    · cases hstep

/-- As long as nobody takes the key away once the call has read it, every attempt hands the value it has
read to the function of the caller, and a transaction goes through only on the key that was read. -/
theorem cas_on_key_read {key : Bytes} {server : Server Bytes} {s : CasSystem}
    (h : (machine key server).ReachableBy (KeepsKey key) s) :
    s.ProcessesValueRead ∧ s.CommitsUnchanged key := by
  have hsound : Sound key s := h.invariant (Sound.start key server) fun _ _ _ hs hkeeps hstep => hs.step hkeeps hstep
  unfold Sound at hsound
  constructor
  · intro value k hcall
    rw [hcall] at hsound
    exact (hsound _ () ⟨rfl,fun _ => .refl⟩).1.1 value rfl
  · intro v value k hcall hversion
    rw [hcall] at hsound
    exact (hsound _ () ⟨rfl,fun _ => .refl⟩).1.2 v value rfl hversion

def oneKey : Server Bytes := Server.put {} (ascii "k") (ascii "a")

/-- The key is deleted between two attempts: the second attempt finds no key and hands out the value
of the first. The key is deleted and created again between a read and its transaction: the
transaction goes through on a key that was never read. -/
theorem cas_on_other_key_after_delete : (∃ s, (machine (ascii "k") oneKey).Reachable s ∧ ¬ s.ProcessesValueRead) ∧
    ∃ s, (machine (ascii "k") oneKey).Reachable s ∧ ¬ s.CommitsUnchanged (ascii "k") := by
  constructor
  · have hrun : (machine (ascii "k") oneKey).run (start (ascii "k") oneKey)
        [.work,.processed (.write (ascii "x")),.put (ascii "k") (ascii "b"),.work,
          .delete (ascii "k"),.work] = some _ := rfl
    refine ⟨_,Machine.Reachable.run .init hrun,?_⟩
    intro h
    obtain ⟨c,hc,hvalue⟩ := h _ _ rfl
    obtain rfl : none = c := Option.some.inj hc
    revert hvalue
    decide
  · have hrun : (machine (ascii "k") oneKey).run (start (ascii "k") oneKey)
        [.work,.processed (.write (ascii "x")),.delete (ascii "k"),.put (ascii "k") (ascii "b")] =
        some _ := rfl
    refine ⟨_,Machine.Reachable.run .init hrun,?_⟩
    intro h
    have hsame := h _ _ _ rfl rfl
    revert hsame
    decide

/-- Another client puts to the key between the read and the transaction. -/
theorem cas_on_key_read_after_put : ∃ s, (machine (ascii "k") oneKey).ReachableBy (KeepsKey (ascii "k")) s ∧
      s.ProcessesValueRead ∧ s.CommitsUnchanged (ascii "k") ∧
      version (s.server.cell (ascii "k")) = 2 := by
  have hreach : (machine (ascii "k") oneKey).ReachableBy (KeepsKey (ascii "k")) _ :=
    .step (a := .put (ascii "k") (ascii "b"))
      (.step (a := .processed (.write (ascii "x"))) (.step (a := .work) .init trivial rfl) trivial rfl)
      trivial rfl
  exact ⟨_,hreach,(cas_on_key_read hreach).1,(cas_on_key_read hreach).2,rfl⟩

end CasSystem

end Datasystem.Etcd
