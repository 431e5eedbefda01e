/-!
# Operation status

Functions whose result is only meaningful on success return it through `Except Status`.
-/

namespace Datasystem

inductive StatusCode where
  | ok
  | invalid
  | notFound
  | tryAgain
  | notReady
  | runtimeError
  | kvstoreError
  | ioError
  | notFoundInL2Cache
  | unknownError
  | duplicated
  | workerTimeout
  | ocAlreadySealed
  | ocKeyAlreadyExist
  | noAvailableWorker
deriving DecidableEq, Repr

structure Status where
  code : StatusCode
  msg : String
deriving DecidableEq, Repr

namespace Status

def success : Status := ⟨.ok,""⟩

def isOk (s : Status) : Bool := s.code = .ok

end Status

def checkFailReturnStatus (condition : Bool) (code : StatusCode) (msg : String) : Except Status Unit :=
  if condition then .ok () else .error ⟨code,msg⟩

@[simp] theorem checkFailReturnStatus_eq_ok {condition : Bool} {code : StatusCode} {msg : String}
    {u : Unit} : checkFailReturnStatus condition code msg = .ok u ↔ condition = true := by
  cases condition <;> simp [checkFailReturnStatus]

theorem Except.bind_eq_ok {ε α β : Type} {x : Except ε α} {f : α → Except ε β} {b : β} :
    (x >>= f) = .ok b ↔ ∃ a, x = .ok a ∧ f a = .ok b := by
  cases x with
  | error e => exact ⟨(fun h => by cases h),(fun ⟨_,h,_⟩ => by cases h)⟩
  | ok a =>
    constructor
    · intro h
      exact ⟨a,rfl,h⟩
    · rintro ⟨_,ha,hf⟩
      cases ha
      exact hf

theorem Except.forM_eq_ok {ε α : Type} {f : α → Except ε Unit} {l : List α}
    (h : ∀ a ∈ l, f a = .ok ()) : l.forM f = .ok () := by
  induction l with
  | nil => rfl
  | cons a l ih =>
    change (f a >>= fun _ => l.forM f) = .ok ()
    rw [h a List.mem_cons_self]
    exact ih fun x hx => h x (List.mem_cons_of_mem _ hx)

end Datasystem
