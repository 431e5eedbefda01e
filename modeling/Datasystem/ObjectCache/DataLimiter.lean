import Datasystem.Lib.Machine

/-!
# The data limiter

`WaitAllow` gives its lock back only while it sleeps, so a call is one step when it begins and one each time it wakes
up. A call for more than the cap raises the cap and at its end puts back the one it found. Numbers are unsigned with 64
bits, and the clock is steady.
-/

namespace Datasystem.ObjectCache

open List

/-- A call of `WaitAllow` that sleeps. -/
structure WaitingCall where
  requiredSize : Nat
  originalMax : Nat
  needRestore : Bool
deriving DecidableEq

structure DataLimiter where
  rate : Nat
  tokens : Nat
  maxTokenSize : Nat
  timestamp : Nat
  waiting : List WaitingCall
  /-- all the tokens granted, and how often tokens have been refilled -/
  granted : Nat
  refills : Nat

inductive LimiterEvent where
  | waitAllow (requiredSize now : Nat)
  | wakeUp (call : WaitingCall) (now : Nat)
  | updateRate (rate : Nat)
  | estimateWaitMilliseconds (now : Nat)

namespace DataLimiter

variable (l : DataLimiter) (now : Nat)

def uint64Max : Nat := 2 ^ 64 - 1

def newTokens : Nat :=
  let elapsed := now - l.timestamp
  (if l.rate ≤ uint64Max / (if elapsed = 0 then 1 else elapsed) then l.rate * elapsed else uint64Max) / 1000 + 1

def refill : DataLimiter :=
  let sum := (l.newTokens now + l.tokens) % 2 ^ 64
  let tokens := if l.tokens < sum then sum else uint64Max
  { l with
    tokens := if l.maxTokenSize < tokens then l.maxTokenSize else tokens
    timestamp := now
    refills := l.refills + 1 }

def waitMilliseconds (requiredSize : Nat) : Nat :=
  if requiredSize ≤ l.tokens then 0
  else if l.rate = 0 then uint64Max
  else ((requiredSize - l.tokens) * 1000 % 2 ^ 64 / l.rate + 1) % 2 ^ 64

/-- A call gets its tokens and ends, or goes to sleep. -/
def take (call : WaitingCall) : DataLimiter :=
  if l.tokens < call.requiredSize then { l with waiting := call :: l.waiting }
  else { l with
    tokens := l.tokens - call.requiredSize
    maxTokenSize := if call.needRestore then call.originalMax else l.maxTokenSize
    granted := l.granted + call.requiredSize }

/-- One round of the loop of a call. -/
def attempt (call : WaitingCall) : DataLimiter :=
  (if l.tokens < call.requiredSize then l.refill now else l).take call

def step : LimiterEvent → Option DataLimiter
  | .waitAllow requiredSize now =>
    let call := ⟨requiredSize,l.maxTokenSize,l.maxTokenSize < requiredSize⟩
    some ({ l with maxTokenSize := max l.maxTokenSize requiredSize }.attempt now call)
  | .wakeUp call now =>
    if call ∈ l.waiting then some ({ l with waiting := l.waiting.erase call }.attempt now call) else none
  | .updateRate rate => some { l with rate }
  | .estimateWaitMilliseconds now => some (l.refill now)

def machine (rate cap start : Nat) : Machine DataLimiter LimiterEvent := ⟨⟨rate,rate,cap,start,[],0,0⟩,step⟩

variable {l now} {cap top rate start maxTokenSize requiredSize : Nat} {calls : List WaitingCall} {c : WaitingCall}

/-! ## What is granted -/

/-- The clock does not go back, and no rate is above the given one. -/
def Within (top : Nat) (l : DataLimiter) : LimiterEvent → Prop
  | .waitAllow _ now | .wakeUp _ now | .estimateWaitMilliseconds now => l.timestamp ≤ now
  | .updateRate rate => rate ≤ top

/-- The tokens come from the product of the rate and the time, or from the largest number where it does not fit. -/
theorem newTokens_eq (l : DataLimiter) (now : Nat) : ∃ x < 2 ^ 64, l.newTokens now = x / 1000 + 1 ∧
    (l.rate < 2 ^ 64 → x ≤ l.rate * (now - l.timestamp)) ∧ (x = l.rate * (now - l.timestamp) ∨ x = uint64Max) := by
  rw [newTokens]
  generalize now - l.timestamp = elapsed
  split_ifs with hzero hfits hfits
  · exact ⟨_,by simp [hzero],rfl,fun _ => le_rfl,Or.inl rfl⟩
  · refine ⟨_,by simp [uint64Max],rfl,fun hrate => absurd ?_ hfits,Or.inr rfl⟩
    rw [Nat.div_one,uint64Max]
    omega
  · rw [Nat.le_div_iff_mul_le (Nat.pos_of_ne_zero hzero),uint64Max] at hfits
    exact ⟨_,by omega,rfl,fun _ => le_rfl,Or.inl rfl⟩
  · rw [Nat.le_div_iff_mul_le (Nat.pos_of_ne_zero hzero),not_le] at hfits
    exact ⟨_,by simp [uint64Max],rfl,fun _ => hfits.le,Or.inr rfl⟩

theorem refill_tokens_le (l : DataLimiter) (now : Nat) : (l.refill now).tokens ≤ l.newTokens now + l.tokens := by
  obtain ⟨x,_,hnew,_⟩ := l.newTokens_eq now
  simp only [refill,uint64Max]
  split_ifs <;> omega

/-- What has been granted and what is there came at the start or with time. -/
structure Spent (rate start top : Nat) (l : DataLimiter) : Prop where
  rate_le : l.rate ≤ top
  start_le : start ≤ l.timestamp
  top_lt : top < 2 ^ 64
  spent : 1000 * (l.granted + l.tokens) ≤ 1000 * (rate + l.refills) + top * (l.timestamp - start)

theorem Spent.refill (h : l.Spent rate start top) (hnow : l.timestamp ≤ now) : (l.refill now).Spent rate start top := by
  refine ⟨h.rate_le,h.start_le.trans hnow,h.top_lt,?_⟩
  obtain ⟨x,_,hnew,hx,_⟩ := l.newTokens_eq now
  have htokens := l.refill_tokens_le now
  have hspent := h.spent
  have hstart := h.start_le
  have htime : top * (now - start) = top * (l.timestamp - start) + top * (now - l.timestamp) := by
    rw [← Nat.mul_add]
    congr 1
    omega
  have hprod : x ≤ top * (now - l.timestamp) :=
    (hx (h.rate_le.trans_lt h.top_lt)).trans (Nat.mul_le_mul_right _ h.rate_le)
  simp only [DataLimiter.refill] at htokens ⊢
  omega

theorem Spent.take (h : l.Spent rate start top) : (l.take c).Spent rate start top := by
  rw [DataLimiter.take]
  split
  · exact { h with }
  · have hspent := h.spent
    exact { h with spent := by dsimp only; omega }

theorem Spent.attempt (h : l.Spent rate start top) (hnow : l.timestamp ≤ now) :
    (l.attempt now c).Spent rate start top := by
  rw [DataLimiter.attempt]
  split_ifs
  · exact (h.refill hnow).take
  · exact h.take

/-- In every run the calls together get no more than what was there at the start, the highest rate times the time, and
one token for each refill. -/
theorem limiter_grants_within_rate (hrate : rate ≤ top) (htop : top < 2 ^ 64)
    (hreach : (machine rate cap start).ReachableBy (Within top) l) :
    1000 * l.granted ≤ 1000 * (rate + l.refills) + top * (l.timestamp - start) := by
  have hinv : l.Spent rate start top := by
    refine hreach.invariant (P := Spent rate start top) ⟨hrate,le_rfl,htop,by simp [machine]⟩ ?_
    intro l e l' h hwithin hstep
    cases e with
    | waitAllow requiredSize now =>
      cases hstep
      exact Spent.attempt { h with } hwithin
    | wakeUp call now =>
      simp only [machine,step] at hstep
      split_ifs at hstep with hmem
      cases hstep
      exact Spent.attempt { h with } hwithin
    | updateRate rate =>
      cases hstep
      exact { h with rate_le := hwithin }
    | estimateWaitMilliseconds now =>
      cases hstep
      exact h.refill hwithin
  have hspent := hinv.spent
  omega

theorem limiter_grants_within_rate_slept : ∃ l, (machine 10 10 0).ReachableBy (Within 10) l ∧ l.granted = 15 ∧
    1000 * l.granted ≤ 1000 * (10 + l.refills) + 10 * l.timestamp := by
  have hbegin : (machine 10 10 0).ReachableBy (Within 10) _ := .step (a := .waitAllow 15 0) .init le_rfl rfl
  have hwoken := hbegin.step (a := LimiterEvent.wakeUp ⟨15,10,true⟩ 401) (Nat.zero_le 401) rfl
  exact ⟨_,hwoken,rfl,limiter_grants_within_rate le_rfl (by norm_num) hwoken⟩

/-! ## Calls that sleep -/

/-- A call for more than the configured cap begins only while no other such call sleeps. -/
def Alone (cap : Nat) (l : DataLimiter) : LimiterEvent → Prop
  | .waitAllow requiredSize _ => requiredSize ≤ cap ∨ ∀ c ∈ l.waiting, c.requiredSize ≤ cap
  | _ => True

/-- At most one of the calls has raised the cap, and that one knows the configured cap. -/
structure RaisedOnce (cap maxTokenSize : Nat) (calls : List WaitingCall) : Prop where
  small : ∀ c ∈ calls, c.needRestore = false → c.requiredSize ≤ cap
  large : ∀ c ∈ calls, c.needRestore = true →
    cap < c.requiredSize ∧ c.requiredSize = maxTokenSize ∧ c.originalMax = cap
  once : calls.Pairwise fun c d => c.needRestore = false ∨ d.needRestore = false
  back : (∀ c ∈ calls, c.needRestore = false) → maxTokenSize = cap

theorem RaisedOnce.of_erase (hc : c ∈ calls) (h : RaisedOnce cap maxTokenSize calls) :
    RaisedOnce cap maxTokenSize (c :: calls.erase c) := by
  have hperm := perm_cons_erase hc
  refine ⟨?_,?_,(hperm.pairwise_iff fun {_ _} hcd => hcd.symm).mp h.once,?_⟩
  · exact fun d hd => h.small d (hperm.mem_iff.mpr hd)
  · exact fun d hd => h.large d (hperm.mem_iff.mpr hd)
  · exact fun hall => h.back fun d hd => hall d (hperm.mem_iff.mp hd)

theorem RaisedOnce.begin (h : RaisedOnce cap maxTokenSize calls)
    (halone : requiredSize ≤ cap ∨ ∀ c ∈ calls, c.requiredSize ≤ cap) :
    RaisedOnce cap (max maxTokenSize requiredSize)
      (⟨requiredSize,maxTokenSize,maxTokenSize < requiredSize⟩ :: calls) := by
  obtain ⟨hsmall,hlarge,honce,hback⟩ := h
  have hle : cap ≤ maxTokenSize := by grind
  -- a call for more than the cap finds no raised one, hence the configured cap
  have hnone : cap < requiredSize → ∀ c ∈ calls, c.needRestore = false := by grind
  by_cases hlt : maxTokenSize < requiredSize
  · have hnone := hnone (by omega)
    simp only [hlt,decide_true,max_eq_right hlt.le]
    refine ⟨by grind,by grind,pairwise_cons.mpr ⟨fun c hc => Or.inr (hnone c hc),honce⟩,by simp⟩
  · simp only [hlt,decide_false,max_eq_left (not_lt.mp hlt)]
    refine ⟨by grind,by grind,pairwise_cons.mpr ⟨fun c hc => Or.inl rfl,honce⟩,by grind⟩

theorem RaisedOnce.finish (h : RaisedOnce cap maxTokenSize (c :: calls)) :
    RaisedOnce cap (if c.needRestore then c.originalMax else maxTokenSize) calls := by
  obtain ⟨hsmall,hlarge,honce,hback⟩ := h
  obtain ⟨hother,honce⟩ := pairwise_cons.mp honce
  refine ⟨?_,?_,honce,?_⟩ <;> grind

theorem RaisedOnce.take (h : RaisedOnce cap l.maxTokenSize (c :: l.waiting)) :
    RaisedOnce cap (l.take c).maxTokenSize (l.take c).waiting := by
  rw [DataLimiter.take]
  split
  · exact h
  · exact h.finish

theorem RaisedOnce.attempt (h : RaisedOnce cap l.maxTokenSize (c :: l.waiting)) :
    RaisedOnce cap (l.attempt now c).maxTokenSize (l.attempt now c).waiting := by
  rw [DataLimiter.attempt]
  split
  · exact RaisedOnce.take h
  · exact h.take

theorem raisedOnce_of_alone (hreach : (machine rate cap start).ReachableBy (Alone cap) l) :
    RaisedOnce cap l.maxTokenSize l.waiting := by
  refine hreach.invariant (P := fun l => RaisedOnce cap l.maxTokenSize l.waiting)
    ⟨by simp [machine],by simp [machine],by simp [machine],fun _ => rfl⟩ ?_
  intro l e l' h halone hstep
  cases e with
  | waitAllow requiredSize now =>
    cases hstep
    exact RaisedOnce.attempt (h.begin halone)
  | wakeUp call now =>
    simp only [machine,step] at hstep
    split_ifs at hstep with hmem
    cases hstep
    exact RaisedOnce.attempt (h.of_erase hmem)
  | updateRate rate =>
    cases hstep
    exact h
  | estimateWaitMilliseconds now =>
    cases hstep
    exact h

/-- Tokens come in the time that a call sleeps, unless the product of its computation wraps around. -/
theorem refill_suffices (hcap : requiredSize ≤ l.maxTokenSize) (hsize : requiredSize < 2 ^ 64) (hrate : 0 < l.rate)
    (hshort : l.tokens < requiredSize) (hfits : (requiredSize - l.tokens) * 1000 < 2 ^ 64)
    (hwait : l.waitMilliseconds requiredSize ≤ now - l.timestamp) : requiredSize ≤ (l.refill now).tokens := by
  obtain ⟨x,hlt,hnew,_,hx⟩ := l.newTokens_eq now
  have hdiv := Nat.div_le_self ((requiredSize - l.tokens) * 1000) l.rate
  rw [waitMilliseconds,if_neg (not_le.mpr hshort),if_neg hrate.ne',Nat.mod_eq_of_lt hfits,
    Nat.mod_eq_of_lt (by omega)] at hwait
  have hlong := (Nat.lt_mul_div_succ ((requiredSize - l.tokens) * 1000) hrate).trans_le (Nat.mul_le_mul_left _ hwait)
  have henough : requiredSize - l.tokens ≤ x / 1000 + 1 := by
    rcases hx with rfl | rfl
    · omega
    · rw [uint64Max]
      omega
  simp only [refill,hnew,uint64Max]
  split_ifs <;> omega

/-- Unless calls for more than the cap overlap, the cap is the configured one whenever no call sleeps, and a call that
has slept as long as it meant to gets its tokens. -/
theorem limiter_serves_of_alone (hreach : (machine rate cap start).ReachableBy (Alone cap) l) :
    (l.waiting = [] → l.maxTokenSize = cap) ∧ ∀ c ∈ l.waiting, c.requiredSize < 2 ^ 64 → 0 < l.rate →
      (c.requiredSize - l.tokens) * 1000 < 2 ^ 64 → ∀ now, l.waitMilliseconds c.requiredSize ≤ now - l.timestamp →
        (l.step (.wakeUp c now)).map granted = some (l.granted + c.requiredSize) := by
  obtain ⟨hsmall,hlarge,honce,hback⟩ := raisedOnce_of_alone hreach
  refine ⟨fun hnil => hback (by simp [hnil]),?_⟩
  intro c hc hsize hrate hfits now hwait
  have hcap : c.requiredSize ≤ l.maxTokenSize := by grind
  rw [step,if_pos hc,attempt]
  by_cases hshort : l.tokens < c.requiredSize
  · have hrefill := refill_suffices hcap hsize hrate hshort hfits hwait
    have henough : ¬ ({ l with waiting := l.waiting.erase c }.refill now).tokens < c.requiredSize := not_lt.mpr hrefill
    rw [if_pos hshort,take,if_neg henough]
    rfl
  · rw [if_neg hshort,take,if_neg hshort]
    rfl

theorem limiter_serves_of_alone_large_call : ∃ l, (machine 10 10 0).ReachableBy (Alone 10) l ∧
    (l.step (.wakeUp ⟨15,10,true⟩ 401)).map granted = some 15 := by
  have hbegin : (machine 10 10 0).ReachableBy (Alone 10) _ :=
    .step (a := .waitAllow 15 0) .init (Or.inr (by simp [machine])) rfl
  refine ⟨_,hbegin,(limiter_serves_of_alone hbegin).2 ⟨15,10,true⟩ ?_ ?_ ?_ ?_ 401 ?_⟩ <;> decide

-- The call for 30 tokens found the cap of the call for 20, which ends first and puts the configured cap back.
example : ((machine 10 10 0).run (machine 10 10 0).init [.waitAllow 20 0,.waitAllow 30 0,.wakeUp ⟨20,10,true⟩ 1000]).map
    (fun l => (l.maxTokenSize, l.waiting)) = some (10, [⟨30,20,true⟩]) := by
  decide

end DataLimiter

end Datasystem.ObjectCache
