import Mathlib.Data.List.Basic
import Udmaio.Lib.Monitor
import Udmaio.Lib.Run

/-!
# `ConcurrentQueue`, step by step

Any number of threads call `pop` (with or without timeout), `push` and `abort` on one queue
(`inc/udmaio/ConcurrentQueue.hpp`), as often as they like.

* `QPc`           where a thread is.  Taking the mutex, each test and each change of the queue,
                  entering the wait set, giving the mutex back and `notify_one` are steps of their
                  own;
* `QState`        queue, `_abort`, mutex, wait set of the condition variable and the places of the
                  threads, with the logs `accepted` (items pushed), `results` (what `pop` returns,
                  items in the order of their removal) and `thrown`;
* `QAct`, `QState.step`   the actions.  `notify_one` takes any one member of the wait set, and none
                          only if it is empty; a waiting thread may wake up at any time without
                          notification; `wait_for` may report a timeout after any wake-up;
* `step_rule`     the rule by which an invariant is shown of every action.

An action that is not enabled changes nothing.
-/

namespace Udmaio
open Lib

/-- where a thread is; `timed`: its `pop` has a timeout.  `popTest` is at `while (_queue.empty())`,
`popAbort` at `if (_abort)`, `popEnter` before `wait` or `wait_for`, `popLeave` at a `return {}` and
`pushTest` at `if (_queue.size() >= _max_elems)`. -/
inductive QPc (T : Type) where
  | idle
  | popLock (timed : Bool)
  | popTest (timed : Bool)
  | popAbort (timed : Bool)
  | popEnter (timed : Bool)
  | waiting (timed : Bool)
  | woken (timed : Bool)
  | popLeave (timedOut : Bool)
  | popTake
  | popUnlock
  | popNotify
  | pushLock (item : T)
  | pushTest (item : T)
  | pushThrow
  | pushAppend (item : T)
  | pushUnlock
  | pushNotify
  | abortSet
  | abortNotify
deriving DecidableEq, Repr

/-- what `pop` returns; for the empty value also why, and what the queue holds at that time -/
inductive Ret (T : Type) where
  | item (v : T)
  | empty (timedOut : Bool) (left : List T)
deriving DecidableEq, Repr

def Ret.item? {T : Type} : Ret T → Option T
  | .item v => some v
  | .empty _ _ => none

inductive Call (T : Type) where
  | pop (timed : Bool)
  | push (item : T)
  | abort
deriving DecidableEq, Repr

def Call.entry {T : Type} : Call T → QPc T
  | .pop timed => .popLock timed
  | .push item => .pushLock item
  | .abort => .abortSet

inductive QAct (ι T : Type) where
  | call (t : ι) (c : Call T)
  | run (t : ι)
  | notify (t : ι) (target : Option ι)
  | wake (u : ι)
  | reacquire (u : ι) (timeout : Bool)
deriving DecidableEq, Repr

structure QState (ι T : Type) where
  queue : List T
  abort : Bool
  owner : Option ι
  waiters : List ι
  pc : ι → QPc T
  accepted : List T
  results : List (Ret T)
  thrown : List String
  abortReturned : Bool

def fullMsg : String := "libudmaio: ConcurrentQueue full"

namespace QState
variable {ι T : Type} [DecidableEq ι]

def popped (s : QState ι T) : List T := s.results.filterMap Ret.item?

def start : QState ι T where
  queue := []
  abort := false
  owner := none
  waiters := []
  pc _ := .idle
  accepted := []
  results := []
  thrown := []
  abortReturned := false

def goto (s : QState ι T) (t : ι) (p : QPc T) : QState ι T :=
  { s with pc := Function.update s.pc t p }

def acquire (s : QState ι T) (t : ι) (p : QPc T) : QState ι T :=
  if s.owner.isNone then { s with owner := some t }.goto t p else s

def release (s : QState ι T) (t : ι) (p : QPc T) : QState ι T := { s with owner := none }.goto t p

def wakeUp (s : QState ι T) (u : ι) : QState ι T :=
  { s with waiters := s.waiters.erase u }.goto u
    (match s.pc u with
      | .waiting timed => .woken timed
      | p => p)

theorem wakeUp_cases (s : QState ι T) (u : ι) :
    (∃ timed, s.wakeUp u = { s with waiters := s.waiters.erase u }.goto u (.woken timed)) ∨
      s.wakeUp u = { s with waiters := s.waiters.erase u } := by
  unfold wakeUp
  split
  · exact Or.inl ⟨_, rfl⟩
  · right
    unfold goto
    rw [Function.update_eq_self]

/-- `notify_one` with the thread it wakes -/
def notifyOne (s : QState ι T) : Option ι → Option (QState ι T)
  | some u => if u ∈ s.waiters then some (s.wakeUp u) else none
  | none => if s.waiters.isEmpty then some s else none

theorem notifyOne_cases {s s' : QState ι T} {target : Option ι} (h : s.notifyOne target = some s') :
    (∃ u ∈ s.waiters, s' = s.wakeUp u) ∨ s.waiters = [] ∧ s' = s := by
  unfold notifyOne at h
  cases target with
  | some u =>
    dsimp only at h
    split at h
    · next hu => exact Or.inl ⟨u, hu, (Option.some.inj h).symm⟩
    · cases h
  | none =>
    dsimp only at h
    split at h
    · next hw => exact Or.inr ⟨List.isEmpty_iff.mp hw, (Option.some.inj h).symm⟩
    · cases h

def threadStep (maxElems : Nat) (s : QState ι T) (t : ι) : QState ι T :=
  match s.pc t with
  | .popLock timed => s.acquire t (.popTest timed)
  | .popTest timed => s.goto t (if s.queue.isEmpty then .popAbort timed else .popTake)
  | .popAbort timed => s.goto t (if s.abort then .popLeave false else .popEnter timed)
  | .popEnter timed => { s with waiters := s.waiters ++ [t] }.release t (.waiting timed)
  | .popLeave timedOut =>
    { s with results := s.results ++ [Ret.empty timedOut s.queue] }.release t .idle
  | .popTake =>
    match s.queue with
    | v :: q => { s with queue := q, results := s.results ++ [Ret.item v] }.goto t .popUnlock
    | [] => s
  | .popUnlock => s.release t .popNotify
  | .pushLock item => s.acquire t (.pushTest item)
  | .pushTest item =>
    s.goto t (if maxElems ≤ s.queue.length then .pushThrow else .pushAppend item)
  | .pushThrow => { s with thrown := s.thrown ++ [fullMsg] }.release t .idle
  | .pushAppend item =>
    { s with queue := s.queue ++ [item], accepted := s.accepted ++ [item] }.goto t .pushUnlock
  | .pushUnlock => s.release t .pushNotify
  | .abortSet => { s with abort := true }.goto t .abortNotify
  | _ => s

/-- the `notify_one` at the end of `pop`, `push` and `abort` -/
def notifyStep (s : QState ι T) (t : ι) (target : Option ι) : QState ι T :=
  match s.pc t, s.notifyOne target with
  | .popNotify, some s' => s'.goto t .idle
  | .pushNotify, some s' => s'.goto t .idle
  | .abortNotify, some s' => { s' with abortReturned := true }.goto t .idle
  | _, _ => s

theorem notifyStep_cases (s : QState ι T) (t : ι) (target : Option ι) :
    (∃ n, s.notifyOne target = some n ∧ (s.pc t = .popNotify ∨ s.pc t = .pushNotify) ∧
        s.notifyStep t target = n.goto t .idle) ∨
      (∃ n, s.notifyOne target = some n ∧ s.pc t = .abortNotify ∧
        s.notifyStep t target = { n with abortReturned := true }.goto t .idle) ∨
      s.notifyStep t target = s := by
  unfold notifyStep
  split
  · next n hpc hn => exact Or.inl ⟨n, hn, Or.inl hpc, rfl⟩
  · next n hpc hn => exact Or.inl ⟨n, hn, Or.inr hpc, rfl⟩
  · next n hpc hn => exact Or.inr (Or.inl ⟨n, hn, hpc, rfl⟩)
  · exact Or.inr (Or.inr rfl)

def step (maxElems : Nat) (s : QState ι T) : QAct ι T → QState ι T
  | .call t c =>
    match s.pc t with
    | .idle => s.goto t c.entry
    | _ => s
  | .run t => s.threadStep maxElems t
  | .notify t target => s.notifyStep t target
  | .wake u => if u ∈ s.waiters then s.wakeUp u else s
  | .reacquire u timeout =>
    match s.pc u with
    | .woken timed => s.acquire u (if timed && timeout then .popLeave true else .popTest timed)
    | _ => s

/-! What the actions can do that are not steps of a thread in a call. -/

theorem step_call_cases (maxElems : Nat) (s : QState ι T) (t : ι) (c : Call T) :
    s.pc t = .idle ∧ s.step maxElems (.call t c) = s.goto t c.entry ∨
      s.step maxElems (.call t c) = s := by
  unfold step
  dsimp only
  split
  · next hpc => exact Or.inl ⟨hpc, rfl⟩
  · exact Or.inr rfl

theorem step_wake_cases (maxElems : Nat) (s : QState ι T) (u : ι) :
    u ∈ s.waiters ∧ s.step maxElems (.wake u) = s.wakeUp u ∨ s.step maxElems (.wake u) = s := by
  unfold step
  dsimp only
  split
  · next hu => exact Or.inl ⟨hu, rfl⟩
  · exact Or.inr rfl

theorem step_reacquire_cases (maxElems : Nat) (s : QState ι T) (u : ι) (timeout : Bool) :
    (∃ timed, s.pc u = .woken timed ∧ s.step maxElems (.reacquire u timeout)
        = s.acquire u (if timed && timeout then .popLeave true else .popTest timed)) ∨
      s.step maxElems (.reacquire u timeout) = s := by
  unfold step
  dsimp only
  split
  · next timed hpc => exact Or.inl ⟨timed, hpc, rfl⟩
  · exact Or.inr rfl

/-- **The rule for steps**: what every part of the step function keeps, every action keeps. -/
theorem step_rule {P : QState ι T → Prop} {maxElems : Nat} {s : QState ι T} (a : QAct ι T)
    (hs : P s) (hcall : ∀ t c, a = .call t c → s.pc t = .idle → P (s.goto t c.entry))
    (hrun : ∀ t, P (s.threadStep maxElems t))
    (hnotify : ∀ t target, a = .notify t target → P (s.notifyStep t target))
    (hwake : ∀ u ∈ s.waiters, P (s.wakeUp u))
    (hreacquire : ∀ u timed timeout, s.pc u = .woken timed →
      P (s.acquire u (if timed && timeout then .popLeave true else .popTest timed))) :
    P (s.step maxElems a) := by
  cases a with
  | call t c =>
    rcases s.step_call_cases maxElems t c with ⟨hpc, e⟩ | e <;> rw [e]
    · exact hcall t c rfl hpc
    · exact hs
  | run t => exact hrun t
  | notify t target => exact hnotify t target rfl
  | wake u =>
    rcases s.step_wake_cases maxElems u with ⟨hu, e⟩ | e <;> rw [e]
    · exact hwake u hu
    · exact hs
  | reacquire u timeout =>
    rcases s.step_reacquire_cases maxElems u timeout with ⟨timed, hpc, e⟩ | e <;> rw [e]
    · exact hreacquire u timed timeout hpc
    · exact hs

end QState

end Udmaio
