import Mathlib.Data.Fintype.Basic
import Udmaio.Queue.System

/-!
# Does `abort` release every consumer?

`abort` sets `_abort` without the mutex and notifies one waiting thread.  A consumer that has
already tested `_abort` still enters the wait set afterwards, and of several consumers in the wait
set only one is woken: `abort_strands_consumer` has both, with `abort` returned and a consumer
waiting while every other thread is at rest.

* `AbortClear`        the condition on the `notify_one` of `abort`: at most one consumer in the wait
                      set, and none between its test of `_abort` and the wait set;
* `abort_releases`    **in every run whose steps meet it the wait set is empty once `abort` has
                      returned.**
-/

namespace Udmaio
open Lib

/-- the thread neither runs nor is about to -/
def QPc.rests {T : Type} : QPc T → Bool
  | .idle => true
  | .waiting _ => true
  | _ => false

namespace QState
variable {ι T : Type} {maxElems : Nat} {s : QState ι T}

/-- no consumer stands between its test of `_abort` and the wait set -/
def NoEntry (s : QState ι T) : Prop := ∀ u timed, s.pc u ≠ .popEnter timed

instance [Fintype ι] [DecidableEq T] (s : QState ι T) : Decidable s.NoEntry :=
  inferInstanceAs (Decidable (∀ u timed, s.pc u ≠ .popEnter timed))

def AbortClear (s : QState ι T) : QAct ι T → Prop
  | .notify t _ => s.pc t = .abortNotify → s.waiters.length ≤ 1 ∧ s.NoEntry
  | _ => True

instance [Fintype ι] [DecidableEq T] (s : QState ι T) : ∀ a, Decidable (s.AbortClear a)
  | .notify t _ =>
    inferInstanceAs (Decidable (s.pc t = .abortNotify → s.waiters.length ≤ 1 ∧ s.NoEntry))
  | .run _ => .isTrue trivial
  | .call _ _ => .isTrue trivial
  | .wake _ => .isTrue trivial
  | .reacquire _ _ => .isTrue trivial

/-- once `abort` has returned nobody is in the wait set or about to enter it -/
structure Released (s : QState ι T) : Prop where
  flag : ∀ t, s.pc t = .abortNotify → s.abort = true
  waits : s.abortReturned = true → s.abort = true ∧ s.waiters = [] ∧ s.NoEntry

theorem Released.start : Released (start : QState ι T) where
  flag t h := by cases h
  waits h := by cases h

variable [DecidableEq ι]

theorem NoEntry.goto (h : s.NoEntry) {s' : QState ι T} {t : ι} {p : QPc T}
    (hpc : s'.pc = Function.update s.pc t p) (hp : ∀ timed, p ≠ .popEnter timed) : s'.NoEntry := by
  unfold NoEntry
  rw [hpc, Function.forall_update_iff s.pc fun _ q => ∀ timed, q ≠ .popEnter timed]
  exact ⟨hp, fun u _ => h u⟩

/-- a thread moves: not into the wait set once `abort` has returned, and not to the end of
`abort` -/
theorem Released.goto (h : Released s) {s' : QState ι T} {t : ι} {p : QPc T}
    (hpc : s'.pc = Function.update s.pc t p)
    (hp : s.abortReturned = true → ∀ timed, p ≠ .popEnter timed) (hp' : p ≠ .abortNotify)
    (ha : s'.abort = s.abort) (hr : s'.abortReturned = s.abortReturned)
    (hw : s.abortReturned = true → s'.waiters = []) : Released s' where
  flag := by
    rw [hpc, ha, Function.forall_update_iff s.pc fun _ q => q = .abortNotify → s.abort = true]
    exact ⟨fun e => absurd e hp', fun u _ => h.flag u⟩
  waits hs := by
    rw [hr] at hs
    obtain ⟨hab, -, hne⟩ := h.waits hs
    exact ⟨ha.trans hab, hw hs, hne.goto hpc (hp hs)⟩

/-- a move that leaves flag and wait set alone -/
theorem Released.move (h : Released s) {s' : QState ι T} {t : ι} {p : QPc T}
    (hpc : s'.pc = Function.update s.pc t p)
    (hp : s.abortReturned = true → ∀ timed, p ≠ .popEnter timed) (hp' : p ≠ .abortNotify)
    (ha : s'.abort = s.abort) (hr : s'.abortReturned = s.abortReturned)
    (hw : s'.waiters = s.waiters) : Released s' :=
  h.goto hpc hp hp' ha hr fun hs => hw.trans (h.waits hs).2.1

theorem Released.acquire (h : Released s) {t : ι} {p : QPc T} (hp : ∀ timed, p ≠ .popEnter timed)
    (hp' : p ≠ .abortNotify) : Released (s.acquire t p) := by
  unfold QState.acquire
  split
  · exact h.move rfl (fun _ => hp) hp' rfl rfl rfl
  · exact h

theorem Released.wakeUp (h : Released s) (u : ι) : Released (s.wakeUp u) := by
  have hw : s.abortReturned = true → s.waiters.erase u = [] := by
    intro hs
    rw [(h.waits hs).2.1]
    rfl
  rcases s.wakeUp_cases u with ⟨timed, e⟩ | e
  · rw [e]
    exact h.goto rfl (by simp) (by simp) rfl rfl hw
  · rw [e]
    exact ⟨h.flag, fun hs => ⟨(h.waits hs).1, hw hs, (h.waits hs).2.2⟩⟩

/-! ## every action -/

theorem Released.abortSet (h : Released s) (t : ι) :
    Released ({ s with abort := true }.goto t .abortNotify) where
  flag _ _ := rfl
  waits hs := by
    obtain ⟨-, hw, hne⟩ := h.waits hs
    exact ⟨rfl, hw, hne.goto rfl (by simp)⟩

theorem Released.threadStep (h : Released s) (t : ι) : Released (s.threadStep maxElems t) := by
  unfold QState.threadStep
  cases hpc : s.pc t with
  | popLock timed => exact h.acquire (by simp) (by simp)
  | pushLock item => exact h.acquire (by simp) (by simp)
  | popTest timed =>
    refine h.move rfl (fun _ => ?_) ?_ rfl rfl rfl
    · split <;> simp
    · split <;> simp
  | popAbort timed =>
    -- `abort` has set the flag before it returned, so the consumer leaves
    refine h.move rfl (fun hs => ?_) ?_ rfl rfl rfl
    · rw [if_pos (h.waits hs).1]
      simp
    · split <;> simp
  | popEnter timed =>
    -- so `abort` has not returned
    refine h.goto rfl (by simp) (by simp) rfl rfl (fun hs => ?_)
    exact absurd hpc ((h.waits hs).2.2 t timed)
  | popLeave timedOut => exact h.move rfl (by simp) (by simp) rfl rfl rfl
  | popTake =>
    dsimp only
    split
    · exact h.move rfl (by simp) (by simp) rfl rfl rfl
    · exact h
  | popUnlock => exact h.move rfl (by simp) (by simp) rfl rfl rfl
  | pushTest item =>
    refine h.move rfl (fun _ => ?_) ?_ rfl rfl rfl
    · split <;> simp
    · split <;> simp
  | pushThrow => exact h.move rfl (by simp) (by simp) rfl rfl rfl
  | pushAppend item => exact h.move rfl (by simp) (by simp) rfl rfl rfl
  | pushUnlock => exact h.move rfl (by simp) (by simp) rfl rfl rfl
  | abortSet => exact h.abortSet t
  | idle => exact h
  | waiting timed => exact h
  | woken timed => exact h
  | popNotify => exact h
  | pushNotify => exact h
  | abortNotify => exact h

theorem Released.notifyOne (h : Released s) {target : Option ι} {s' : QState ι T}
    (hn : s.notifyOne target = some s') : Released s' := by
  rcases notifyOne_cases hn with ⟨u, -, rfl⟩ | ⟨-, rfl⟩
  · exact h.wakeUp u
  · exact h

theorem wakeUp_waiters (s : QState ι T) (u : ι) : (s.wakeUp u).waiters = s.waiters.erase u := by
  rcases s.wakeUp_cases u with ⟨timed, e⟩ | e
  · rw [e]
    rfl
  · rw [e]

theorem notifyOne_waiters {target : Option ι} {s' : QState ι T} (hn : s.notifyOne target = some s')
    (hl : s.waiters.length ≤ 1) : s'.waiters = [] := by
  rcases notifyOne_cases hn with ⟨u, hu, rfl⟩ | ⟨hw, rfl⟩
  · rw [wakeUp_waiters, ← List.length_eq_zero_iff, List.length_erase_of_mem hu]
    omega
  · exact hw

theorem notifyOne_abort {target : Option ι} {s' : QState ι T} (hn : s.notifyOne target = some s') :
    s'.abort = s.abort := by
  rcases notifyOne_cases hn with ⟨u, -, rfl⟩ | ⟨-, rfl⟩
  · rcases s.wakeUp_cases u with ⟨timed, e⟩ | e
    · rw [e]
      rfl
    · rw [e]
  · rfl

theorem NoEntry.notifyOne (h : s.NoEntry) {target : Option ι} {s' : QState ι T}
    (hn : s.notifyOne target = some s') : s'.NoEntry := by
  rcases notifyOne_cases hn with ⟨u, -, rfl⟩ | ⟨-, rfl⟩
  · rcases s.wakeUp_cases u with ⟨timed, e⟩ | e
    · rw [e]
      exact h.goto rfl (by simp)
    · rw [e]
      exact h
  · exact h

theorem Released.notifyStep (h : Released s) (t : ι) (target : Option ι)
    (hc : s.pc t = .abortNotify → s.waiters.length ≤ 1 ∧ s.NoEntry) :
    Released (s.notifyStep t target) := by
  rcases s.notifyStep_cases t target with ⟨s', hn, -, e⟩ | ⟨s', hn, hpc, e⟩ | e <;> rw [e]
  · exact (h.notifyOne hn).move rfl (by simp) (by simp) rfl rfl rfl
  · obtain ⟨hone, hne⟩ := hc hpc
    have ha : s'.abort = true := (notifyOne_abort hn).trans (h.flag t hpc)
    have hw : s'.waiters = [] := notifyOne_waiters hn hone
    have hne' : s'.NoEntry := hne.notifyOne hn
    have h' : Released { s' with abortReturned := true } :=
      ⟨(h.notifyOne hn).flag, fun _ => ⟨ha, hw, hne'⟩⟩
    exact h'.move rfl (by simp) (by simp) rfl rfl rfl
  · exact h

theorem Released.step (h : Released s) (a : QAct ι T) (hc : s.AbortClear a) :
    Released (s.step maxElems a) := by
  refine step_rule a h ?_ h.threadStep ?_ (fun u _ => h.wakeUp u) ?_
  · intro t c _ _
    refine h.move rfl (fun _ => ?_) ?_ rfl rfl rfl
    · cases c <;> simp [Call.entry]
    · cases c <;> simp [Call.entry]
  · intro t target e
    subst e
    exact h.notifyStep t target hc
  · intro u timed timeout _
    apply h.acquire
    · split <;> simp
    · split <;> simp

/-! ## runs -/

/-- **`abort` releases every consumer** in a run in which its notification never meets a consumer
between test and wait set nor more than one consumer in the wait set. -/
theorem abort_releases (maxElems : Nat) (acts : List (QAct ι T))
    (hc : Along (step maxElems) AbortClear start acts)
    (hr : (Lib.run (step maxElems) start acts).abortReturned = true) :
    (Lib.run (step maxElems) start acts).waiters = [] :=
  ((run_inv (P := Released) (fun _ a hok h => h.step a hok) hc Released.start).waits hr).2.1

/-- thread `t` calls `pop` on an empty queue and takes `n` steps -/
def popRun (t : Fin 3) (n : Nat) : List (QAct (Fin 3) Nat) :=
  .call t (.pop false) :: List.replicate n (.run t)

theorem abort_releases_one_waiter :
    let s := Lib.run (step 64) start (popRun 0 4 ++ [.call 2 .abort, .run 2, .notify 2 (some 0)])
    s.abortReturned = true ∧ s.waiters = [] :=
  ⟨by decide, abort_releases 64 _ (by decide) (by decide)⟩

/-- `abort` has returned, every thread is at rest and a consumer is waiting -/
def Strands (s : QState (Fin 3) Nat) : Prop :=
  s.abortReturned = true ∧ (∀ t, (s.pc t).rests = true) ∧ s.waiters ≠ []

instance (s : QState (Fin 3) Nat) : Decidable s.Strands := inferInstanceAs (Decidable (_ ∧ _ ∧ _))

/-- **A consumer stays behind**: of two in the wait set only one is woken; and one that has tested
the flag before it is set goes to wait after the notification. -/
theorem abort_strands_consumer :
    (Lib.run (step 64) start (popRun 0 4 ++ popRun 1 4 ++ [.call 2 .abort, .run 2,
      .notify 2 (some 0), .reacquire 0 false, .run 0, .run 0, .run 0])).Strands ∧
    (Lib.run (step 64) start (popRun 0 3 ++
      [.call 2 .abort, .run 2, .notify 2 none, .run 0])).Strands := by
  decide

end QState

end Udmaio
