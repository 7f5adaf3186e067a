import Mathlib.Algebra.Order.BigOperators.Group.Finset
import Mathlib.Data.Fintype.Basic
import Udmaio.Lib.Live
import Udmaio.Queue.Abort
import Udmaio.Queue.Handoff

/-!
# Every call returns once `_abort` is set

With `_abort` set a consumer that finds the queue empty leaves, so every thread has a bounded way to
the end of its call, whatever the others do, and the mutex is always given back.  The one place
where it may stay is the wait set: `abort` notifies once, and only a consumer with a timeout comes
back by itself.

* `QPc.stepsLeft`     how far a thread is from the end of its call;
* `weight`            the sum over all threads, which every step lowers;
* `Stopping`          the invariant;
* `calls_return`      **under a fair schedule every call returns**, but for consumers without
                      timeout in the wait set.
-/

namespace Udmaio
open Lib

/-- how many steps the thread has in front of it at most, once `_abort` is set -/
def QPc.stepsLeft {T : Type} : QPc T → Nat
  | .idle => 0
  | .popNotify => 1
  | .pushNotify => 1
  | .abortNotify => 1
  | .popLeave _ => 1
  | .pushThrow => 1
  | .popUnlock => 2
  | .pushUnlock => 2
  | .abortSet => 2
  | .popTake => 3
  | .popAbort _ => 3
  | .pushAppend _ => 3
  | .popTest _ => 4
  | .pushTest _ => 4
  | .woken _ => 5
  | .popLock _ => 5
  | .pushLock _ => 5
  | .waiting _ => 6
  | .popEnter _ => 7

/-- the thread is about to take the mutex -/
def QPc.locks {T : Type} : QPc T → Bool
  | .popLock _ => true
  | .pushLock _ => true
  | _ => false

/-- a step of another kind is next, or none -/
def QPc.stays {T : Type} : QPc T → Bool
  | .idle => true
  | .waiting _ => true
  | .woken _ => true
  | .popNotify => true
  | .pushNotify => true
  | .abortNotify => true
  | _ => false

def QPc.notifies {T : Type} : QPc T → Bool
  | .popNotify => true
  | .pushNotify => true
  | .abortNotify => true
  | _ => false

namespace QState
variable {ι T : Type} {maxElems : Nat} {s s' : QState ι T} {t : ι} {p : QPc T}

/-! ## the mutex is given back -/

def Owned (s : QState ι T) : Prop := Held QPc.holds s.owner s.pc

theorem Owned.start : Owned (start : QState ι T) := nofun

variable [DecidableEq ι]

theorem Owned.acquire (h : s.Owned) (hp : p.holds = true) : (s.acquire t p).Owned := by
  unfold QState.acquire
  split
  · exact Held.acquire hp
  · exact h

theorem Owned.outside (h : s.Owned) (ht : (s.pc t).holds = false) : (s.goto t p).Owned :=
  Held.outside h ht

theorem Owned.inside (h : s.Owned) (hp : p.holds = true) : (s.goto t p).Owned := Held.inside h hp

theorem Owned.threadStep (h : s.Owned) (maxElems : Nat) (t : ι) :
    (s.threadStep maxElems t).Owned := by
  unfold QState.threadStep
  cases hpc : s.pc t with
  | popLock timed => exact h.acquire rfl
  | pushLock item => exact h.acquire rfl
  | popTest timed => exact h.inside (by split <;> rfl)
  | popAbort timed => exact h.inside (by split <;> rfl)
  | popEnter timed => exact Held.release
  | popLeave timedOut => exact Held.release
  | popTake =>
    dsimp only
    split
    · exact Held.inside h rfl
    · exact h
  | popUnlock => exact Held.release
  | pushTest item => exact h.inside (by split <;> rfl)
  | pushThrow => exact Held.release
  | pushAppend item => exact Held.inside h rfl
  | pushUnlock => exact Held.release
  | abortSet => exact Held.outside h (by rw [hpc]; rfl)
  | idle => exact h
  | waiting timed => exact h
  | woken timed => exact h
  | popNotify => exact h
  | pushNotify => exact h
  | abortNotify => exact h

theorem Owned.wakeUp (h : s.Owned) (hw : s.WaitSet) {u : ι} (hu : u ∈ s.waiters) :
    (s.wakeUp u).Owned := by
  obtain ⟨timed, hpc⟩ := (hw.mem u).mp hu
  exact Held.outside h (by rw [hpc]; rfl)

theorem Owned.notifyStep (h : s.Owned) (hw : s.WaitSet) (t : ι) (target : Option ι) :
    (s.notifyStep t target).Owned := by
  have hnotified : ∀ n, s.notifyOne target = some n → (∀ timed, s.pc t ≠ .waiting timed) →
      (s.pc t).holds = false → n.Owned ∧ (n.pc t).holds = false := by
    intro n hn hne hpc
    rcases notifyOne_cases hn with ⟨u, hu, rfl⟩ | ⟨-, rfl⟩
    · obtain ⟨timed, hu'⟩ := (hw.mem u).mp hu
      obtain ⟨-, timed', hpc'⟩ := hw.wakeUp hu
      have htu : t ≠ u := by
        rintro rfl
        exact hne _ hu'
      rw [hpc', Function.update_of_ne htu]
      exact ⟨h.wakeUp hw hu, hpc⟩
    · exact ⟨h, hpc⟩
  rcases s.notifyStep_cases t target with ⟨n, hn, hpc, e⟩ | ⟨n, hn, hpc, e⟩ | e <;> rw [e]
  · have ht : (∀ timed, s.pc t ≠ .waiting timed) ∧ (s.pc t).holds = false := by
      rcases hpc with hpc | hpc <;> rw [hpc] <;> exact ⟨nofun, rfl⟩
    obtain ⟨hown, hfalse⟩ := hnotified n hn ht.1 ht.2
    exact hown.outside hfalse
  · obtain ⟨hown, hfalse⟩ := hnotified n hn (by rw [hpc]; nofun) (by rw [hpc]; rfl)
    exact Held.outside hown hfalse
  · exact h

theorem threadStep_abort (h : s.abort = true) (t : ι) : (s.threadStep maxElems t).abort = true := by
  unfold QState.threadStep QState.acquire
  cases s.pc t <;> dsimp only <;> first | exact h | rfl | skip
  all_goals split <;> exact h

/-! ## the invariant -/

structure Tidy (maxElems : Nat) (s : QState ι T) : Prop where
  inv : Inv maxElems s
  waitSet : s.WaitSet
  owned : s.Owned

omit [DecidableEq ι] in
theorem Tidy.start : Tidy maxElems (start : QState ι T) := ⟨Inv.start, WaitSet.start, Owned.start⟩

theorem Owned.step (h : s.Owned) (hw : s.WaitSet) (maxElems : Nat) (a : QAct ι T) :
    (s.step maxElems a).Owned := by
  refine step_rule a h ?_ (h.threadStep maxElems) (fun t target _ => h.notifyStep hw t target)
    (fun u hu => h.wakeUp hw hu) ?_
  · intro t c _ hpc
    exact h.outside (by rw [hpc]; rfl)
  · intro u timed timeout _
    exact h.acquire (by split <;> rfl)

theorem Tidy.step (h : Tidy maxElems s) (a : QAct ι T) : Tidy maxElems (s.step maxElems a) :=
  ⟨h.inv.step a, h.waitSet.step maxElems a, h.owned.step h.waitSet maxElems a⟩

theorem abort_step (h : s.abort = true) (a : QAct ι T) : (s.step maxElems a).abort = true := by
  refine step_rule (P := fun s => s.abort = true) a h (fun _ _ _ _ => h)
    (threadStep_abort h) ?_ ?_ ?_
  · intro t target _
    rcases s.notifyStep_cases t target with ⟨n, hn, -, e⟩ | ⟨n, hn, -, e⟩ | e <;> rw [e]
    · exact (notifyOne_abort hn).trans h
    · exact (notifyOne_abort hn).trans h
    · exact h
  · intro u _
    exact h
  · intro u timed timeout _
    unfold QState.acquire
    split <;> exact h

/-! ## every step lowers the weight -/

variable [Fintype ι]

def weight (s : QState ι T) : Nat := ∑ t, (s.pc t).stepsLeft

omit [DecidableEq ι] in
theorem weight_lt (hle : ∀ u, (s'.pc u).stepsLeft ≤ (s.pc u).stepsLeft)
    (hlt : (s'.pc t).stepsLeft < (s.pc t).stepsLeft) : s'.weight < s.weight :=
  Finset.sum_lt_sum (fun u _ => hle u) ⟨t, Finset.mem_univ t, hlt⟩

/-- a thread moves forward -/
theorem weight_goto (hpc : s'.pc = Function.update s.pc t p)
    (hp : p.stepsLeft < (s.pc t).stepsLeft) :
    s'.weight < s.weight := by
  have hself : s'.pc t = p := by rw [hpc, Function.update_self]
  refine weight_lt (t := t) (fun u => ?_) (by rw [hself]; exact hp)
  by_cases e : u = t
  · rw [e, hself]
    exact hp.le
  · rw [hpc, Function.update_of_ne e]

theorem weight_wakeUp (h : s.WaitSet) {u : ι} (hu : u ∈ s.waiters) :
    (s.wakeUp u).weight < s.weight := by
  obtain ⟨timed, hpc⟩ := (h.mem u).mp hu
  obtain ⟨-, timed', hpc'⟩ := h.wakeUp hu
  refine weight_goto hpc' ?_
  rw [hpc]
  exact Nat.lt_succ_self 5

theorem weight_acquire (hp : p.stepsLeft < (s.pc t).stepsLeft) :
    (s.acquire t p).weight < s.weight ∨ s.acquire t p = s ∧ s.owner ≠ none := by
  unfold QState.acquire
  split
  · exact .inl (weight_goto rfl hp)
  · next ho => exact .inr ⟨rfl, fun e => ho (by rw [e]; rfl)⟩

/-- **A step of a thread**: forward, or there is none to take, or the mutex is taken. -/
theorem weight_threadStep (hi : Inv maxElems s) (ha : s.abort = true) (t : ι) :
    (s.threadStep maxElems t).weight < s.weight ∨ s.threadStep maxElems t = s ∧
      ((s.pc t).stays = true ∨ (s.pc t).locks = true ∧ s.owner ≠ none) := by
  have hgoto : ∀ {q : QPc T} {s' : QState ι T}, s'.pc = Function.update s.pc t q →
      q.stepsLeft < (s.pc t).stepsLeft → s'.weight < s.weight := fun h h' => weight_goto h h'
  unfold QState.threadStep
  cases hpc : s.pc t with
  | popLock timed =>
    exact (weight_acquire (by rw [hpc]; exact Nat.lt_succ_self 4)).imp_right fun h =>
      ⟨h.1, .inr ⟨rfl, h.2⟩⟩
  | pushLock item =>
    exact (weight_acquire (by rw [hpc]; exact Nat.lt_succ_self 4)).imp_right fun h =>
      ⟨h.1, .inr ⟨rfl, h.2⟩⟩
  | popTest timed => exact .inl (hgoto rfl (by rw [hpc]; split <;> exact Nat.lt_succ_self 3))
  | popAbort timed =>
    -- the flag is set: the consumer does not go to wait
    refine .inl (hgoto rfl ?_)
    rw [hpc, if_pos ha]
    exact (by decide : 1 < 3)
  | popEnter timed => exact .inl (hgoto rfl (by rw [hpc]; exact Nat.lt_succ_self 6))
  | popLeave timedOut => exact .inl (hgoto rfl (by rw [hpc]; exact Nat.one_pos))
  | popTake =>
    have hq := hi.guarded.fact t (by rw [hpc]; rfl)
    rw [hpc] at hq
    obtain ⟨v, q, hv⟩ := List.exists_cons_of_ne_nil hq
    dsimp only
    rw [hv]
    exact .inl (hgoto rfl (by rw [hpc]; exact Nat.lt_succ_self 2))
  | popUnlock => exact .inl (hgoto rfl (by rw [hpc]; exact Nat.lt_succ_self 1))
  | pushTest item =>
    refine .inl (hgoto rfl ?_)
    rw [hpc]
    split
    · exact (by decide : 1 < 4)
    · exact Nat.lt_succ_self 3
  | pushThrow => exact .inl (hgoto rfl (by rw [hpc]; exact Nat.one_pos))
  | pushAppend item => exact .inl (hgoto rfl (by rw [hpc]; exact Nat.lt_succ_self 2))
  | pushUnlock => exact .inl (hgoto rfl (by rw [hpc]; exact Nat.lt_succ_self 1))
  | abortSet => exact .inl (hgoto rfl (by rw [hpc]; exact Nat.lt_succ_self 1))
  | idle => exact .inr ⟨rfl, .inl rfl⟩
  | waiting timed => exact .inr ⟨rfl, .inl rfl⟩
  | woken timed => exact .inr ⟨rfl, .inl rfl⟩
  | popNotify => exact .inr ⟨rfl, .inl rfl⟩
  | pushNotify => exact .inr ⟨rfl, .inl rfl⟩
  | abortNotify => exact .inr ⟨rfl, .inl rfl⟩

/-- a notification that is due ends the call -/
theorem weight_notified (hw : s.WaitSet) {n : QState ι T} {target : Option ι}
    (hn : s.notifyOne target = some n) (hpc : (s.pc t).stepsLeft = 1)
    (hs : s'.pc = Function.update n.pc t .idle) : s'.weight < s.weight := by
  rcases notifyOne_cases hn with ⟨u, hu, rfl⟩ | ⟨-, rfl⟩
  · have hut : u ≠ t := by
      rintro rfl
      obtain ⟨timed, hu'⟩ := (hw.mem u).mp hu
      rw [hu'] at hpc
      cases hpc
    obtain ⟨-, timed, hpc'⟩ := hw.wakeUp hu
    refine (weight_goto hs ?_).trans (weight_wakeUp hw hu)
    rw [hpc', Function.update_of_ne hut.symm, hpc]
    exact Nat.one_pos
  · exact weight_goto hs (by rw [hpc]; exact Nat.one_pos)

theorem weight_notifyStep (hw : s.WaitSet) (t : ι) (target : Option ι) :
    (s.notifyStep t target).weight < s.weight ∨ s.notifyStep t target = s := by
  rcases s.notifyStep_cases t target with ⟨n, hn, hpc, e⟩ | ⟨n, hn, hpc, e⟩ | e
  · rw [e]
    exact .inl (weight_notified hw hn (by rcases hpc with hpc | hpc <;> rw [hpc] <;> rfl) rfl)
  · rw [e]
    exact .inl (weight_notified hw hn (by rw [hpc]; rfl) rfl)
  · exact .inr e

/-- **Every action** that is not a new call changes nothing, or lowers the weight. -/
theorem weight_step (h : Tidy maxElems s) (ha : s.abort = true) {a : QAct ι T}
    (hcall : ∀ t c, a ≠ .call t c) :
    s.step maxElems a = s ∨ (s.step maxElems a).weight < s.weight := by
  cases a with
  | call t c => exact absurd rfl (hcall t c)
  | run t => exact (weight_threadStep h.inv ha t).symm.imp_left fun e => e.1
  | notify t target => exact (weight_notifyStep h.waitSet t target).symm
  | wake u =>
    rcases s.step_wake_cases maxElems u with ⟨hu, e⟩ | e
    · rw [e]
      exact .inr (weight_wakeUp h.waitSet hu)
    · exact .inl e
  | reacquire u timeout =>
    rcases s.step_reacquire_cases maxElems u timeout with ⟨timed, hpc, e⟩ | e
    · rw [e]
      refine (weight_acquire ?_).symm.imp_left fun e => e.1
      rw [hpc]
      split
      · exact (by decide : 1 < 5)
      · exact Nat.lt_succ_self 4
    · exact .inl e

/-! ## some step is left to take -/

/-- every call has returned, but for consumers without timeout in the wait set -/
def Returned (timed : ι → Prop) (s : QState ι T) : Prop :=
  ∀ t, s.pc t = .idle ∨ ¬timed t ∧ ∃ b, s.pc t = .waiting b

/-- what a fair schedule gives the threads: their steps, and the end of a wait to those with a
timeout -/
def Turn (timed : ι → Prop) : QAct ι T → Prop
  | .call _ _ => False
  | .run _ => True
  | .notify _ _ => True
  | .wake u => timed u
  | .reacquire _ timeout => timeout = false

omit [Fintype ι] in
/-- somebody can be notified, or nobody has to be -/
theorem exists_notifyOne (s : QState ι T) : ∃ target n, s.notifyOne target = some n := by
  cases hw : s.waiters with
  | nil => exact ⟨none, s, if_pos (by rw [hw]; rfl)⟩
  | cons u us =>
    have hu : u ∈ s.waiters := by rw [hw]; exact List.mem_cons_self
    exact ⟨some u, s.wakeUp u, if_pos hu⟩

omit [Fintype ι] in
/-- the thread at the end of its call notifies -/
theorem exists_notifyStep (hpc : (s.pc t).notifies = true) :
    ∃ target n, s.notifyOne target = some n ∧
      (s.notifyStep t target).pc = Function.update n.pc t .idle ∧
      (s.notifyStep t target).queue = n.queue := by
  obtain ⟨target, n, hn⟩ := s.exists_notifyOne
  refine ⟨target, n, hn, ?_⟩
  unfold notifyStep
  cases e : s.pc t <;> rw [e] at hpc <;> first | (rw [hn]; exact ⟨rfl, rfl⟩) | cases hpc

omit [Fintype ι] in
/-- **Progress**, for a notion `L` of what is further on: as long as a call has not returned, some
turn leads on. -/
theorem exists_turn_of {L : QState ι T → Prop} {timed : ι → Prop} (h : Tidy maxElems s)
    (hrun : ∀ t, L (s.threadStep maxElems t) ∨ s.threadStep maxElems t = s ∧
      ((s.pc t).stays = true ∨ (s.pc t).locks = true ∧ s.owner ≠ none))
    (hnotify : ∀ t, (s.pc t).notifies = true → ∃ target, L (s.notifyStep t target))
    (hwake : ∀ u ∈ s.waiters, timed u → L (s.wakeUp u))
    (hreacquire : ∀ t b, s.pc t = .woken b → s.owner = none → L (s.acquire t (.popTest b)))
    (hs : ¬s.Returned timed) : ∃ a, Turn timed a ∧ L (s.step maxElems a) := by
  have hgo : ∀ u, (s.pc u).stays = false → ((s.pc u).locks = true → s.owner = none) →
      ∃ a, Turn timed a ∧ L (s.step maxElems a) := by
    intro u hstay hlock
    rcases hrun u with hl | ⟨-, hst | ⟨hl, ho⟩⟩
    · exact ⟨.run u, trivial, hl⟩
    · exact Bool.noConfusion (hstay.symm.trans hst)
    · exact absurd (hlock hl) ho
  cases ho : s.owner with
  | some u =>
    -- the owner of the mutex is on its way to give it back
    have hholds := h.owned u ho
    refine hgo u ?_ fun hl => absurd hl ?_
    · cases hpc : s.pc u <;> rw [hpc] at hholds <;> first | rfl | cases hholds
    · cases hpc : s.pc u <;> rw [hpc] at hholds <;> first | exact Bool.false_ne_true | cases hholds
  | none =>
    obtain ⟨t, ht⟩ := not_forall.mp hs
    rw [not_or] at ht
    obtain ⟨hidle, hwait⟩ := ht
    have hend : (s.pc t).notifies = true → ∃ a, Turn timed a ∧ L (s.step maxElems a) := by
      intro hpc
      obtain ⟨target, hl⟩ := hnotify t hpc
      exact ⟨.notify t target, trivial, hl⟩
    cases hpc : s.pc t with
    | idle => exact absurd hpc hidle
    | waiting b =>
      have htimed : timed t := by
        by_contra hno
        exact hwait ⟨hno, b, hpc⟩
      have hmem : t ∈ s.waiters := (h.waitSet.mem t).mpr ⟨b, hpc⟩
      refine ⟨.wake t, htimed, ?_⟩
      unfold QState.step
      dsimp only
      rw [if_pos hmem]
      exact hwake t hmem htimed
    | woken b =>
      refine ⟨.reacquire t false, rfl, ?_⟩
      have hstep : s.step maxElems (.reacquire t false) = s.acquire t (.popTest b) := by
        simp only [QState.step, hpc, Bool.and_false, Bool.false_eq_true, if_false]
      rw [hstep]
      exact hreacquire t b hpc ho
    | popNotify => exact hend (by rw [hpc]; rfl)
    | pushNotify => exact hend (by rw [hpc]; rfl)
    | abortNotify => exact hend (by rw [hpc]; rfl)
    | popLock b => exact hgo t (by rw [hpc]; rfl) fun _ => ho
    | popTest b => exact hgo t (by rw [hpc]; rfl) fun _ => ho
    | popAbort b => exact hgo t (by rw [hpc]; rfl) fun _ => ho
    | popEnter b => exact hgo t (by rw [hpc]; rfl) fun _ => ho
    | popLeave b => exact hgo t (by rw [hpc]; rfl) fun _ => ho
    | popTake => exact hgo t (by rw [hpc]; rfl) fun _ => ho
    | popUnlock => exact hgo t (by rw [hpc]; rfl) fun _ => ho
    | pushLock item => exact hgo t (by rw [hpc]; rfl) fun _ => ho
    | pushTest item => exact hgo t (by rw [hpc]; rfl) fun _ => ho
    | pushThrow => exact hgo t (by rw [hpc]; rfl) fun _ => ho
    | pushAppend item => exact hgo t (by rw [hpc]; rfl) fun _ => ho
    | pushUnlock => exact hgo t (by rw [hpc]; rfl) fun _ => ho
    | abortSet => exact hgo t (by rw [hpc]; rfl) fun _ => ho

theorem exists_turn {timed : ι → Prop} (h : Tidy maxElems s) (ha : s.abort = true)
    (hs : ¬s.Returned timed) :
    ∃ a, Turn timed a ∧ (s.step maxElems a).weight < s.weight := by
  refine exists_turn_of (L := fun s' => s'.weight < s.weight) h (weight_threadStep h.inv ha) ?_
    (fun u hu _ => weight_wakeUp h.waitSet hu) ?_ hs
  · intro t hpc
    obtain ⟨target, n, hn, hs', -⟩ := exists_notifyStep hpc
    refine ⟨target, weight_notified h.waitSet hn ?_ hs'⟩
    cases e : s.pc t <;> rw [e] at hpc <;> first | rfl | cases hpc
  · intro t b hpc ho
    rcases weight_acquire (s := s) (t := t) (p := .popTest b)
      (by rw [hpc]; exact Nat.lt_succ_self 4)
      with hlt | ⟨-, hno⟩
    · exact hlt
    · exact absurd ho hno

/-! ## runs -/

structure Stopping (maxElems : Nat) (s : QState ι T) : Prop extends Tidy maxElems s where
  flag : s.abort = true

omit [Fintype ι] in
theorem Stopping.step (h : Stopping maxElems s) (a : QAct ι T) :
    Stopping maxElems (s.step maxElems a) :=
  ⟨h.toTidy.step a, abort_step h.flag a⟩

/-- **Every call returns** once `_abort` is set: take any run, and then any schedule without new
calls in which each thread gets its steps again and again, and those with a timeout the end of a
wait. -/
theorem calls_return (maxElems : Nat) (acts : List (QAct ι T)) (timed : ι → Prop)
    (ha : (Lib.run (step maxElems) start acts).abort = true) (sched : Nat → QAct ι T)
    (hcall : ∀ i t c, sched i ≠ .call t c) (hfair : ∀ a, Turn timed a → Recurs sched a) :
    ∃ k, ∀ j, k ≤ j → Returned timed
      (runTo (step maxElems) (Lib.run (step maxElems) start acts) sched j) := by
  have h0 : Stopping maxElems (Lib.run (step maxElems) start acts) :=
    ⟨run_inv' (P := Tidy maxElems) (fun _ a h => h.step a) acts .start, ha⟩
  have hstep : ∀ (s : QState ι T) (a : QAct ι T), (∀ t c, a ≠ .call t c) → Stopping maxElems s →
      Stopping maxElems (s.step maxElems a) := fun s a _ h => h.step a
  obtain ⟨k, hk, hstay⟩ := eventually_settled weight (Returned timed) hstep
    (fun s a hc h => weight_step h.toTidy h.flag hc)
    (fun s h hs => by
      obtain ⟨a, hturn, hlt⟩ := exists_turn h.toTidy h.flag hs
      refine ⟨a, hturn, fun e => ?_⟩
      rw [e] at hlt
      exact lt_irrefl _ hlt)
    hcall hfair h0
  refine ⟨k, fun j hj => ?_⟩
  rw [hstay j hj]
  exact hk

omit [DecidableEq ι] [Fintype ι] in
theorem Turn.imp {timed timed' : ι → Prop} {a : QAct ι T} (h : Turn timed a)
    (hi : ∀ {t}, timed t → timed' t) :
    Turn timed' a := by
  cases a with
  | call t c => exact h
  | run t => exact trivial
  | notify t target => exact trivial
  | wake u => exact hi h
  | reacquire u timeout => exact h

omit [DecidableEq ι] [Fintype ι] in
theorem Turn.not_call {timed : ι → Prop} {a : QAct ι T} (h : Turn timed a) (t : ι) (c : Call T) :
    a ≠ .call t c := by
  rintro rfl
  exact h

/-- every turn of the threads `ts`, where `ws` may end a wait -/
def turns (ts ws : List ι) : List (QAct ι T) :=
  (ts.flatMap fun t =>
    .run t :: .reacquire t false :: .notify t none :: ts.map fun u => .notify t (some u)) ++
    ws.map .wake

omit [DecidableEq ι] [Fintype ι] in
theorem mem_turns {ts ws : List ι} (hts : ∀ t, t ∈ ts) {timed : ι → Prop}
    (hws : ∀ t, timed t → t ∈ ws) {a : QAct ι T} (h : Turn timed a) : a ∈ turns ts ws := by
  cases a with
  | call t c => exact h.elim
  | wake u => exact List.mem_append_right _ (List.mem_map_of_mem (hws u h))
  | run t => exact List.mem_append_left _ (List.mem_flatMap.mpr ⟨t, hts t, by simp⟩)
  | reacquire u timeout =>
    obtain rfl : timeout = false := h
    exact List.mem_append_left _ (List.mem_flatMap.mpr ⟨u, hts u, by simp⟩)
  | notify t target =>
    refine List.mem_append_left _ (List.mem_flatMap.mpr ⟨t, hts t, ?_⟩)
    cases target with
    | none => simp
    | some u => simp [hts u]

omit [DecidableEq ι] [Fintype ι] in
theorem turn_of_mem_turns {ts ws : List ι} {a : QAct ι T} (h : a ∈ turns ts ws) :
    Turn (fun t => t ∈ ws) a := by
  rcases List.mem_append.mp h with h | h
  · obtain ⟨t, -, ht⟩ := List.mem_flatMap.mp h
    simp only [List.mem_cons, List.mem_map] at ht
    rcases ht with rfl | rfl | rfl | ⟨u, -, rfl⟩
    · exact trivial
    · exact rfl
    · exact trivial
    · exact trivial
  · obtain ⟨u, hu, rfl⟩ := List.mem_map.mp h
    exact hu

/-- a consumer with a timeout has gone to wait after its test of `_abort` -/
theorem calls_return_late_consumer : ∃ k, ∀ j, k ≤ j → Returned (fun _ => True)
    (runTo (step 64) (Lib.run (step 64) start
      ([.call 0 (.pop true), .run 0, .run 0, .run 0, .call 1 .abort, .run 1, .notify 1 none,
        .run 0] : List (QAct (Fin 2) Nat))) (cycle (turns [0, 1] [0, 1]) (by decide)) j) :=
  calls_return 64 _ (fun _ => True) (by decide) _
    (fun _ => (turn_of_mem_turns (List.get_mem _ _)).not_call)
    fun _ h => recurs_cycle _ (mem_turns (by decide) (by decide) h)

end QState

end Udmaio
