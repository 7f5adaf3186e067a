import Mathlib.Algebra.BigOperators.Group.Finset.Piecewise
import Mathlib.Data.Prod.Lex
import Udmaio.Queue.Live

/-!
# Nobody waits for data that is there

Without timeouts and spurious wake-ups a consumer comes back from the wait set only when it is
notified, and of notifications there are only so many: one at the end of each `push`, and one for
each item that is taken.

* `QPc.dues`        the notifications that a thread still causes, by itself and by its item;
* `flow`            the notifications to come, then the steps to the next wait, which every step
                    lowers;
* `pops_served`     **under a fair schedule every call returns**, but for consumers in the wait set,
                    and these only if the queue is empty.
-/

namespace Udmaio
open Lib

/-- the notifications to come from the thread; an item in the queue stands for one more -/
def QPc.dues {T : Type} : QPc T → Nat
  | .pushLock _ => 2
  | .pushTest _ => 2
  | .pushAppend _ => 2
  | .pushUnlock => 1
  | .pushNotify => 1
  | .popUnlock => 1
  | .popNotify => 1
  | .abortSet => 1
  | .abortNotify => 1
  | _ => 0

/-- how many steps the thread has in front of it at most, until it waits or has returned -/
def QPc.stepsToWait {T : Type} : QPc T → Nat
  | .idle => 0
  | .waiting _ => 1
  | .popNotify => 1
  | .pushNotify => 1
  | .abortNotify => 1
  | .popLeave _ => 1
  | .pushThrow => 1
  | .popEnter _ => 2
  | .popUnlock => 2
  | .pushUnlock => 2
  | .abortSet => 2
  | .popTake => 3
  | .popAbort _ => 3
  | .pushAppend _ => 3
  | .popTest _ => 4
  | .pushTest _ => 4
  | .woken _ => 5
  | .popLock _ => 5
  | .pushLock _ => 5

namespace QState
variable {ι T : Type} {maxElems : Nat} {s s' : QState ι T} {t : ι}
  {p : QPc T} [DecidableEq ι] [Fintype ι]

/-- one thread moves: what becomes of a sum over all threads -/
theorem sum_places (f : QPc T → Nat) (pc : ι → QPc T) (t : ι) (p : QPc T) :
    ∑ u, f (Function.update pc t p u) + f (pc t) = ∑ u, f (pc u) + f p := by
  have hcomp : (fun u => f (Function.update pc t p u))
      = Function.update (fun u => f (pc u)) t (f p) :=
    Function.comp_update f pc t p
  rw [hcomp, Finset.sum_update_of_mem (Finset.mem_univ t),
    Finset.sum_eq_add_sum_sdiff_singleton_of_mem (Finset.mem_univ t) fun u => f (pc u)]
  omega

def flow (s : QState ι T) : ℕ ×ₗ ℕ :=
  toLex (∑ t, (s.pc t).dues + s.queue.length, ∑ t, (s.pc t).stepsToWait)

theorem flow_goto (hpc : s'.pc = Function.update s.pc t p)
    (hd : p.dues + s'.queue.length ≤ (s.pc t).dues + s.queue.length)
    (hp : p.stepsToWait < (s.pc t).stepsToWait) : s'.flow < s.flow := by
  have hdues := sum_places QPc.dues s.pc t p
  have hsteps := sum_places QPc.stepsToWait s.pc t p
  rw [← hpc] at hdues hsteps
  refine Prod.Lex.toLex_lt_toLex.mpr ?_
  rcases Nat.lt_or_ge (∑ u, (s'.pc u).dues + s'.queue.length) (∑ u, (s.pc u).dues + s.queue.length)
    with h | h
  · exact .inl h
  · refine .inr ⟨?_, ?_⟩
    · show ∑ u, (s'.pc u).dues + s'.queue.length = ∑ u, (s.pc u).dues + s.queue.length
      omega
    · show ∑ u, (s'.pc u).stepsToWait < ∑ u, (s.pc u).stepsToWait
      omega

theorem flow_acquire (hd : p.dues ≤ (s.pc t).dues) (hp : p.stepsToWait < (s.pc t).stepsToWait) :
    (s.acquire t p).flow < s.flow ∨ s.acquire t p = s ∧ s.owner ≠ none := by
  unfold QState.acquire
  split
  · exact .inl (flow_goto rfl (Nat.add_le_add_right hd _) hp)
  · next ho => exact .inr ⟨rfl, fun e => ho (by rw [e]; rfl)⟩

theorem flow_threadStep (hi : Inv maxElems s) (t : ι) :
    (s.threadStep maxElems t).flow < s.flow ∨ s.threadStep maxElems t = s ∧
      ((s.pc t).stays = true ∨ (s.pc t).locks = true ∧ s.owner ≠ none) := by
  -- a move that leaves the queue alone
  have hgoto : ∀ {q : QPc T} {s' : QState ι T}, s'.pc = Function.update s.pc t q →
      s'.queue = s.queue → q.dues ≤ (s.pc t).dues → q.stepsToWait < (s.pc t).stepsToWait →
      s'.flow < s.flow :=
    fun h hq hd hp => flow_goto h (by rw [hq]; exact Nat.add_le_add_right hd _) hp
  unfold QState.threadStep
  cases hpc : s.pc t with
  | popLock timed =>
    exact (flow_acquire (by rw [hpc]; exact le_rfl)
      (by rw [hpc]; exact Nat.lt_succ_self 4)).imp_right
      fun h => ⟨h.1, .inr ⟨rfl, h.2⟩⟩
  | pushLock item =>
    exact (flow_acquire (by rw [hpc]; exact le_rfl)
      (by rw [hpc]; exact Nat.lt_succ_self 4)).imp_right
      fun h => ⟨h.1, .inr ⟨rfl, h.2⟩⟩
  | popTest timed =>
    refine .inl (hgoto rfl rfl ?_ ?_) <;> rw [hpc] <;> split
    · exact le_rfl
    · exact le_rfl
    · exact Nat.lt_succ_self 3
    · exact Nat.lt_succ_self 3
  | popAbort timed =>
    refine .inl (hgoto rfl rfl ?_ ?_) <;> rw [hpc] <;> split
    · exact le_rfl
    · exact le_rfl
    · exact (by decide : 1 < 3)
    · exact Nat.lt_succ_self 2
  | popEnter timed =>
    exact .inl (hgoto rfl rfl (by rw [hpc]; exact le_rfl) (by rw [hpc]; exact Nat.lt_succ_self 1))
  | popLeave timedOut => exact .inl (hgoto rfl rfl (Nat.zero_le _) (by rw [hpc]; exact Nat.one_pos))
  | popTake =>
    have hq := hi.guarded.fact t (by rw [hpc]; rfl)
    rw [hpc] at hq
    obtain ⟨v, q, hv⟩ := List.exists_cons_of_ne_nil hq
    dsimp only
    rw [hv]
    -- the item leaves the queue, and the thread is to notify for it
    refine .inl (flow_goto rfl ?_ (by rw [hpc]; exact Nat.lt_succ_self 2))
    rw [hpc, hv, List.length_cons]
    show 1 + q.length ≤ 0 + (q.length + 1)
    omega
  | popUnlock =>
    exact .inl (hgoto rfl rfl (by rw [hpc]; exact le_rfl) (by rw [hpc]; exact Nat.lt_succ_self 1))
  | pushTest item =>
    refine .inl (hgoto rfl rfl ?_ ?_) <;> rw [hpc] <;> split
    · exact Nat.zero_le 2
    · exact le_rfl
    · exact (by decide : 1 < 4)
    · exact Nat.lt_succ_self 3
  | pushThrow => exact .inl (hgoto rfl rfl (Nat.zero_le _) (by rw [hpc]; exact Nat.one_pos))
  | pushAppend item =>
    refine .inl (flow_goto rfl ?_ (by rw [hpc]; exact Nat.lt_succ_self 2))
    rw [hpc]
    show 1 + (s.queue ++ [item]).length ≤ 2 + s.queue.length
    rw [List.length_append, List.length_singleton]
    omega
  | pushUnlock =>
    exact .inl (hgoto rfl rfl (by rw [hpc]; exact le_rfl) (by rw [hpc]; exact Nat.lt_succ_self 1))
  | abortSet =>
    exact .inl (hgoto rfl rfl (by rw [hpc]; exact le_rfl) (by rw [hpc]; exact Nat.lt_succ_self 1))
  | idle => exact .inr ⟨rfl, .inl rfl⟩
  | waiting timed => exact .inr ⟨rfl, .inl rfl⟩
  | woken timed => exact .inr ⟨rfl, .inl rfl⟩
  | popNotify => exact .inr ⟨rfl, .inl rfl⟩
  | pushNotify => exact .inr ⟨rfl, .inl rfl⟩
  | abortNotify => exact .inr ⟨rfl, .inl rfl⟩

/-- the notification is no longer to come -/
theorem flow_notified (hw : s.WaitSet) {n : QState ι T} {target : Option ι}
    (hn : s.notifyOne target = some n) (ht : (s.pc t).notifies = true)
    (hs : s'.pc = Function.update n.pc t .idle) (hq : s'.queue = n.queue) :
    s'.flow < s.flow := by
  have hone : (s.pc t).dues = 1 := by
    cases e : s.pc t <;> rw [e] at ht <;> first | rfl | cases ht
  have hn' : ∑ u, (n.pc u).dues = ∑ u, (s.pc u).dues ∧ n.pc t = s.pc t ∧ n.queue = s.queue := by
    rcases notifyOne_cases hn with ⟨u, hu, rfl⟩ | ⟨-, rfl⟩
    · obtain ⟨b, hpc⟩ := (hw.mem u).mp hu
      obtain ⟨-, b', hpc'⟩ := hw.wakeUp hu
      have hut : t ≠ u := by
        rintro rfl
        rw [hpc] at ht
        cases ht
      have hsum := sum_places QPc.dues s.pc u (.woken b')
      rw [← hpc', hpc] at hsum
      exact ⟨hsum, by rw [hpc', Function.update_of_ne hut], rfl⟩
    · exact ⟨rfl, rfl, rfl⟩
  obtain ⟨hsum, hpc, hqueue⟩ := hn'
  have hidle := sum_places QPc.dues n.pc t .idle
  rw [← hs, hpc, hone, hsum] at hidle
  refine Prod.Lex.toLex_lt_toLex.mpr (.inl ?_)
  show ∑ u, (s'.pc u).dues + s'.queue.length < ∑ u, (s.pc u).dues + s.queue.length
  rw [hq, hqueue]
  have hzero : (QPc.idle : QPc T).dues = 0 := rfl
  omega

/-- no new call, and nobody comes back from the wait set by itself -/
abbrev Plain (a : QAct ι T) : Prop := Turn (fun _ => False) a

theorem flow_step (h : Tidy maxElems s) {a : QAct ι T} (ha : Plain a) :
    s.step maxElems a = s ∨ (s.step maxElems a).flow < s.flow := by
  cases a with
  | call t c => exact ha.elim
  | wake u => exact ha.elim
  | run t => exact (flow_threadStep h.inv t).symm.imp_left fun e => e.1
  | notify t target =>
    show s.notifyStep t target = s ∨ (s.notifyStep t target).flow < s.flow
    rcases s.notifyStep_cases t target with ⟨n, hn, hpc, e⟩ | ⟨n, hn, hpc, e⟩ | e
    · rw [e]
      exact .inr (flow_notified h.waitSet hn (by rcases hpc with hpc | hpc <;> rw [hpc] <;> rfl)
        rfl rfl)
    · rw [e]
      exact .inr (flow_notified h.waitSet hn (by rw [hpc]; rfl) rfl rfl)
    · exact .inl e
  | reacquire u timeout =>
    obtain rfl : timeout = false := ha
    rcases s.step_reacquire_cases maxElems u false with ⟨b, hpc, e⟩ | e
    · rw [e, Bool.and_false, if_neg Bool.false_ne_true]
      exact (flow_acquire (by rw [hpc]; exact le_rfl)
        (by rw [hpc]; exact Nat.lt_succ_self 4)).symm.imp_left
        fun e => e.1
    · exact .inl e

theorem exists_plain (h : Tidy maxElems s) (hs : ¬s.Returned fun _ => False) :
    ∃ a, Plain a ∧ (s.step maxElems a).flow < s.flow := by
  refine exists_turn_of (L := fun s' => s'.flow < s.flow) h (flow_threadStep h.inv) ?_
    (fun _ _ => False.elim) ?_ hs
  · intro t hpc
    obtain ⟨target, n, hn, hs', hq⟩ := exists_notifyStep hpc
    exact ⟨target, flow_notified h.waitSet hn hpc hs' hq⟩
  · intro t b hpc ho
    rcases flow_acquire (s := s) (t := t) (p := .popTest b) (by rw [hpc]; exact le_rfl)
      (by rw [hpc]; exact Nat.lt_succ_self 4) with hlt | ⟨-, hno⟩
    · exact hlt
    · exact absurd ho hno

/-! ## runs -/

omit [DecidableEq ι] [Fintype ι] in
/-- a thread at rest does not serve, so nobody waits while an item is queued -/
theorem waiters_of_returned {picked : ι → Bool} (h : Watched.Served maxElems ⟨s, picked⟩)
    (hr : s.Returned fun _ => False) (hq : s.queue ≠ []) : s.waiters = [] := by
  by_contra hw
  obtain ⟨t, ht⟩ := h.serves hq hw
  rcases hr t with hpc | ⟨-, b, hpc⟩
  · rw [hpc] at ht
    cases ht
  · rw [hpc] at ht
    cases ht

/-- **Consumers wait for an empty queue only.**  Take any run in which no consumer that has been
notified reports a timeout while an item is queued, and then any schedule without new calls,
timeouts and spurious wake-ups in which each thread gets its steps again and again: from some time
on every call has returned, but for consumers in the wait set, and there are none if an item is
queued. -/
theorem pops_served (maxElems : Nat) (acts : List (QAct ι T))
    (hc : Along (Watched.step maxElems) Watched.OnTime Watched.start acts) (sched : Nat → QAct ι T)
    (hsched : ∀ i, Plain (sched i)) (hfair : ∀ a, Plain a → Recurs sched a) :
    ∃ k, ∀ j, k ≤ j →
      Returned (fun _ => False)
        (runTo (step maxElems) (Lib.run (step maxElems) start acts) sched j) ∧
        ((runTo (step maxElems) (Lib.run (step maxElems) start acts) sched j).queue ≠ [] →
          (runTo (step maxElems) (Lib.run (step maxElems) start acts) sched j).waiters = []) := by
  have h0 : Tidy maxElems (Lib.run (step maxElems) start acts) ∧
      ∃ picked, Watched.Served maxElems ⟨Lib.run (step maxElems) start acts, picked⟩ := by
    have hserved : Watched.Served maxElems (Lib.run (Watched.step maxElems) Watched.start acts) :=
      run_inv (P := Watched.Served maxElems) (fun _ a hok hs => hs.step a hok) hc
        Watched.Served.start
    have hq : (Lib.run (Watched.step maxElems) Watched.start acts).q
        = Lib.run (step maxElems) start acts :=
      Watched.run_q maxElems acts Watched.start
    refine ⟨run_inv' (P := Tidy maxElems) (fun _ a h => h.step a) acts .start,
      (Lib.run (Watched.step maxElems) Watched.start acts).picked, ?_⟩
    rw [← hq]
    exact hserved
  have hstep : ∀ (s : QState ι T) (a : QAct ι T), Plain a →
      (Tidy maxElems s ∧ ∃ picked, Watched.Served maxElems ⟨s, picked⟩) →
      Tidy maxElems (s.step maxElems a) ∧
        ∃ picked, Watched.Served maxElems ⟨s.step maxElems a, picked⟩ := by
    rintro s a ha ⟨ht, picked, hs⟩
    refine ⟨ht.step a, _, hs.step a ?_⟩
    cases a with
    | reacquire u timeout =>
      obtain rfl : timeout = false := ha
      exact trivial
    | call t c => exact trivial
    | run t => exact trivial
    | notify t target => exact trivial
    | wake u => exact trivial
  obtain ⟨k, hk, hstay⟩ := eventually_settled flow (Returned fun _ => False) hstep
    (fun s a ha h => flow_step h.1 ha)
    (fun s h hs => by
      obtain ⟨a, ha, hlt⟩ := exists_plain h.1 hs
      refine ⟨a, ha, fun e => ?_⟩
      rw [e] at hlt
      exact lt_irrefl _ hlt)
    hsched hfair h0
  obtain ⟨-, picked, hserved⟩ := runTo_inv hstep hsched h0 k
  refine ⟨k, fun j hj => ?_⟩
  rw [hstay j hj]
  exact ⟨hk, waiters_of_returned hserved hk⟩

/-- an item is queued for two consumers; the one that is notified takes it, and the other one waits
on -/
theorem pops_served_handoffRun : ∃ k, ∀ j, k ≤ j →
    Returned (fun _ => False) (runTo (step 64) (Lib.run (step 64) start Watched.handoffRun)
      (cycle (turns [0, 1, 2] []) (by decide)) j) ∧
      ((runTo (step 64) (Lib.run (step 64) start Watched.handoffRun)
        (cycle (turns [0, 1, 2] []) (by decide)) j).queue
        ≠ [] → (runTo (step 64) (Lib.run (step 64) start Watched.handoffRun)
          (cycle (turns [0, 1, 2] []) (by decide)) j).waiters = []) :=
  pops_served 64 Watched.handoffRun (by decide) (cycle (turns [0, 1, 2] []) (by decide))
    (fun _ => (turn_of_mem_turns (List.get_mem _ _)).imp fun h => absurd h List.not_mem_nil)
    fun _ h => recurs_cycle _ (mem_turns (by decide) (fun _ => False.elim) h)

end QState

end Udmaio
