import Mathlib.Data.Fintype.Basic
import Udmaio.Queue.Fifo

/-!
# Is a consumer left waiting while data is queued?

`push` and `pop` end with `notify_one`, so a notification is passed on from thread to thread as long
as the queue holds an item.  `pop` with a timeout breaks the chain: `wait_for` compares the clock
after it has been woken, and a consumer that `notify_one` has picked may report a timeout and leave
without looking at the queue (`late_timeout_strands`).

* `Watched`              the queue, and for every thread whether `notify_one` has picked it and it
                         has not come back from `wait` yet;
* `Stranded`             an item is queued, a consumer without timeout waits, and nobody is going to
                         take an item or to notify;
* `Served`               the invariant: while an item is queued and a thread waits, some thread is
                         at work on it;
* `no_stranded_consumer` **no run strands a consumer in which no picked consumer reports a timeout
                         while the queue holds an item.**
-/

namespace Udmaio
open Lib

/-- the thread is going to take an item or to notify, once it runs; `picked`: it was woken by
`notify_one` -/
def QPc.serves {T : Type} (picked : Bool) : QPc T → Bool
  | .woken _ => picked
  | .popTest _ => true
  | .popTake => true
  | .popUnlock => true
  | .popNotify => true
  | .pushUnlock => true
  | .pushNotify => true
  | _ => false

def QPc.isWoken {T : Type} : QPc T → Bool
  | .woken _ => true
  | _ => false

def QAct.isNotify {ι T : Type} : QAct ι T → Bool
  | .notify _ _ => true
  | _ => false

/-! ## the wait set -/

namespace QState
variable {ι T : Type} {s s' : QState ι T} {t : ι} {p : QPc T}

/-- the members of the wait set are the threads inside `wait` -/
structure WaitSet (s : QState ι T) : Prop where
  nodup : s.waiters.Nodup
  mem : ∀ u, u ∈ s.waiters ↔ ∃ timed, s.pc u = .waiting timed

theorem WaitSet.start : WaitSet (start : QState ι T) where
  nodup := List.nodup_nil
  mem u := by simp [QState.start]

variable [DecidableEq ι]

theorem WaitSet.goto (h : WaitSet s) (hpc : s'.pc = Function.update s.pc t p)
    (hw : s'.waiters = s.waiters) (ht : ∀ timed, s.pc t ≠ .waiting timed)
    (hp : ∀ timed, p ≠ .waiting timed) : WaitSet s' where
  nodup := hw ▸ h.nodup
  mem u := by
    rw [hw, h.mem, hpc]
    by_cases e : u = t
    · subst e
      rw [Function.update_self]
      exact ⟨fun ⟨b, hb⟩ => absurd hb (ht b), fun ⟨b, hb⟩ => absurd hb (hp b)⟩
    · rw [Function.update_of_ne e]

theorem WaitSet.enter (h : WaitSet s) {timed : Bool} (ht : ∀ timed, s.pc t ≠ .waiting timed)
    (hpc : s'.pc = Function.update s.pc t (.waiting timed)) (hw : s'.waiters = s.waiters ++ [t]) :
    WaitSet s' where
  nodup := by
    have hnot : t ∉ s.waiters := fun hm => ((h.mem t).mp hm).elim ht
    rw [hw]
    exact List.nodup_append.mpr ⟨h.nodup, List.nodup_singleton t,
      fun u hu v hv e => hnot (by rw [← List.mem_singleton.mp hv, ← e]; exact hu)⟩
  mem u := by
    rw [hw, List.mem_append, h.mem, List.mem_singleton, hpc]
    by_cases e : u = t
    · subst e
      rw [Function.update_self]
      exact ⟨fun _ => ⟨timed, rfl⟩, fun _ => Or.inr rfl⟩
    · rw [Function.update_of_ne e]
      exact ⟨fun hu => hu.resolve_right e, Or.inl⟩

/-- waking a member of the wait set takes it out -/
theorem WaitSet.wakeUp (h : WaitSet s) {u : ι} (hu : u ∈ s.waiters) : WaitSet (s.wakeUp u) ∧
    ∃ timed, (s.wakeUp u).pc = Function.update s.pc u (.woken timed) := by
  obtain ⟨timed, hpc⟩ := (h.mem u).mp hu
  have hw : (s.wakeUp u).pc = Function.update s.pc u (.woken timed) := by
    unfold QState.wakeUp QState.goto
    simp only [hpc]
  refine ⟨⟨h.nodup.erase u, fun v => ?_⟩, timed, hw⟩
  show v ∈ s.waiters.erase u ↔ _
  rw [h.nodup.mem_erase_iff, h.mem, hw]
  by_cases e : v = u
  · subst e
    simp
  · simp [e]

theorem WaitSet.acquire (h : WaitSet s) (ht : ∀ timed, s.pc t ≠ .waiting timed)
    (hp : ∀ timed, p ≠ .waiting timed) : WaitSet (s.acquire t p) := by
  unfold QState.acquire
  split
  · exact h.goto rfl rfl ht hp
  · exact h

theorem WaitSet.threadStep (h : WaitSet s) (maxElems : Nat) (t : ι) :
    WaitSet (s.threadStep maxElems t) := by
  unfold QState.threadStep
  cases hpc : s.pc t with
  | popLock timed => exact h.acquire (by simp [hpc]) (by simp)
  | pushLock item => exact h.acquire (by simp [hpc]) (by simp)
  | popTest timed => exact h.goto rfl rfl (by simp [hpc]) (by split <;> simp)
  | popAbort timed => exact h.goto rfl rfl (by simp [hpc]) (by split <;> simp)
  | popEnter timed => exact h.enter (by simp [hpc]) rfl rfl
  | popLeave timedOut => exact h.goto rfl rfl (by simp [hpc]) (by simp)
  | popTake =>
    dsimp only
    split
    · exact h.goto rfl rfl (by simp [hpc]) (by simp)
    · exact h
  | popUnlock => exact h.goto rfl rfl (by simp [hpc]) (by simp)
  | pushTest item => exact h.goto rfl rfl (by simp [hpc]) (by split <;> simp)
  | pushThrow => exact h.goto rfl rfl (by simp [hpc]) (by simp)
  | pushAppend item => exact h.goto rfl rfl (by simp [hpc]) (by simp)
  | pushUnlock => exact h.goto rfl rfl (by simp [hpc]) (by simp)
  | abortSet => exact h.goto rfl rfl (by simp [hpc]) (by simp)
  | idle => exact h
  | waiting timed => exact h
  | woken timed => exact h
  | popNotify => exact h
  | pushNotify => exact h
  | abortNotify => exact h

/-- `notify_one` wakes a member of the wait set, or there is none; the notifying thread is done -/
theorem WaitSet.notified (h : WaitSet s) {n : QState ι T} {target : Option ι}
    (hn : s.notifyOne target = some n) (ht : ∀ timed, s.pc t ≠ .waiting timed)
    (hpc : s'.pc = Function.update n.pc t .idle) (hw : s'.waiters = n.waiters) :
    WaitSet s' ∧ (s'.waiters = [] ∨
      ∃ u timed, s.pc u = .waiting timed ∧ s'.pc u = .woken timed) := by
  rcases notifyOne_cases hn with ⟨u, hu, rfl⟩ | ⟨he, rfl⟩
  · obtain ⟨hset, timed, hpc'⟩ := h.wakeUp hu
    obtain ⟨timed', hu'⟩ := (h.mem u).mp hu
    have hne : u ≠ t := by
      rintro rfl
      exact ht _ hu'
    have hwoken : (s.wakeUp u).pc u = .woken timed' := by
      unfold QState.wakeUp QState.goto
      simp only [hu', Function.update_self]
    refine ⟨hset.goto hpc hw (fun b hb => ?_) (by simp), Or.inr ⟨u, timed', hu', ?_⟩⟩
    · rw [hpc', Function.update_of_ne hne.symm] at hb
      exact ht b hb
    · rw [hpc, Function.update_of_ne hne, hwoken]
  · exact ⟨h.goto hpc hw ht (by simp), Or.inl (hw.trans he)⟩

/-- the step of a notification: nothing, or one waiting thread is woken, or none is left -/
theorem WaitSet.notifyStep (h : WaitSet s) (t : ι) (target : Option ι) :
    WaitSet (s.notifyStep t target) ∧ (s.notifyStep t target = s ∨
      (s.notifyStep t target).waiters = [] ∨
        ∃ u timed, s.pc u = .waiting timed ∧ (s.notifyStep t target).pc u = .woken timed) := by
  rcases s.notifyStep_cases t target with ⟨n, hn, hpc, e⟩ | ⟨n, hn, hpc, e⟩ | e <;> rw [e]
  · refine And.imp_right Or.inr (h.notified hn (fun timed ht => ?_) rfl rfl)
    rcases hpc with hpc | hpc <;> cases hpc.symm.trans ht
  · exact And.imp_right Or.inr (h.notified hn (by simp [hpc]) rfl rfl)
  · exact ⟨h, Or.inl rfl⟩

theorem WaitSet.step (h : WaitSet s) (maxElems : Nat) (a : QAct ι T) :
    WaitSet (s.step maxElems a) := by
  refine step_rule a h ?_ (h.threadStep maxElems) (fun t target _ => (h.notifyStep t target).1)
    (fun u hu => (h.wakeUp hu).1) ?_
  · intro t c _ hpc
    exact h.goto rfl rfl (by simp [hpc]) (by cases c <;> simp [Call.entry])
  · intro u timed timeout hpc
    exact h.acquire (by simp [hpc]) (by split <;> simp)

end QState

/-! ## notifications -/

structure Watched (ι T : Type) where
  q : QState ι T
  picked : ι → Bool

namespace Watched
variable {ι T : Type} [DecidableEq ι]

def start : Watched ι T := ⟨QState.start, fun _ => false⟩

/-- a step of the queue; a thread that a notification has woken is picked until it is back -/
def step (maxElems : Nat) (w : Watched ι T) (a : QAct ι T) : Watched ι T where
  q := w.q.step maxElems a
  picked u := ((w.q.step maxElems a).pc u).isWoken &&
    (w.picked u || (a.isNotify && !(w.q.pc u).isWoken))

theorem run_q (maxElems : Nat) (acts : List (QAct ι T)) (w : Watched ι T) :
    (Lib.run (step maxElems) w acts).q = Lib.run (QState.step maxElems) w.q acts := by
  induction acts generalizing w with
  | nil => rfl
  | cons a acts ih => exact ih (w.step maxElems a)

def Stranded (w : Watched ι T) : Prop :=
  w.q.queue ≠ [] ∧ (∃ u ∈ w.q.waiters, w.q.pc u = .waiting false) ∧
    ∀ t, (w.q.pc t).serves (w.picked t) = false

/-- `wait_for` reports no timeout to a consumer that `notify_one` has picked while an item is
queued -/
def OnTime (w : Watched ι T) : QAct ι T → Prop
  | .reacquire u true => w.q.owner = none → w.q.pc u = .woken true → w.picked u = true →
      w.q.queue = []
  | _ => True

/-! ## the invariant -/

structure Served (maxElems : Nat) (w : Watched ι T) : Prop where
  inv : QState.Inv maxElems w.q
  waitSet : w.q.WaitSet
  serves : w.q.queue ≠ [] → w.q.waiters ≠ [] → ∃ t, (w.q.pc t).serves (w.picked t) = true

variable {maxElems : Nat} {w : Watched ι T} {a : QAct ι T} {t : ι} {p : QPc T}

omit [DecidableEq ι] in
theorem Served.start : Served maxElems (start : Watched ι T) where
  inv := QState.Inv.start
  waitSet := QState.WaitSet.start
  serves h := absurd rfl h

/-- a thread that stays where it is goes on serving -/
theorem serves_of_stays (hpc : (w.step maxElems a).q.pc t = w.q.pc t)
    (h : (w.q.pc t).serves (w.picked t) = true) :
    ((w.step maxElems a).q.pc t).serves ((w.step maxElems a).picked t) = true := by
  have hp : (w.step maxElems a).picked t = ((w.q.pc t).isWoken &&
      (w.picked t || (a.isNotify && !(w.q.pc t).isWoken))) := by
    show (((w.step maxElems a).q.pc t).isWoken && _) = _
    rw [hpc]
  rw [hpc, hp]
  cases e : w.q.pc t <;> rw [e] at h <;> simp_all [QPc.serves, QPc.isWoken]

/-- thread `t` moves to `p`: it serves there, or it did not serve before -/
theorem Served.serves_move (h : Served maxElems w)
    (hpc : (w.step maxElems a).q.pc = Function.update w.q.pc t p)
    (hp : p.serves ((w.step maxElems a).picked t) = true ∨
      (w.q.pc t).serves (w.picked t) = false ∧ w.q.queue ≠ [] ∧ w.q.waiters ≠ []) :
    ∃ u, ((w.step maxElems a).q.pc u).serves ((w.step maxElems a).picked u) = true := by
  rcases hp with hp | ⟨ht, hq, hw⟩
  · refine ⟨t, ?_⟩
    rw [hpc, Function.update_self]
    exact hp
  · obtain ⟨u, hu⟩ := h.serves hq hw
    have hne : u ≠ t := by
      rintro rfl
      rw [ht] at hu
      cases hu
    refine ⟨u, serves_of_stays ?_ hu⟩
    rw [hpc, Function.update_of_ne hne]

/-! ## every action -/

theorem Served.serves_same (h : Served maxElems w) (e : (w.step maxElems a).q = w.q)
    (hq : (w.step maxElems a).q.queue ≠ []) (hw : (w.step maxElems a).q.waiters ≠ []) :
    ∃ u, ((w.step maxElems a).q.pc u).serves ((w.step maxElems a).picked u) = true := by
  rw [e] at hq hw
  obtain ⟨u, hu⟩ := h.serves hq hw
  exact ⟨u, serves_of_stays (by rw [e]) hu⟩

/-- a thread that does not serve moves and leaves queue and wait set alone -/
theorem Served.serves_aside (h : Served maxElems w) {q' : QState ι T}
    (e : (w.step maxElems a).q = q') (hpc : q'.pc = Function.update w.q.pc t p)
    (hqe : q'.queue = w.q.queue) (hwe : q'.waiters = w.q.waiters)
    (ht : (w.q.pc t).serves (w.picked t) = false)
    (hq : (w.step maxElems a).q.queue ≠ []) (hw : (w.step maxElems a).q.waiters ≠ []) :
    ∃ u, ((w.step maxElems a).q.pc u).serves ((w.step maxElems a).picked u) = true := by
  rw [e, hqe] at hq
  rw [e, hwe] at hw
  exact h.serves_move (by rw [e]; exact hpc) (Or.inr ⟨ht, hq, hw⟩)

/-- a thread outside takes the mutex -/
theorem Served.serves_acquire (h : Served maxElems w)
    (e : (w.step maxElems a).q = w.q.acquire t p)
    (hp : w.q.owner = none → w.q.queue ≠ [] → p.serves ((w.step maxElems a).picked t) = true ∨
      (w.q.pc t).serves (w.picked t) = false)
    (hq : (w.step maxElems a).q.queue ≠ []) (hw : (w.step maxElems a).q.waiters ≠ []) :
    ∃ u, ((w.step maxElems a).q.pc u).serves ((w.step maxElems a).picked u) = true := by
  unfold QState.acquire at e
  split at e
  · next ho =>
    rw [e] at hq hw
    refine h.serves_move (t := t) (p := p) (by rw [e]; rfl) ?_
    exact (hp (Option.isNone_iff_eq_none.mp ho) hq).imp_right fun hs => ⟨hs, hq, hw⟩
  · exact h.serves_same e hq hw

theorem Served.serves_run (h : Served maxElems w) (t : ι)
    (hq : (w.step maxElems (.run t)).q.queue ≠ [])
    (hw : (w.step maxElems (.run t)).q.waiters ≠ []) :
    ∃ u, ((w.step maxElems (.run t)).q.pc u).serves ((w.step maxElems (.run t)).picked u)
      = true := by
  have e : (w.step maxElems (.run t)).q = w.q.threadStep maxElems t := rfl
  unfold QState.threadStep at e
  cases hpc : w.q.pc t with
  | popLock timed =>
    simp only [hpc] at e
    exact h.serves_acquire e (fun _ _ => Or.inl rfl) hq hw
  | pushLock item =>
    simp only [hpc] at e
    exact h.serves_acquire e (fun _ _ => Or.inr (by rw [hpc]; rfl)) hq hw
  | popTest timed =>
    simp only [hpc] at e
    rw [e] at hq
    have hne : w.q.queue ≠ [] := hq
    refine h.serves_move (t := t) (by rw [e]; rfl) (Or.inl ?_)
    rw [if_neg (fun he => hne (List.isEmpty_iff.mp he))]
    rfl
  | popEnter timed =>
    -- the consumer has found the queue empty, and nobody else had the mutex since
    simp only [hpc] at e
    rw [e] at hq
    have hf := h.inv.guarded.fact t (by rw [hpc]; rfl)
    rw [hpc] at hf
    exact absurd hf hq
  | popTake =>
    simp only [hpc] at e
    split at e
    · exact h.serves_move (t := t) (by rw [e]; rfl) (Or.inl rfl)
    · exact h.serves_same e hq hw
  | popUnlock =>
    simp only [hpc] at e
    exact h.serves_move (t := t) (by rw [e]; rfl) (Or.inl rfl)
  | pushAppend item =>
    simp only [hpc] at e
    exact h.serves_move (t := t) (by rw [e]; rfl) (Or.inl rfl)
  | pushUnlock =>
    simp only [hpc] at e
    exact h.serves_move (t := t) (by rw [e]; rfl) (Or.inl rfl)
  | popAbort timed =>
    simp only [hpc] at e
    exact h.serves_aside e rfl rfl rfl (by rw [hpc]; rfl) hq hw
  | popLeave timedOut =>
    simp only [hpc] at e
    exact h.serves_aside e rfl rfl rfl (by rw [hpc]; rfl) hq hw
  | pushTest item =>
    simp only [hpc] at e
    exact h.serves_aside e rfl rfl rfl (by rw [hpc]; rfl) hq hw
  | pushThrow =>
    simp only [hpc] at e
    exact h.serves_aside e rfl rfl rfl (by rw [hpc]; rfl) hq hw
  | abortSet =>
    simp only [hpc] at e
    exact h.serves_aside e rfl rfl rfl (by rw [hpc]; rfl) hq hw
  | idle => simp only [hpc] at e; exact h.serves_same e hq hw
  | waiting timed => simp only [hpc] at e; exact h.serves_same e hq hw
  | woken timed => simp only [hpc] at e; exact h.serves_same e hq hw
  | popNotify => simp only [hpc] at e; exact h.serves_same e hq hw
  | pushNotify => simp only [hpc] at e; exact h.serves_same e hq hw
  | abortNotify => simp only [hpc] at e; exact h.serves_same e hq hw

theorem Served.step (h : Served maxElems w) (a : QAct ι T) (hc : w.OnTime a) :
    Served maxElems (w.step maxElems a) := by
  refine ⟨h.inv.step a, h.waitSet.step maxElems a, ?_⟩
  intro hq hw
  cases a with
  | run t => exact h.serves_run t hq hw
  | call t c =>
    rcases w.q.step_call_cases maxElems t c with ⟨hpc, e⟩ | e
    · exact h.serves_aside e rfl rfl rfl (by rw [hpc]; rfl) hq hw
    · exact h.serves_same e hq hw
  | notify t target =>
    rcases (h.waitSet.notifyStep t target).2 with e | e | ⟨u, timed, hu, hu'⟩
    · exact h.serves_same e hq hw
    · exact absurd e hw
    · refine ⟨u, ?_⟩
      have hp : (w.step maxElems (.notify t target)).picked u = true := by
        show ((_ : QPc T).isWoken && (w.picked u || (true && !(w.q.pc u).isWoken))) = true
        rw [show (w.q.step maxElems (.notify t target)).pc u = .woken timed from hu', hu]
        simp [QPc.isWoken]
      rw [show (w.step maxElems (.notify t target)).q.pc u = .woken timed from hu', hp]
      rfl
  | wake u =>
    have hstep : (w.step maxElems (.wake u)).q = w.q.step maxElems (.wake u) := rfl
    rcases w.q.step_wake_cases maxElems u with ⟨hu, e⟩ | e
    · obtain ⟨-, timed, hpc⟩ := h.waitSet.wakeUp hu
      obtain ⟨timed', hu'⟩ := (h.waitSet.mem u).mp hu
      rw [hstep, e] at hq
      exact h.serves_move (t := u) (by rw [hstep, e]; exact hpc)
        (Or.inr ⟨by rw [hu']; rfl, hq, List.ne_nil_of_mem hu⟩)
    · exact h.serves_same e hq hw
  | reacquire u timeout =>
    rcases w.q.step_reacquire_cases maxElems u timeout with ⟨timed, hpc, e⟩ | e
    · refine h.serves_acquire e (fun ho hq => ?_) hq hw
      split
      · next ht =>
        right
        rw [Bool.and_eq_true] at ht
        rw [ht.1] at hpc
        rw [ht.2] at hc
        rw [hpc]
        exact Bool.eq_false_iff.mpr fun hp => hq (hc ho hpc hp)
      · exact Or.inl rfl
    · exact h.serves_same e hq hw

/-! ## runs -/

/-- **No consumer is stranded while data is queued**, in any run in which no consumer that
`notify_one` has picked reports a timeout while the queue holds an item. -/
theorem no_stranded_consumer (maxElems : Nat) (acts : List (QAct ι T))
    (hc : Along (step maxElems) OnTime start acts) :
    let w := Lib.run (step maxElems) start acts
    w.q = Lib.run (QState.step maxElems) QState.start acts ∧ ¬ w.Stranded := by
  refine ⟨run_q maxElems acts start, ?_⟩
  have h : Served maxElems (Lib.run (step maxElems) start acts) :=
    run_inv (P := Served maxElems) (fun _ a hok hs => hs.step a hok) hc Served.start
  rintro ⟨hq, ⟨u, hu, -⟩, hno⟩
  obtain ⟨t, ht⟩ := h.serves hq (List.ne_nil_of_mem hu)
  rw [hno t] at ht
  cases ht

instance [Fintype ι] [DecidableEq T] (w : Watched ι T) : Decidable w.Stranded :=
  inferInstanceAs (Decidable (w.q.queue ≠ [] ∧ (∃ u ∈ w.q.waiters, w.q.pc u = .waiting false) ∧
    ∀ t, (w.q.pc t).serves (w.picked t) = false))

instance [DecidableEq T] (w : Watched ι T) : ∀ a, Decidable (w.OnTime a)
  | .reacquire u true => inferInstanceAs (Decidable
      (w.q.owner = none → w.q.pc u = .woken true → w.picked u = true → w.q.queue = []))
  | .reacquire _ false => .isTrue trivial
  | .call _ _ => .isTrue trivial
  | .run _ => .isTrue trivial
  | .notify _ _ => .isTrue trivial
  | .wake _ => .isTrue trivial

/-- consumers `0` (no timeout) and `1` (timeout) wait, then `2` pushes an item and notifies `1` -/
def handoffRun : List (QAct (Fin 3) Nat) :=
  .call 0 (.pop false) :: (List.replicate 4 (QAct.run 0) ++
    QAct.call 1 (.pop true) :: (List.replicate 4 (QAct.run 1) ++
      QAct.call 2 (.push 7) :: (List.replicate 4 (QAct.run 2) ++ [QAct.notify 2 (some 1)])))

/-- the consumer comes back in time, takes the item and notifies the other one -/
theorem no_stranded_consumer_handoffRun :
    let w := Lib.run (step 64) start (handoffRun ++
      [.reacquire 1 false, .run 1, .run 1, .run 1, .notify 1 (some 0)])
    w.q.results = [.item 7] ∧ w.q.pc 0 = .woken false ∧ ¬ w.Stranded :=
  ⟨by decide, by decide, (no_stranded_consumer 64 _ (by decide)).2⟩

/-- **A late timeout strands a consumer**: the one that was notified reports a timeout and leaves;
the item stays queued, the other consumer waits and every thread is at rest. -/
theorem late_timeout_strands :
    let w := Lib.run (step 64) start (handoffRun ++ [.reacquire 1 true, .run 1])
    w.Stranded ∧ ∀ t, w.q.pc t = .idle ∨ w.q.pc t = .waiting false := by
  decide

end Watched

end Udmaio
