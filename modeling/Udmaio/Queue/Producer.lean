import Udmaio.Queue.Fifo

/-!
# A queue with one producer

One thread `io` pushes, one item at a time, and stops after the first `push` that throws; all other
threads only call `pop` and `abort`.

* `Sole io s`           the places of the threads under this rule;
* `Produced io s log`   `log`, the items that `io` has passed to `push` so far, against the queue:
                        they are the accepted ones, but for the last one while it is not yet
                        appended, or for good if `push` has thrown;
* `Produced.aside`      steps of the other threads, of `notify_one` and of the condition variable
                        leave both alone;
* `Produced.run`        the steps of `io` in a call;
* `Produced.push`       a new call;
* `Produced.popped_log`     **what is popped is what was pushed, in order.**
-/

namespace Udmaio
open Lib

/-- the thread is in a call of `push` -/
def QPc.pushes {T : Type} : QPc T → Bool
  | .pushLock _ => true
  | .pushTest _ => true
  | .pushThrow => true
  | .pushAppend _ => true
  | .pushUnlock => true
  | .pushNotify => true
  | _ => false

/-- the items `log` that a producer at this place has passed to `push`, against those accepted and
the exceptions thrown so far -/
def QPc.Handed {T : Type} (log accepted : List T) (thrown : List String) : QPc T → Prop
  | .pushLock v => log = accepted ++ [v] ∧ thrown = []
  | .pushTest v => log = accepted ++ [v] ∧ thrown = []
  | .pushAppend v => log = accepted ++ [v] ∧ thrown = []
  | .pushThrow => (∃ v, log = accepted ++ [v]) ∧ thrown = []
  | .idle => log = accepted ∧ thrown = [] ∨ (∃ v, log = accepted ++ [v]) ∧ thrown = [fullMsg]
  | _ => log = accepted ∧ thrown = []

theorem QPc.Handed.accepted_log {T : Type} {p : QPc T} {log accepted : List T}
    {thrown : List String} (h : p.Handed log accepted thrown) : accepted <+: log := by
  unfold QPc.Handed at h
  split at h
  · exact h.1 ▸ List.prefix_append _ _
  · exact h.1 ▸ List.prefix_append _ _
  · exact h.1 ▸ List.prefix_append _ _
  · obtain ⟨⟨v, rfl⟩, -⟩ := h
    exact List.prefix_append _ _
  · rcases h with ⟨rfl, -⟩ | ⟨⟨v, rfl⟩, -⟩
    · exact List.prefix_refl _
    · exact List.prefix_append _ _
  · exact h.1 ▸ List.prefix_refl _

namespace QState
variable {ι T : Type} {io : ι} {s s' : QState ι T} {log : List T} {maxElems : Nat}

structure Sole (io : ι) (s : QState ι T) : Prop where
  others : ∀ t, t ≠ io → (s.pc t).pushes = false
  producer : s.pc io = .idle ∨ (s.pc io).pushes = true

def Produced (io : ι) (s : QState ι T) (log : List T) : Prop :=
  (s.pc io).Handed log s.accepted s.thrown

theorem Sole.start : Sole io (start : QState ι T) := ⟨fun _ _ => rfl, Or.inl rfl⟩

theorem Produced.start : Produced io (start : QState ι T) [] := Or.inl ⟨rfl, rfl⟩

/-- **What is popped is what was pushed, in order.** -/
theorem Produced.popped_log (h : Produced io s log) (hi : Inv maxElems s) : s.popped <+: log := by
  have hacc := QPc.Handed.accepted_log h
  rw [hi.conserved] at hacc
  exact (List.prefix_append _ _).trans hacc

/-! ## steps that do not concern the producer -/

/-- the step leaves the producer and its logs alone and lets no other thread push -/
structure Aside (io : ι) (s s' : QState ι T) : Prop where
  pc : s'.pc io = s.pc io
  others : ∀ t, t ≠ io → (s.pc t).pushes = false → (s'.pc t).pushes = false
  accepted : s'.accepted = s.accepted
  thrown : s'.thrown = s.thrown

theorem Aside.refl (s : QState ι T) : Aside io s s := ⟨rfl, fun _ _ h => h, rfl, rfl⟩

theorem Aside.trans {u : QState ι T} (h : Aside io s s') (h' : Aside io s' u) : Aside io s u where
  pc := h'.pc.trans h.pc
  others t ht hp := h'.others t ht (h.others t ht hp)
  accepted := h'.accepted.trans h.accepted
  thrown := h'.thrown.trans h.thrown

theorem Aside.sole (h : Aside io s s') (hs : Sole io s) : Sole io s' where
  others t ht := h.others t ht (hs.others t ht)
  producer := by
    rw [h.pc]
    exact hs.producer

theorem Aside.produced (h : Aside io s s') (hp : Produced io s log) : Produced io s' log := by
  unfold Produced at hp ⊢
  rw [h.pc, h.accepted, h.thrown]
  exact hp

variable [DecidableEq ι] {t : ι}

theorem Aside.goto (ht : t ≠ io) {p : QPc T} (hp : p.pushes = false)
    (hpc : s'.pc = Function.update s.pc t p) (hacc : s'.accepted = s.accepted)
    (hthr : s'.thrown = s.thrown) : Aside io s s' where
  pc := by rw [hpc, Function.update_of_ne (Ne.symm ht)]
  others u _ hu := by
    rw [hpc]
    by_cases e : u = t
    · rw [e, Function.update_self]
      exact hp
    · rw [Function.update_of_ne e]
      exact hu
  accepted := hacc
  thrown := hthr

theorem Aside.acquire (ht : t ≠ io) {p : QPc T} (hp : p.pushes = false) :
    Aside io s (s.acquire t p) := by
  unfold QState.acquire
  split
  · exact Aside.goto ht hp rfl rfl rfl
  · exact Aside.refl s

/-- the producer does not wait, so that it is not woken up -/
theorem Aside.wakeUp (hs : Sole io s) (u : ι) : Aside io s (s.wakeUp u) := by
  have hne : ∀ timed, s.pc io ≠ .waiting timed := by
    intro timed e
    rcases hs.producer with h | h <;> rw [e] at h <;> cases h
  unfold QState.wakeUp
  by_cases hu : u = io
  · subst hu
    split
    · next timed h => exact absurd h (hne timed)
    · refine ⟨Function.update_self .., fun t ht hp => ?_, rfl, rfl⟩
      show (Function.update s.pc u _ t).pushes = false
      rw [Function.update_of_ne ht]
      exact hp
  · refine Aside.goto hu ?_ rfl rfl rfl
    split
    · rfl
    · exact hs.others u hu

theorem Aside.threadStep (hs : Sole io s) (ht : t ≠ io) : Aside io s (s.threadStep maxElems t) := by
  have hp := hs.others t ht
  unfold QState.threadStep
  cases hpc : s.pc t with
  | popLock timed => exact Aside.acquire ht rfl
  | popTest timed => exact Aside.goto ht (by split <;> rfl) rfl rfl rfl
  | popAbort timed => exact Aside.goto ht (by split <;> rfl) rfl rfl rfl
  | popEnter timed => exact Aside.goto ht rfl rfl rfl rfl
  | popLeave timedOut => exact Aside.goto ht rfl rfl rfl rfl
  | popTake =>
    dsimp only
    split
    · exact Aside.goto ht rfl rfl rfl rfl
    · exact Aside.refl s
  | popUnlock => exact Aside.goto ht rfl rfl rfl rfl
  | abortSet => exact Aside.goto ht rfl rfl rfl rfl
  | pushLock _ | pushTest _ | pushThrow | pushAppend _ | pushUnlock =>
    rw [hpc] at hp
    cases hp
  | idle | waiting _ | woken _ | popNotify | pushNotify | abortNotify => exact Aside.refl s

theorem Aside.notifyOne (hs : Sole io s) {target : Option ι} (hn : s.notifyOne target = some s') :
    Aside io s s' := by
  rcases notifyOne_cases hn with ⟨u, -, rfl⟩ | ⟨-, rfl⟩
  · exact Aside.wakeUp hs u
  · exact Aside.refl _

theorem Aside.notifyStep (hs : Sole io s) (ht : t ≠ io) (target : Option ι) :
    Aside io s (s.notifyStep t target) := by
  rcases s.notifyStep_cases t target with ⟨n, hn, -, e⟩ | ⟨n, hn, -, e⟩ | e <;> rw [e]
  · exact (Aside.notifyOne hs hn).trans (Aside.goto ht rfl rfl rfl rfl)
  · exact (Aside.notifyOne hs hn).trans (Aside.goto ht rfl rfl rfl rfl)
  · exact Aside.refl s

theorem Aside.reacquire (hs : Sole io s) (u : ι) (timeout : Bool) :
    Aside io s (s.step maxElems (.reacquire u timeout)) := by
  rcases s.step_reacquire_cases maxElems u timeout with ⟨timed, hpc, e⟩ | e <;> rw [e]
  · have hu : u ≠ io := by
      rintro rfl
      rcases hs.producer with h | h <;> rw [hpc] at h <;> cases h
    exact Aside.acquire hu (by split <;> rfl)
  · exact Aside.refl s

theorem Aside.wake (hs : Sole io s) (u : ι) : Aside io s (s.step maxElems (.wake u)) := by
  rcases s.step_wake_cases maxElems u with ⟨-, e⟩ | e <;> rw [e]
  · exact Aside.wakeUp hs u
  · exact Aside.refl s

/-- a call of `pop` or `abort` by another thread -/
theorem Aside.call (ht : t ≠ io) {c : Call T} (hc : c.entry.pushes = false) :
    Aside io s (s.step maxElems (.call t c)) := by
  rcases s.step_call_cases maxElems t c with ⟨-, e⟩ | e <;> rw [e]
  · exact Aside.goto ht hc rfl rfl rfl
  · exact Aside.refl s

/-! ## steps of the producer -/

theorem Sole.goto (hs : Sole io s) {p : QPc T} (hp : p = .idle ∨ p.pushes = true)
    (hpc : s'.pc = Function.update s.pc io p) : Sole io s' where
  others t ht := by
    rw [hpc, Function.update_of_ne ht]
    exact hs.others t ht
  producer := by
    rw [hpc, Function.update_self]
    exact hp

theorem Produced.goto {p : QPc T} (hpc : s'.pc = Function.update s.pc io p)
    (h : p.Handed log s'.accepted s'.thrown) : Produced io s' log := by
  unfold Produced
  rw [hpc, Function.update_self]
  exact h

/-- a new call; the producer has not seen an exception yet -/
theorem Produced.push (h : Produced io s log) (hpc : s.pc io = .idle) (hthr : s.thrown = [])
    (v : T) :
    Produced io (s.goto io (.pushLock v)) (log ++ [v]) := by
  unfold Produced at h
  rw [hpc] at h
  refine Produced.goto rfl ⟨?_, hthr⟩
  rcases h with h | h
  · rw [h.1]
    rfl
  · rw [hthr] at h
    cases h.2

/-- the producer takes the next step of its call -/
theorem Produced.run (h : Produced io s log) (hs : Sole io s) :
    Produced io (s.threadStep maxElems io) log ∧ Sole io (s.threadStep maxElems io) := by
  have hp := hs.producer
  have hsame : Produced io s log ∧ Sole io s := ⟨h, hs⟩
  unfold Produced at h
  unfold QState.threadStep
  cases hpc : s.pc io with
  | idle => exact hsame
  | pushNotify => exact hsame
  | pushLock v =>
    rw [hpc] at h
    dsimp only
    unfold QState.acquire
    split
    · exact ⟨Produced.goto rfl h, hs.goto (Or.inr rfl) rfl⟩
    · exact hsame
  | pushTest v =>
    rw [hpc] at h
    dsimp only
    split
    · exact ⟨Produced.goto rfl ⟨⟨v, h.1⟩, h.2⟩, hs.goto (Or.inr rfl) rfl⟩
    · exact ⟨Produced.goto rfl h, hs.goto (Or.inr rfl) rfl⟩
  | pushAppend v =>
    rw [hpc] at h
    exact ⟨Produced.goto rfl h, hs.goto (Or.inr rfl) rfl⟩
  | pushThrow =>
    rw [hpc] at h
    refine ⟨Produced.goto rfl (Or.inr ⟨h.1, ?_⟩), hs.goto (Or.inl rfl) rfl⟩
    show s.thrown ++ [fullMsg] = [fullMsg]
    rw [h.2]
    rfl
  | pushUnlock =>
    rw [hpc] at h
    exact ⟨Produced.goto rfl h, hs.goto (Or.inr rfl) rfl⟩
  -- not places of a producer
  | popLock _ | popTest _ | popAbort _ | popEnter _ | waiting _ | woken _ | popLeave _ | popTake
  | popUnlock | popNotify | abortSet | abortNotify =>
    rw [hpc] at hp
    rcases hp with hp | hp <;> cases hp

/-- only `pushThrow` throws -/
theorem threadStep_thrown (ht : s.pc t ≠ .pushThrow) :
    (s.threadStep maxElems t).thrown = s.thrown := by
  unfold QState.threadStep
  split
  case h_1 => unfold QState.acquire; split <;> rfl
  case h_6 => split <;> rfl
  case h_8 => unfold QState.acquire; split <;> rfl
  case h_10 h => exact absurd h ht
  all_goals rfl

theorem notifyStep_thrown (target : Option ι) : (s.notifyStep t target).thrown = s.thrown := by
  rcases s.notifyStep_cases t target with ⟨n, hn, -, e⟩ | ⟨n, hn, -, e⟩ | e <;> rw [e]
  · rcases notifyOne_cases hn with ⟨u, -, rfl⟩ | ⟨-, rfl⟩ <;> rfl
  · rcases notifyOne_cases hn with ⟨u, -, rfl⟩ | ⟨-, rfl⟩ <;> rfl

/-- the `notify_one` at the end of `push` -/
theorem Produced.notify (h : Produced io s log) (hs : Sole io s) (target : Option ι) :
    Produced io (s.notifyStep io target) log ∧ Sole io (s.notifyStep io target) := by
  have hp := hs.producer
  rcases s.notifyStep_cases io target with ⟨n, hn, hpc, e⟩ | ⟨n, hn, hpc, e⟩ | e <;> rw [e]
  · have ha := Aside.notifyOne hs hn
    refine ⟨Produced.goto rfl (Or.inl ?_), (ha.sole hs).goto (Or.inl rfl) rfl⟩
    have h' := ha.produced h
    unfold Produced at h'
    rw [ha.pc] at h'
    rcases hpc with hpc | hpc
    · rw [hpc] at hp
      rcases hp with hp | hp <;> cases hp
    · rw [hpc] at h'
      exact h'
  · rw [hpc] at hp
    rcases hp with hp | hp <;> cases hp
  · exact ⟨h, hs⟩

end QState

end Udmaio
