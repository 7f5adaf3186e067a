import Udmaio.Queue.System

/-!
# The queue is a bounded FIFO

The mutex makes the tests of `pop` and `push` stable: what a thread has found out about the queue
stays true until it gives the mutex back (`QState.fact`, with `Lib.Guarded`).

* `QState.Inv`    the invariant, `Inv.step` that every action keeps it;
* `Fifo`          what the queue is for: items come out in the order in which they were accepted,
                  none lost or doubled, at most `max_elems` at a time; a push throws exactly when
                  the queue is full; `pop` returns the empty value only on timeout or from an empty
                  queue;
* `blocking_fifo`  **every reachable state is a FIFO.**
-/

namespace Udmaio
open Lib

def QPc.holds {T : Type} : QPc T → Bool
  | .popTest _ => true
  | .popAbort _ => true
  | .popEnter _ => true
  | .popLeave _ => true
  | .popTake => true
  | .popUnlock => true
  | .pushTest _ => true
  | .pushThrow => true
  | .pushAppend _ => true
  | .pushUnlock => true
  | _ => false

/-- what the thread knows about the queue -/
def QPc.fact {T : Type} (maxElems : Nat) : QPc T → List T → Prop
  | .popAbort _, q => q = []
  | .popEnter _, q => q = []
  | .popLeave false, q => q = []
  | .popTake, q => q ≠ []
  | .pushThrow, q => maxElems ≤ q.length
  | .pushAppend _, q => q.length < maxElems
  | _, _ => True

namespace QState
variable {ι T : Type} {maxElems : Nat} {s : QState ι T} {t : ι}

structure Inv (maxElems : Nat) (s : QState ι T) : Prop where
  guarded : Guarded QPc.holds (QPc.fact maxElems) s.owner s.pc s.queue
  conserved : s.accepted = s.popped ++ s.queue
  bounded : s.queue.length ≤ maxElems
  empties : ∀ left, Ret.empty false left ∈ s.results → left = []

theorem Inv.start : Inv maxElems (start : QState ι T) where
  guarded := ⟨fun _ h => Bool.noConfusion h, fun _ h => Bool.noConfusion h⟩
  conserved := rfl
  bounded := Nat.zero_le _
  empties := by simp [QState.start]

/-! ## moves that leave queue and logs alone -/

variable [DecidableEq ι]

theorem Inv.outside (h : Inv maxElems s) {p : QPc T} (hp : p.holds = false) :
    Inv maxElems (s.goto t p) := ⟨h.guarded.outside hp, h.conserved, h.bounded, h.empties⟩

theorem Inv.inside (h : Inv maxElems s) {p : QPc T} (ht : (s.pc t).holds = true)
    (hp : p.fact maxElems s.queue) : Inv maxElems (s.goto t p) :=
  ⟨h.guarded.inside ht hp, h.conserved, h.bounded, h.empties⟩

theorem Inv.acquire (h : Inv maxElems s) {p : QPc T} (hp : p.fact maxElems s.queue) :
    Inv maxElems (s.acquire t p) := by
  unfold QState.acquire
  split
  · next ho =>
    have hg := h.guarded
    rw [Option.isNone_iff_eq_none.mp ho] at hg
    exact ⟨hg.acquire hp, h.conserved, h.bounded, h.empties⟩
  · exact h

theorem Inv.release (h : Inv maxElems s) {p : QPc T} (ht : (s.pc t).holds = true)
    (hp : p.holds = false) : Inv maxElems (s.release t p) :=
  ⟨h.guarded.release ht hp, h.conserved, h.bounded, h.empties⟩

theorem Inv.wakeUp (h : Inv maxElems s) (u : ι) : Inv maxElems (s.wakeUp u) := by
  have h' : Inv maxElems { s with waiters := s.waiters.erase u } :=
    ⟨h.guarded, h.conserved, h.bounded, h.empties⟩
  rcases s.wakeUp_cases u with ⟨timed, e⟩ | e
  · rw [e]
    exact h'.outside rfl
  · rw [e]
    exact h'

theorem Inv.notifyOne (h : Inv maxElems s) {target : Option ι} {s' : QState ι T}
    (hn : s.notifyOne target = some s') : Inv maxElems s' := by
  rcases notifyOne_cases hn with ⟨u, -, rfl⟩ | ⟨-, rfl⟩
  · exact h.wakeUp u
  · exact h

/-! ## every action -/

theorem Inv.threadStep (h : Inv maxElems s) (t : ι) : Inv maxElems (s.threadStep maxElems t) := by
  have hg := h.guarded
  unfold QState.threadStep
  cases hpc : s.pc t with
  | popLock timed => exact h.acquire trivial
  | pushLock item => exact h.acquire trivial
  | abortSet =>
    have h' : Inv maxElems { s with abort := true } :=
      ⟨h.guarded, h.conserved, h.bounded, h.empties⟩
    exact h'.outside rfl
  | popUnlock => exact h.release (by rw [hpc]; rfl) rfl
  | pushUnlock => exact h.release (by rw [hpc]; rfl) rfl
  | popTest timed =>
    refine h.inside (by rw [hpc]; rfl) ?_
    split
    · next he => exact List.isEmpty_iff.mp he
    · next he => exact fun e => he (List.isEmpty_iff.mpr e)
  | popAbort timed =>
    have hq := hg.fact t (by rw [hpc]; rfl)
    rw [hpc] at hq
    refine h.inside (by rw [hpc]; rfl) ?_
    split <;> exact hq
  | popEnter timed =>
    have h' : Inv maxElems { s with waiters := s.waiters ++ [t] } :=
      ⟨h.guarded, h.conserved, h.bounded, h.empties⟩
    exact h'.release (by rw [hpc]; rfl) rfl
  | popLeave timedOut =>
    refine ⟨hg.release (by rw [hpc]; rfl) rfl, ?_, h.bounded, ?_⟩
    · show s.accepted = (s.results ++ [_]).filterMap Ret.item? ++ s.queue
      rw [List.filterMap_append, h.conserved]
      simp [popped, Ret.item?]
    · intro left hl
      rcases List.mem_append.mp hl with hl | hl
      · exact h.empties left hl
      · have hq := hg.fact t (by rw [hpc]; rfl)
        rw [hpc] at hq
        obtain ⟨rfl, rfl⟩ : false = timedOut ∧ left = s.queue := by simpa using hl
        exact hq
  | popTake =>
    dsimp only
    split
    · next v q hv =>
      refine ⟨hg.inside (by rw [hpc]; rfl) trivial, ?_, ?_, ?_⟩
      · show s.accepted = (s.results ++ [_]).filterMap Ret.item? ++ q
        rw [List.filterMap_append, h.conserved, hv]
        simp [popped, Ret.item?]
      · have := h.bounded
        rw [hv, List.length_cons] at this
        exact Nat.le_of_succ_le this
      · intro left hl
        rcases List.mem_append.mp hl with hl | hl
        · exact h.empties left hl
        · exact absurd hl (by simp)
    · exact h
  | pushTest item =>
    refine h.inside (by rw [hpc]; rfl) ?_
    split
    · next hle => exact hle
    · next hlt => exact Nat.lt_of_not_le hlt
  | pushThrow =>
    have h' : Inv maxElems { s with thrown := s.thrown ++ [fullMsg] } :=
      ⟨h.guarded, h.conserved, h.bounded, h.empties⟩
    exact h'.release (by rw [hpc]; rfl) rfl
  | pushAppend item =>
    have hq := hg.fact t (by rw [hpc]; rfl)
    rw [hpc] at hq
    refine ⟨hg.inside (by rw [hpc]; rfl) trivial, ?_, ?_, h.empties⟩
    · show s.accepted ++ [item] = s.popped ++ (s.queue ++ [item])
      rw [h.conserved, List.append_assoc]
    · show (s.queue ++ [item]).length ≤ maxElems
      rw [List.length_append, List.length_singleton]
      exact hq
  | idle => exact h
  | waiting timed => exact h
  | woken timed => exact h
  | popNotify => exact h
  | pushNotify => exact h
  | abortNotify => exact h

theorem Inv.notifyStep (h : Inv maxElems s) (t : ι) (target : Option ι) :
    Inv maxElems (s.notifyStep t target) := by
  rcases s.notifyStep_cases t target with ⟨s', hn, -, e⟩ | ⟨s', hn, -, e⟩ | e <;> rw [e]
  · exact (h.notifyOne hn).outside rfl
  · have h' := h.notifyOne hn
    have h'' : Inv maxElems { s' with abortReturned := true } :=
      ⟨h'.guarded, h'.conserved, h'.bounded, h'.empties⟩
    exact h''.outside rfl
  · exact h

theorem Inv.step (h : Inv maxElems s) (a : QAct ι T) : Inv maxElems (s.step maxElems a) := by
  refine step_rule a h ?_ h.threadStep (fun t target _ => h.notifyStep t target)
    (fun u _ => h.wakeUp u) ?_
  · intro t c _ _
    exact h.outside (by cases c <;> rfl)
  · intro u timed timeout _
    apply h.acquire
    split <;> exact trivial

/-! ## the FIFO -/

/-- a bounded FIFO, seen from outside and at the decisions of `pop` and `push` -/
structure Fifo (maxElems : Nat) (s : QState ι T) : Prop where
  -- what was accepted is what was returned, in order, and then what is queued
  conserved : s.accepted = s.popped ++ s.queue
  bounded : s.queue.length ≤ maxElems
  -- a push is going to throw exactly if it finds the queue full ..
  throws_iff : ∀ t item, s.pc t = .pushTest item →
    ((s.step maxElems (.run t)).pc t = .pushThrow ↔ maxElems ≤ s.queue.length)
  -- .. which it still is when it throws, and the queue stays as it is ..
  throws : ∀ t, s.pc t = .pushThrow → maxElems ≤ s.queue.length ∧
    (s.step maxElems (.run t)).queue = s.queue ∧
    (s.step maxElems (.run t)).thrown = s.thrown ++ [fullMsg]
  -- .. else its item is appended
  appends : ∀ t item, s.pc t = .pushAppend item → s.queue.length < maxElems ∧
    (s.step maxElems (.run t)).queue = s.queue ++ [item]
  -- a pop that finds an item takes it, aborted or not
  takes : ∀ t timed, s.pc t = .popTest timed → s.queue ≠ [] →
    (s.step maxElems (.run t)).pc t = .popTake
  returns : ∀ t, s.pc t = .popTake → ∃ v q, s.queue = v :: q ∧
    (s.step maxElems (.run t)).queue = q ∧
    (s.step maxElems (.run t)).results = s.results ++ [.item v]
  -- a pop that has returned the empty value has timed out or left an empty queue
  empties : ∀ timedOut left, Ret.empty timedOut left ∈ s.results → timedOut = true ∨ left = []

theorem Inv.toFifo (h : Inv maxElems s) : Fifo maxElems s where
  conserved := h.conserved
  bounded := h.bounded
  throws_iff t item hpc := by
    unfold QState.step QState.threadStep goto
    simp only [hpc, Function.update_self]
    split <;> simp_all
  throws t hpc := by
    have hq := h.guarded.fact t (by rw [hpc]; rfl)
    rw [hpc] at hq
    unfold QState.step QState.threadStep
    simp only [hpc]
    exact ⟨hq, rfl, rfl⟩
  appends t item hpc := by
    have hq := h.guarded.fact t (by rw [hpc]; rfl)
    rw [hpc] at hq
    unfold QState.step QState.threadStep
    simp only [hpc]
    exact ⟨hq, rfl⟩
  takes t timed hpc hne := by
    unfold QState.step QState.threadStep goto
    simp only [hpc, Function.update_self]
    rw [if_neg (fun he => hne (List.isEmpty_iff.mp he))]
  returns t hpc := by
    have hq := h.guarded.fact t (by rw [hpc]; rfl)
    rw [hpc] at hq
    obtain ⟨v, q, hv⟩ := List.exists_cons_of_ne_nil hq
    refine ⟨v, q, hv, ?_⟩
    unfold QState.step QState.threadStep
    simp only [hpc, hv]
    exact ⟨rfl, rfl⟩
  empties timedOut left hl := by
    cases timedOut with
    | true => exact Or.inl rfl
    | false => exact Or.inr (h.empties left hl)

/-- **Blocking FIFO.**  For any threads, any `max_elems` and any interleaving, with timeouts and
spurious wake-ups at any time. -/
theorem blocking_fifo (maxElems : Nat) (acts : List (QAct ι T)) :
    Fifo maxElems (Lib.run (step maxElems) start acts) :=
  (run_inv' (P := Inv maxElems) (fun _ a h => h.step a) acts Inv.start).toFifo

/-- thread 1 waits in `pop`, and the item that thread 0 pushes wakes it up -/
example :
    let s := Lib.run (step 1) (start : QState Nat Nat)
      [.call 1 (.pop false), .run 1, .run 1, .run 1, .run 1, .call 0 (.push 7), .run 0,
        .run 0, .run 0, .run 0, .notify 0 (some 1), .reacquire 1 false, .run 1, .run 1, .run 1]
    s.accepted = [7] ∧ s.results = [.item 7] ∧ s.queue = [] := by
  decide

end QState

end Udmaio
