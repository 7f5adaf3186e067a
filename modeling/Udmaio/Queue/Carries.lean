import Udmaio.Queue.Fifo

/-!
# What comes out of the queue

* `Carries P`       every item that was pushed or is being pushed satisfies `P`, and a `pop` that
                    gives up without a timeout has seen `_abort`;
* `Carries.step`    kept by every action that pushes no other item;
* `Carries.result`  **what `pop` returns**: an item with `P`, or nothing after a timeout or an
                    abort.
-/

namespace Udmaio
open Lib

/-- the item that a thread is about to append -/
def QPc.item? {T : Type} : QPc T → Option T
  | .pushLock item => some item
  | .pushTest item => some item
  | .pushAppend item => some item
  | _ => none

namespace QState
variable {ι T : Type} {P : T → Prop} {maxElems : Nat} {s s' : QState ι T}

structure Carries (P : T → Prop) (s : QState ι T) : Prop where
  accepted : ∀ v ∈ s.accepted, P v
  pushing : ∀ t v, (s.pc t).item? = some v → P v
  leaving : ∀ t, s.pc t = .popLeave false → s.abort = true
  empties : ∀ left, Ret.empty false left ∈ s.results → s.abort = true

theorem Carries.start : Carries P (start : QState ι T) where
  accepted := by simp [QState.start]
  pushing t v h := by cases h
  leaving t h := by cases h
  empties := by simp [QState.start]

variable [DecidableEq ι]

/-- a thread moves; the flag is not taken back -/
theorem Carries.goto (h : Carries P s) {t : ι} {p : QPc T}
    (hpc : s'.pc = Function.update s.pc t p) (hp : ∀ v, p.item? = some v → P v)
    (hl : p = .popLeave false → s'.abort = true) (ha : s.abort = true → s'.abort = true)
    (hacc : ∀ v ∈ s'.accepted, P v)
    (hres : ∀ left, Ret.empty false left ∈ s'.results → s'.abort = true) : Carries P s' where
  accepted := hacc
  pushing := by
    rw [hpc, Function.forall_update_iff s.pc fun _ q => ∀ v, q.item? = some v → P v]
    exact ⟨hp, fun u _ => h.pushing u⟩
  leaving := by
    rw [hpc, Function.forall_update_iff s.pc fun _ q => q = .popLeave false → s'.abort = true]
    exact ⟨hl, fun u _ hu => ha (h.leaving u hu)⟩
  empties := hres

/-- a move that pushes nothing and writes no log -/
theorem Carries.move (h : Carries P s) {t : ι} {p : QPc T}
    (hpc : s'.pc = Function.update s.pc t p) (hp : ∀ v, p.item? = some v → P v)
    (hl : p = .popLeave false → s.abort = true) (ha : s'.abort = s.abort)
    (hacc : s'.accepted = s.accepted) (hres : s'.results = s.results) : Carries P s' :=
  h.goto hpc hp (fun e => ha.trans (hl e)) (fun e => ha.trans e) (by rw [hacc]; exact h.accepted)
    (by rw [hres, ha]; exact h.empties)

theorem Carries.acquire (h : Carries P s) {t : ι} {p : QPc T} (hp : ∀ v, p.item? = some v → P v)
    (hl : p = .popLeave false → s.abort = true) : Carries P (s.acquire t p) := by
  unfold QState.acquire
  split
  · exact h.move rfl hp hl rfl rfl rfl
  · exact h

theorem Carries.wakeUp (h : Carries P s) (u : ι) : Carries P (s.wakeUp u) := by
  rcases s.wakeUp_cases u with ⟨timed, e⟩ | e
  · rw [e]
    exact h.move rfl (by simp [QPc.item?]) (by simp) rfl rfl rfl
  · rw [e]
    exact ⟨h.accepted, h.pushing, h.leaving, h.empties⟩

theorem Carries.threadStep (h : Carries P s) (t : ι) : Carries P (s.threadStep maxElems t) := by
  have hp := h.pushing t
  unfold QState.threadStep
  cases hpc : s.pc t with
  | popLock timed => exact h.acquire (by simp [QPc.item?]) (by simp)
  | pushLock item =>
    rw [hpc] at hp
    exact h.acquire hp (by simp)
  | popTest timed =>
    refine h.move rfl ?_ ?_ rfl rfl rfl
    · split <;> simp [QPc.item?]
    · split <;> simp
  | popAbort timed =>
    refine h.move rfl ?_ ?_ rfl rfl rfl
    · split <;> simp [QPc.item?]
    · split
      · next ha => exact fun _ => ha
      · simp
  | popEnter timed => exact h.move rfl (by simp [QPc.item?]) (by simp) rfl rfl rfl
  | popLeave timedOut =>
    refine h.goto rfl (by simp [QPc.item?]) (by simp) id h.accepted (fun left hl => ?_)
    rcases List.mem_append.mp hl with hl | hl
    · exact h.empties left hl
    · obtain ⟨rfl, -⟩ : false = timedOut ∧ left = s.queue := by simpa using hl
      exact h.leaving t hpc
  | popTake =>
    dsimp only
    split
    · refine h.goto rfl (by simp [QPc.item?]) (by simp) id h.accepted (fun left hl => ?_)
      rcases List.mem_append.mp hl with hl | hl
      · exact h.empties left hl
      · exact absurd hl (by simp)
    · exact h
  | popUnlock => exact h.move rfl (by simp [QPc.item?]) (by simp) rfl rfl rfl
  | pushTest item =>
    rw [hpc] at hp
    refine h.move rfl ?_ ?_ rfl rfl rfl
    · split
      · simp [QPc.item?]
      · exact hp
    · split <;> simp
  | pushThrow => exact h.move rfl (by simp [QPc.item?]) (by simp) rfl rfl rfl
  | pushAppend item =>
    rw [hpc] at hp
    refine h.goto rfl (by simp [QPc.item?]) (by simp) id (fun v hv => ?_) h.empties
    rcases List.mem_append.mp hv with hv | hv
    · exact h.accepted v hv
    · rw [List.mem_singleton.mp hv]
      exact hp item rfl
  | pushUnlock => exact h.move rfl (by simp [QPc.item?]) (by simp) rfl rfl rfl
  | abortSet =>
    exact h.goto rfl (by simp [QPc.item?]) (by simp) (fun _ => rfl) h.accepted fun _ _ => rfl
  | idle => exact h
  | waiting timed => exact h
  | woken timed => exact h
  | popNotify => exact h
  | pushNotify => exact h
  | abortNotify => exact h

theorem Carries.notifyOne (h : Carries P s) {target : Option ι}
    (hn : s.notifyOne target = some s') :
    Carries P s' := by
  rcases notifyOne_cases hn with ⟨u, -, rfl⟩ | ⟨-, rfl⟩
  · exact h.wakeUp u
  · exact h

theorem Carries.notifyStep (h : Carries P s) (t : ι) (target : Option ι) :
    Carries P (s.notifyStep t target) := by
  rcases s.notifyStep_cases t target with ⟨s', hn, -, e⟩ | ⟨s', hn, -, e⟩ | e <;> rw [e]
  · exact (h.notifyOne hn).move rfl (by simp [QPc.item?]) (by simp) rfl rfl rfl
  · exact (h.notifyOne hn).move rfl (by simp [QPc.item?]) (by simp) rfl rfl rfl
  · exact h

/-- **Every action that pushes no item without `P`.** -/
theorem Carries.step (h : Carries P s) (a : QAct ι T) (ha : ∀ t v, a = .call t (.push v) → P v) :
    Carries P (s.step maxElems a) := by
  refine step_rule a h ?_ h.threadStep (fun t target _ => h.notifyStep t target)
    (fun u _ => h.wakeUp u) ?_
  · intro t c e _
    refine h.move rfl (fun v hv => ?_) ?_ rfl rfl rfl
    · cases c with
      | push item =>
        obtain rfl : item = v := Option.some.inj hv
        exact ha t item e
      | pop timed => cases hv
      | abort => cases hv
    · cases c <;> simp [Call.entry]
  · intro u timed timeout _
    apply h.acquire
    · split <;> simp [QPc.item?]
    · split <;> simp

omit [DecidableEq ι] in
/-- **What `pop` returns.** -/
theorem Carries.result (h : Carries P s) (hi : Inv maxElems s) {r : Ret T} (hr : r ∈ s.results) :
    (∃ v, r = .item v ∧ P v) ∨ ∃ timedOut left, r = .empty timedOut left ∧
      (timedOut = true ∨ s.abort = true) := by
  cases r with
  | item v =>
    refine Or.inl ⟨v, rfl, h.accepted v ?_⟩
    rw [hi.conserved]
    exact List.mem_append_left _ (List.mem_filterMap.mpr ⟨_, hr, rfl⟩)
  | empty timedOut left =>
    refine Or.inr ⟨timedOut, left, rfl, ?_⟩
    cases timedOut with
    | true => exact Or.inl rfl
    | false => exact Or.inr (h.empties left hr)

end QState

end Udmaio
