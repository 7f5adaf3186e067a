import Mathlib.Logic.Function.Basic

/-!
# Data behind a mutex

Threads `ι` with a place `pc t` each, data `d` of type `δ`, and a mutex with at most one owner.

* `holds p`     a thread at `p` holds the mutex;
* `fact p d`    what a thread at `p` has found out about the data, if it holds the mutex;
* `Guarded`     who holds the mutex owns it, and its facts are true.

A step of a thread is one of four kinds, with one rule each: it takes the mutex (`acquire`), changes
the data under it (`inside`), gives it up (`release`) or stays outside (`outside`).  The facts of
the other threads need no argument: they do not hold the mutex.  The other way round, `Held`: the
owner is at a place where it holds the mutex.
-/

namespace Udmaio.Lib

section
variable {ι π δ : Type}

structure Guarded (holds : π → Bool) (fact : π → δ → Prop) (owner : Option ι) (pc : ι → π) (d : δ) :
    Prop where
  lock : ∀ t, holds (pc t) = true → owner = some t
  fact : ∀ t, holds (pc t) = true → fact (pc t) d

namespace Guarded
variable {holds : π → Bool} {fact : π → δ → Prop} {owner : Option ι} {pc : ι → π} {d : δ} {t : ι}
  {p : π}

/-- only one thread holds the mutex -/
theorem eq_of_holds (h : Guarded holds fact owner pc d) (ht : holds (pc t) = true) {u : ι}
    (hu : holds (pc u) = true) : u = t :=
  Option.some.inj ((h.lock u hu).symm.trans (h.lock t ht))

variable [DecidableEq ι]

/-- thread `t` moves to `p`: what has to hold of it and of the others -/
theorem move {owner : Option ι} {d : δ} (hself : holds p = true → owner = some t ∧ fact p d)
    (hother : ∀ u, u ≠ t → holds (pc u) = true → owner = some u ∧ fact (pc u) d) :
    Guarded holds fact owner (Function.update pc t p) d := by
  have key : ∀ u, holds (Function.update pc t p u) = true →
      owner = some u ∧ fact (Function.update pc t p u) d :=
    (Function.forall_update_iff pc fun u q => holds q = true → owner = some u ∧ fact q d).mpr
      ⟨hself, hother⟩
  exact ⟨fun u hu => (key u hu).1, fun u hu => (key u hu).2⟩

theorem acquire (h : Guarded holds fact none pc d) (hp : fact p d) :
    Guarded holds fact (some t) (Function.update pc t p) d := by
  apply move
  · exact fun _ => ⟨rfl, hp⟩
  · intro u _ hu
    cases h.lock u hu

theorem inside (h : Guarded holds fact owner pc d) (ht : holds (pc t) = true) {d' : δ}
    (hp : fact p d') : Guarded holds fact owner (Function.update pc t p) d' := by
  apply move
  · exact fun _ => ⟨h.lock t ht, hp⟩
  · intro u hne hu
    exact absurd (h.eq_of_holds ht hu) hne

theorem release (h : Guarded holds fact owner pc d) (ht : holds (pc t) = true)
    (hp : holds p = false) : Guarded holds fact none (Function.update pc t p) d := by
  apply move
  · exact fun hp' => Bool.noConfusion (hp.symm.trans hp')
  · intro u hne hu
    exact absurd (h.eq_of_holds ht hu) hne

theorem outside (h : Guarded holds fact owner pc d) (hp : holds p = false) :
    Guarded holds fact owner (Function.update pc t p) d := by
  apply move
  · exact fun hp' => Bool.noConfusion (hp.symm.trans hp')
  · exact fun u _ hu => ⟨h.lock u hu, h.fact u hu⟩

end Guarded

/-- the owner is a thread that holds the mutex, so that it gives it up -/
def Held (holds : π → Bool) (owner : Option ι) (pc : ι → π) : Prop :=
  ∀ t, owner = some t → holds (pc t) = true

namespace Held
variable [DecidableEq ι] {holds : π → Bool} {owner : Option ι} {pc : ι → π} {t : ι} {p : π}

theorem acquire (hp : holds p = true) : Held holds (some t) (Function.update pc t p) := by
  intro u hu
  obtain rfl := Option.some.inj hu
  rw [Function.update_self]
  exact hp

theorem release : Held holds none (Function.update pc t p) := nofun

theorem inside (h : Held holds owner pc) (hp : holds p = true) :
    Held holds owner (Function.update pc t p) :=
  fun u hu => (Function.forall_update_iff pc fun u q => owner = some u → holds q = true).mpr
    ⟨fun _ => hp, fun u _ => h u⟩ u hu

theorem outside (h : Held holds owner pc) (ht : holds (pc t) = false) :
    Held holds owner (Function.update pc t p) := by
  intro u hu
  have hne : u ≠ t := by
    rintro rfl
    exact Bool.noConfusion (ht.symm.trans (h u hu))
  rw [Function.update_of_ne hne]
  exact h u hu

end Held

end

end Udmaio.Lib
