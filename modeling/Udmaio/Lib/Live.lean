import Mathlib.Order.WellFounded
import Udmaio.Lib.Run

/-!
# Eventually, under a fair schedule

A schedule is an infinite sequence of actions.  If every action either leaves the state as it is or
lowers a rank, and some action that comes again and again lowers it as long as there is something to
do, then from some time on there is nothing left to do, and nothing changes.

* `runTo step s sched k`   the state after the first `k` actions;
* `Recurs sched a`         the action `a` comes again and again;
* `eventually_settled`     the liveness rule;
* `cycle`                  a fair schedule for finitely many actions.
-/

namespace Udmaio.Lib

section
variable {σ α : Type} (step : σ → α → σ)

def runTo (s : σ) (sched : Nat → α) : Nat → σ
  | 0 => s
  | k+1 => step (runTo s sched k) (sched k)

def Recurs (sched : Nat → α) (a : α) : Prop := ∀ i, ∃ j, i ≤ j ∧ sched j = a

variable {step} {s : σ} {sched : Nat → α}

theorem runTo_inv {ok : α → Prop} {P : σ → Prop} (hstep : ∀ s a, ok a → P s → P (step s a))
    (hok : ∀ i, ok (sched i)) (hs : P s) (k : Nat) : P (runTo step s sched k) := by
  induction k with
  | zero => exact hs
  | succ k ih => exact hstep _ _ (hok k) ih

variable {β : Type} [Preorder β] (rank : σ → β) {ok : α → Prop} {P : σ → Prop}

/-- between two times the state is the same, or its rank is lower -/
theorem runTo_rank (hstep : ∀ s a, ok a → P s → P (step s a))
    (hrank : ∀ s a, ok a → P s → step s a = s ∨ rank (step s a) < rank s)
    (hok : ∀ i, ok (sched i)) (hs : P s) (i d : Nat) :
    runTo step s sched (i + d) = runTo step s sched i ∨
      rank (runTo step s sched (i + d)) < rank (runTo step s sched i) := by
  induction d with
  | zero => exact .inl rfl
  | succ d ih =>
    rcases hrank _ _ (hok (i + d)) (runTo_inv hstep hok hs (i + d)) with hsame | hlt
    · rw [show runTo step s sched (i + (d + 1)) = runTo step s sched (i + d) from hsame]
      exact ih
    · right
      rcases ih with heq | hlt'
      · rw [heq] at hlt
        exact (congrArg (fun t => rank (step t (sched (i + d)))) heq).trans_lt hlt
      · exact hlt.trans hlt'

/-- a schedule that goes through a list again and again -/
def cycle (as : List α) (h : 0 < as.length) (i : Nat) : α := as.get ⟨i % as.length, Nat.mod_lt i h⟩

theorem recurs_cycle {as : List α} (h : 0 < as.length) {a : α} (ha : a ∈ as) :
    Recurs (cycle as h) a := by
  obtain ⟨m, rfl⟩ := List.get_of_mem ha
  intro i
  refine ⟨as.length * i + m, ?_, ?_⟩
  · exact (Nat.le_mul_of_pos_left i h).trans (Nat.le_add_right _ _)
  · unfold cycle
    congr 1
    apply Fin.ext
    show (as.length * i + m) % as.length = m
    rw [Nat.mul_add_mod, Nat.mod_eq_of_lt m.isLt]

/-- **The liveness rule**: from some time on nothing changes, and nothing is left to do. -/
theorem eventually_settled [WellFoundedLT β] (settled : σ → Prop) {helps : α → Prop}
    (hstep : ∀ s a, ok a → P s → P (step s a))
    (hrank : ∀ s a, ok a → P s → step s a = s ∨ rank (step s a) < rank s)
    (hprog : ∀ s, P s → ¬ settled s → ∃ a, helps a ∧ step s a ≠ s)
    (hok : ∀ i, ok (sched i)) (hfair : ∀ a, helps a → Recurs sched a) (hs : P s) :
    ∃ k, settled (runTo step s sched k) ∧ ∀ j, k ≤ j → runTo step s sched j
      = runTo step s sched k := by
  -- the time at which the rank is least
  obtain ⟨k, hmin⟩ : ∃ k, ∀ j, ¬ rank (runTo step s sched j) < rank (runTo step s sched k) := by
    obtain ⟨_, ⟨k, rfl⟩, hk⟩ := wellFounded_lt.has_min
      (Set.range fun k => rank (runTo step s sched k)) ⟨_, 0, rfl⟩
    exact ⟨k, fun j => hk _ ⟨j, rfl⟩⟩
  have hfix : ∀ j, k ≤ j → runTo step s sched j = runTo step s sched k := by
    intro j hj
    obtain ⟨d, rfl⟩ := Nat.exists_eq_add_of_le hj
    exact (runTo_rank rank hstep hrank hok hs k d).resolve_right (hmin _)
  refine ⟨k, ?_, hfix⟩
  by_contra hset
  obtain ⟨a, ha, hne⟩ := hprog _ (runTo_inv hstep hok hs k) hset
  obtain ⟨j, hkj, hj⟩ := hfair a ha k
  apply hne
  calc step (runTo step s sched k) a
      = runTo step s sched (j + 1) := by rw [runTo, hfix j hkj, hj]
    _ = runTo step s sched k := hfix (j + 1) (Nat.le_succ_of_le hkj)

end

end Udmaio.Lib
