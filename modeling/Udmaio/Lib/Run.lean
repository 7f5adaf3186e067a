import Mathlib.Data.List.Basic

/-!
# Runs of a total step function

A system is a step function `step : σ → α → σ` on a state type; an action that is not enabled
leaves the state as it is.  A run is a list of actions, its head first.

* `run step s as`         the state after the run;
* `Along step ok s as`    every step of the run meets `ok`, a condition on the state before the
                          step and on the action;
* `run_inv`               the invariant rule: what every such step keeps, the run keeps;
* `run_sim`               the simulation rule, for two systems with the same actions;
* `Reaches step ok s t`   some run of actions that meet `ok` leads from `s` to `t`.
-/

namespace Udmaio.Lib

section
variable {σ α : Type} (step : σ → α → σ)

def run : σ → List α → σ
  | s, [] => s
  | s, a :: as => run (step s a) as

def Along (ok : σ → α → Prop) : σ → List α → Prop
  | _, [] => True
  | s, a :: as => ok s a ∧ Along ok (step s a) as

instance (ok : σ → α → Prop) [∀ s a, Decidable (ok s a)] :
    ∀ (s : σ) (as : List α), Decidable (Along step ok s as)
  | _, [] => .isTrue trivial
  | s, a :: as =>
    have := instDecidableAlong ok (step s a) as
    inferInstanceAs (Decidable (ok s a ∧ Along step ok (step s a) as))

/-- a condition on the actions alone holds along the run if every action meets it -/
theorem Along.of_forall {Q : α → Prop} (as : List α) (h : ∀ a ∈ as, Q a) (s : σ) :
    Along step (fun _ a => Q a) s as := by
  induction as generalizing s with
  | nil => exact trivial
  | cons a as ih =>
    exact ⟨h a List.mem_cons_self, ih (fun b hb => h b (List.mem_cons_of_mem _ hb)) _⟩

theorem Along.congr {P Q : σ → α → Prop} (h : ∀ s a, P s a ↔ Q s a) (s : σ) (as : List α) :
    Along step P s as ↔ Along step Q s as := by
  induction as generalizing s with
  | nil => exact Iff.rfl
  | cons a as ih => exact and_congr (h s a) (ih (step s a))

variable {step}

/-- **The invariant rule.** -/
theorem run_inv {ok : σ → α → Prop} {P : σ → Prop}
    (hstep : ∀ s a, ok s a → P s → P (step s a)) {s : σ} {as : List α}
    (hok : Along step ok s as) (hs : P s) : P (run step s as) := by
  induction as generalizing s with
  | nil => exact hs
  | cons a as ih => exact ih hok.2 (hstep s a hok.1 hs)

theorem run_append (s : σ) (as bs : List α) :
    run step s (as ++ bs) = run step (run step s as) bs := by
  induction as generalizing s with
  | nil => rfl
  | cons a as ih => exact ih (step s a)

theorem run_inv' {P : σ → Prop} (hstep : ∀ s a, P s → P (step s a)) {s : σ}
    (as : List α) (hs : P s) : P (run step s as) := by
  induction as generalizing s with
  | nil => exact hs
  | cons a as ih => exact ih (hstep s a hs)

/-- **The simulation rule**: if each step is matched by the same step of another system, or by none,
then each run is matched by a part of it. -/
theorem run_sim {τ : Type} {step' : τ → α → τ} {R : σ → τ → Prop}
    (hstep : ∀ s t a, R s t → R (step s a) t ∨ R (step s a) (step' t a)) {s : σ} {t : τ}
    (hs : R s t) (as : List α) : ∃ bs, bs.Sublist as ∧ R (run step s as) (run step' t bs) := by
  induction as generalizing s t with
  | nil => exact ⟨[], List.Sublist.refl _, hs⟩
  | cons a as ih =>
    rcases hstep s t a hs with h | h
    · obtain ⟨bs, hbs, hr⟩ := ih h
      exact ⟨bs, hbs.cons a, hr⟩
    · obtain ⟨bs, hbs, hr⟩ := ih h
      exact ⟨a :: bs, hbs.cons_cons a, hr⟩

variable (step) in
def Reaches (ok : α → Prop) (s t : σ) : Prop := ∃ as, (∀ a ∈ as, ok a) ∧ run step s as = t

variable {ok : α → Prop} {s t u : σ}

theorem Reaches.refl (s : σ) : Reaches step ok s s :=
  ⟨[], fun _ h => absurd h List.not_mem_nil, rfl⟩

theorem Reaches.trans (h : Reaches step ok s t) (h' : Reaches step ok t u) :
    Reaches step ok s u := by
  obtain ⟨as, has, rfl⟩ := h
  obtain ⟨bs, hbs, rfl⟩ := h'
  refine ⟨as ++ bs, fun a ha => ?_, run_append s as bs⟩
  exact (List.mem_append.mp ha).elim (has a) (hbs a)

theorem Reaches.head {a : α} (ha : ok a) (h : Reaches step ok (step s a) t) :
    Reaches step ok s t := by
  obtain ⟨as, has, rfl⟩ := h
  refine ⟨a :: as, fun b hb => ?_, rfl⟩
  exact (List.mem_cons.mp hb).elim (fun e => e ▸ ha) (has b)

end

end Udmaio.Lib
