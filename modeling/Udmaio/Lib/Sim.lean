import Udmaio.Lib.Prog

/-!
# Simulation between programs

Two programs over different states do the same: from related states they return the same value,
throw the same exception or both run out of fuel, and leave related states.

* `Same R Q`    two results: the same value with the property `Q`, or the same way to stop;
* `Sim R Q`     two programs that end in such results from all states related by `R`;
* `Sim.bind`, `Sim.get_bind`, `Sim.modify`   the rules for sequences and for access to the state;
* `Sim.lift`    programs on a part of both states.
-/

namespace Udmaio.Lib

section
variable {σ τ α β : Type}

inductive Same (R : σ → τ → Prop) (Q : α → Prop) :
    EStateM.Result Stop σ α → EStateM.Result Stop τ α → Prop
  | ok {a : α} {s : σ} {t : τ} : Q a → R s t → Same R Q (.ok a s) (.ok a t)
  | error {e : Stop} {s : σ} {t : τ} : R s t → Same R Q (.error e s) (.error e t)

def Sim (R : σ → τ → Prop) (Q : α → Prop) (x : Prog σ α) (y : Prog τ α) : Prop :=
  ∀ s t, R s t → Same R Q (x s) (y t)

variable {R : σ → τ → Prop} {Q : α → Prop} {Q' : β → Prop}

theorem Same.final {r : EStateM.Result Stop σ α} {r' : EStateM.Result Stop τ α}
    (h : Same R Q r r') :
    R (Lib.final r) (Lib.final r') := by
  cases h with
  | ok _ hr => exact hr
  | error hr => exact hr

theorem Sim.pure {a : α} (h : Q a) : Sim R Q (pure a : Prog σ α) (pure a : Prog τ α) :=
  fun _ _ hr => .ok h hr

theorem Sim.throw (e : Stop) : Sim R Q (throw e : Prog σ α) (throw e : Prog τ α) :=
  fun _ _ hr => .error hr

/-- the rest of a sequence, from the result of its head on -/
theorem Same.bind {x : Prog σ α} {y : Prog τ α} {f : α → Prog σ β} {g : α → Prog τ β}
    {s : σ} {t : τ} (hx : Same R Q (x s) (y t)) (hf : ∀ a, Q a → Sim R Q' (f a) (g a)) :
    Same R Q' ((x >>= f) s) ((y >>= g) t) := by
  show Same R Q' (EStateM.bind x f s) (EStateM.bind y g t)
  unfold EStateM.bind
  revert hx
  generalize x s = r
  generalize y t = r'
  intro hx
  cases hx with
  | ok ha hr => exact hf _ ha _ _ hr
  | error hr => exact .error hr

theorem Sim.bind {x : Prog σ α} {y : Prog τ α} {f : α → Prog σ β} {g : α → Prog τ β}
    (hx : Sim R Q x y) (hf : ∀ a, Q a → Sim R Q' (f a) (g a)) : Sim R Q' (x >>= f) (y >>= g) :=
  fun s t hr => (hx s t hr).bind hf

/-- both programs look at their states -/
theorem Sim.get_bind {f : σ → Prog σ β} {g : τ → Prog τ β}
    (h : ∀ s t, R s t → Same R Q' (f s s) (g t t)) : Sim R Q' (get >>= f) (get >>= g) :=
  fun s t hr => h s t hr

theorem Sim.modify {f : σ → σ} {g : τ → τ} (h : ∀ s t, R s t → R (f s) (g t)) :
    Sim R (fun _ => True) (modify f : Prog σ Unit) (modify g : Prog τ Unit) :=
  fun s t hr => .ok trivial (h s t hr)

/-- a program on a part of the state -/
def onPart {π : Type} (part : σ → π) (put : σ → π → σ) (x : Prog π α) : Prog σ α := fun s =>
  match x (part s) with
  | .ok a p => .ok a (put s p)
  | .error e p => .error e (put s p)

theorem onPart_ok {π : Type} {part : σ → π} {put : σ → π → σ} {x : Prog π α} {s : σ} {a : α} {p : π}
    (h : x (part s) = .ok a p) : onPart part put x s = .ok a (put s p) := by
  unfold onPart
  rw [h]

theorem onPart_error {π : Type} {part : σ → π} {put : σ → π → σ} {x : Prog π α} {s : σ}
    {e : Stop} {p : π} (h : x (part s) = .error e p) :
    onPart part put x s = .error e (put s p) := by
  unfold onPart
  rw [h]

/-- a sequence on a part is a sequence of programs on the part -/
theorem onPart_bind {π : Type} {part : σ → π} {put : σ → π → σ} (hget : ∀ s p, part (put s p) = p)
    (hput : ∀ s p q, put (put s p) q = put s q) (x : Prog π α) (f : α → Prog π β) :
    onPart part put (x >>= f) = onPart part put x >>= fun a => onPart part put (f a) := by
  funext s
  cases hx : x (part s) with
  | error e p => rw [bind_error (onPart_error hx), onPart_error (bind_error hx)]
  | ok a p =>
    rw [bind_ok (onPart_ok hx)]
    cases hf : f a p with
    | error e q =>
      have hf' : f a (part (put s p)) = .error e q := by rw [hget, hf]
      rw [onPart_error hf', onPart_error ((bind_ok hx).trans hf), hput]
    | ok b q =>
      have hf' : f a (part (put s p)) = .ok b q := by rw [hget, hf]
      rw [onPart_ok hf', onPart_ok ((bind_ok hx).trans hf), hput]

/-- **A program on a part that both states have in common** simulates itself. -/
theorem Sim.lift {π : Type} {p : σ → π} {q : τ → π} {f : σ → π → σ} {g : τ → π → τ} (x : Prog π α)
    (hpart : ∀ s t, R s t → p s = q t) (hput : ∀ s t u, R s t → R (f s u) (g t u)) :
    Sim R (fun _ => True) (onPart p f x) (onPart q g x) := by
  intro s t hr
  unfold onPart
  rw [hpart s t hr]
  cases x (q t) with
  | ok a u => exact .ok trivial (hput s t u hr)
  | error e u => exact .error (hput s t u hr)

end

end Udmaio.Lib
