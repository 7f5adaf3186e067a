import Mathlib.Data.BitVec
import Mathlib.Data.List.Range
import Mathlib.Order.Defs.Unbundled

/-!
# Programs with a state, exceptions and counted loops

A program is an `EStateM Stop σ α`: it returns a value, throws an exception or runs out of fuel, and
leaves a state in all three cases.

* `Makes R x`    the relation `R` holds from the state before `x` to the state it leaves, however it
                 ends; closed under `pure`, `throw` and `bind` for a preorder `R`;
* `forLoop`      `for (i = 0; i < size; i += d)` with a counter of `w` bits, which wraps;
* `forLoop_ok`   the total rule: with an invariant per iteration, a size that the counter reaches
                 and enough fuel the loop returns the value of every iteration in turn;
* `of_forLoop_ok`  a loop that returns has returned from every iteration.
-/

namespace Udmaio.Lib

inductive Stop where
  | exception (msg : String)
  | fuel
deriving DecidableEq, Repr

abbrev Prog (σ α : Type) := EStateM Stop σ α

section
variable {σ α β : Type}

theorem bind_ok {x : Prog σ α} {f : α → Prog σ β} {s s' : σ} {a : α} (h : x s = .ok a s') :
    (x >>= f) s = f a s' := by
  show EStateM.bind x f s = _
  unfold EStateM.bind
  rw [h]

theorem bind_error {x : Prog σ α} {f : α → Prog σ β} {s s' : σ} {e : Stop} (h : x s = .error e s') :
    (x >>= f) s = .error e s' := by
  show EStateM.bind x f s = _
  unfold EStateM.bind
  rw [h]

/-- a sequence that returns has returned at every step -/
theorem of_bind_ok {x : Prog σ α} {f : α → Prog σ β} {s s' : σ} {b : β}
    (h : (x >>= f) s = .ok b s') : ∃ a s1, x s = .ok a s1 ∧ f a s1 = .ok b s' := by
  have h' : EStateM.bind x f s = .ok b s' := h
  unfold EStateM.bind at h'
  cases e : x s with
  | ok a s1 =>
    rw [e] at h'
    exact ⟨a, s1, rfl, h'⟩
  | error err s1 =>
    rw [e] at h'
    cases h'

def final : EStateM.Result Stop σ α → σ
  | .ok _ s => s
  | .error _ s => s

/-! ## what a program can do to the state -/

def Makes (R : σ → σ → Prop) (x : Prog σ α) : Prop := ∀ s, R s (final (x s))

section
variable {R : σ → σ → Prop}

theorem Makes.pure [Std.Refl R] (a : α) : Makes R (pure a : Prog σ α) := fun s => refl_of R s

theorem Makes.throw [Std.Refl R] (e : Stop) : Makes R (throw e : Prog σ α) := fun s => refl_of R s

theorem Makes.bind [IsTrans σ R] {x : Prog σ α} {f : α → Prog σ β} (hx : Makes R x)
    (hf : ∀ a, Makes R (f a)) : Makes R (x >>= f) := by
  intro s
  have h := hx s
  cases e : x s with
  | ok a s' =>
    rw [bind_ok e]
    rw [e] at h
    exact trans_of R h (hf a s')
  | error err s' =>
    rw [e] at h
    show R s (final (EStateM.bind x f s))
    unfold EStateM.bind
    rw [e]
    exact h

end

/-! ## loops -/

section
variable {w : Nat}

/-- `for (i = 0; i < size; i += d)`, from iteration `k` with counter `i` on; the values of the
iterations are collected -/
def forLoop (d : BitVec w) (size : Nat) (body : Nat → BitVec w → Prog σ β) :
    Nat → Nat → BitVec w → Prog σ (List β)
  | 0, _, _ => throw .fuel
  | fuel+1, k, i =>
    if i.toNat < size then do
      let b ← body k i
      let bs ← forLoop d size body fuel (k+1) (i + d)
      return b :: bs
    else return []

theorem Makes.forLoop {R : σ → σ → Prop} [Std.Refl R] [IsTrans σ R] {d : BitVec w} {size : Nat}
    {body : Nat → BitVec w → Prog σ β} (hb : ∀ k i, Makes R (body k i)) (fuel k : Nat)
    (i : BitVec w) : Makes R (Lib.forLoop d size body fuel k i) := by
  induction fuel generalizing k i with
  | zero => exact Makes.throw _
  | succ fuel ih =>
    unfold Lib.forLoop
    split
    · exact Makes.bind (hb k i) fun _ => Makes.bind (ih _ _) fun _ => Makes.pure _
    · exact Makes.pure _

theorem counter_succ (d : BitVec w) (k : Nat) :
    BitVec.ofNat w (k * d.toNat) + d = BitVec.ofNat w ((k+1) * d.toNat) := by
  rw [Nat.succ_mul, BitVec.ofNat_add, BitVec.ofNat_toNat, BitVec.setWidth_eq]

/-- **The total rule for loops.** -/
theorem forLoop_ok {d : BitVec w} {size n : Nat} {f : Nat → BitVec w → Prog σ β}
    {P : Nat → σ → Prop} {b : Nat → β} (hd : 0 < d.toNat) (hsize : n * d.toNat = size)
    (hw : size < 2^w)
    (hf : ∀ k < n, ∀ s, P k s →
      ∃ s', f k (BitVec.ofNat w (k * d.toNat)) s = .ok (b k) s' ∧ P (k+1) s')
    {fuel : Nat} (hfuel : n < fuel) {s : σ} (hs : P 0 s) :
    ∃ s', forLoop d size f fuel 0 0 s = .ok ((List.range n).map b) s' ∧ P n s' := by
  -- from iteration `k` on, with `m` iterations to go
  have key : ∀ m k fuel s, k + m = n → m < fuel → P k s →
      ∃ s', forLoop d size f fuel k (BitVec.ofNat w (k * d.toNat)) s
        = .ok ((List.range' k m).map b) s' ∧ P n s' := by
    intro m
    induction m with
    | zero =>
      intro k fuel s hk hfuel hs
      obtain ⟨fuel, rfl⟩ : ∃ f, fuel = f + 1 := ⟨fuel - 1, by omega⟩
      have hkn : k = n := by omega
      subst hkn
      refine ⟨s, ?_, hs⟩
      unfold forLoop
      rw [if_neg]
      · rfl
      · rw [hsize, BitVec.toNat_ofNat, Nat.mod_eq_of_lt hw]
        exact Nat.lt_irrefl _
    | succ m ih =>
      intro k fuel s hk hfuel hs
      obtain ⟨fuel, rfl⟩ : ∃ f, fuel = f + 1 := ⟨fuel - 1, by omega⟩
      have hlt : k * d.toNat < size := by
        rw [← hsize]
        exact Nat.mul_lt_mul_of_pos_right (by omega) hd
      obtain ⟨s1, h1, hs1⟩ := hf k (by omega) s hs
      obtain ⟨s2, h2, hs2⟩ := ih (k+1) fuel s1 (by omega) (by omega) hs1
      refine ⟨s2, ?_, hs2⟩
      unfold forLoop
      rw [if_pos (by rw [BitVec.toNat_ofNat, Nat.mod_eq_of_lt (by omega)]; exact hlt), bind_ok h1,
        counter_succ, bind_ok h2]
      rfl
  obtain ⟨s', h1, h2⟩ := key n 0 fuel s (by omega) hfuel hs
  rw [Nat.zero_mul] at h1
  exact ⟨s', by rw [List.range_eq_range']; exact h1, h2⟩

theorem of_forLoop_ok {d : BitVec w} {size n : Nat} {f : Nat → BitVec w → Prog σ β}
    (hd : 0 < d.toNat) (hsize : n * d.toNat = size) (hw : size < 2^w) {fuel : Nat} {s s' : σ}
    {bs : List β} (h : forLoop d size f fuel 0 0 s = .ok bs s') {j : Nat} (hj : j < n) :
    ∃ t b t', f j (BitVec.ofNat w (j * d.toNat)) t = .ok b t' := by
  -- from iteration `k` on
  have key : ∀ fuel k s bs, k ≤ j →
      forLoop d size f fuel k (BitVec.ofNat w (k * d.toNat)) s = .ok bs s' →
      ∃ t b t', f j (BitVec.ofNat w (j * d.toNat)) t = .ok b t' := by
    intro fuel
    induction fuel with
    | zero =>
      intro k s bs _ h
      cases h
    | succ fuel ih =>
      intro k s bs hk h
      have hlt : k * d.toNat < size := by
        rw [← hsize]
        exact Nat.mul_lt_mul_of_pos_right (by omega) hd
      unfold forLoop at h
      rw [if_pos (by rw [BitVec.toNat_ofNat, Nat.mod_eq_of_lt (by omega)]; exact hlt), counter_succ]
        at h
      obtain ⟨b, s1, h1, hrest⟩ := of_bind_ok h
      obtain ⟨bs', s2, h2, hret⟩ := of_bind_ok hrest
      by_cases hkj : k = j
      · subst hkj
        exact ⟨s, b, s1, h1⟩
      · injection hret with _ e
        subst e
        exact ih (k+1) s1 bs' (by omega) h2
  exact key fuel 0 s bs (Nat.zero_le j) (by rw [Nat.zero_mul]; exact h)

end

end

end Udmaio.Lib
