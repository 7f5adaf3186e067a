import Mathlib.Data.BitVec
import Mathlib.Data.Nat.Prime.Basic
import Mathlib.Dynamics.PeriodicPts.Defs

/-!
# Words as polynomials over two elements, acting through a linear map

A map `f` of words is linear when it respects exclusive or.  A word `P` stands for the polynomial
whose coefficients are its bits; it acts on a word `x` by the exclusive or of the `f^[i] x` over its
set bits `i`.

* `IsXor`                 linear maps; their iterates are linear;
* `act f P k`             the action of the low `k` bits of `P`;
* `xtime t`, `mul t`      multiplication by the variable and by a word, modulo the polynomial of
                          degree `w` with the low coefficients `t`;
* `act_xtime`, `act_mul`  they act as `f` and as the composition, if `f` is a root of it;
* `act_pow`               powers by squaring act as iterates;
* `iterate_eq_iff`        the period of `f`, from a certificate about words.
-/

namespace Udmaio.Lib.Gf2

section
variable {w : Nat} {f : BitVec w → BitVec w}

def IsXor (f : BitVec w → BitVec w) : Prop := ∀ a b, f (a ^^^ b) = f a ^^^ f b

theorem IsXor.zero (hf : IsXor f) : f 0#w = 0#w := by
  have h := hf 0#w 0#w
  rwa [BitVec.xor_self, BitVec.xor_self] at h

theorem IsXor.iterate (hf : IsXor f) (n : Nat) : IsXor f^[n] := by
  induction n with
  | zero => exact fun a b => rfl
  | succ n ih =>
    intro a b
    rw [Function.iterate_succ_apply', Function.iterate_succ_apply', Function.iterate_succ_apply',
      ih a b, hf]

theorem IsXor.id : IsXor (fun x : BitVec w => x) := fun _ _ => rfl

theorem IsXor.xor {g : BitVec w → BitVec w} (hf : IsXor f) (hg : IsXor g) :
    IsXor fun x => f x ^^^ g x := by
  intro a b
  simp only [hf a b, hg a b]
  ac_rfl

theorem IsXor.ushiftRight (hf : IsXor f) (n : Nat) : IsXor fun x => f x >>> n := by
  intro a b
  simp only [hf a b, BitVec.ushiftRight_xor_distrib]

theorem IsXor.shiftLeft (hf : IsXor f) (n : Nat) : IsXor fun x => f x <<< n := by
  intro a b
  simp only [hf a b, BitVec.shiftLeft_xor_distrib]

theorem IsXor.ite (hf : IsXor f) (b : Bool) (x : BitVec w) :
    f (if b then x else 0#w) = if b then f x else 0#w := by
  cases b with
  | false => exact hf.zero
  | true => rfl

end

/-! ## The action of a word -/

def act {m w : Nat} (f : BitVec w → BitVec w) (P : BitVec m) : Nat → BitVec w → BitVec w
  | 0, _ => 0#w
  | k + 1, x => act f P k x ^^^ if P.getLsbD k then f^[k] x else 0#w

section
variable {m w : Nat} {f : BitVec w → BitVec w}

theorem ite_xor (a b : Bool) (x : BitVec w) :
    (if (a ^^ b) then x else 0#w) = (if a then x else 0#w) ^^^ if b then x else 0#w := by
  cases a <;> cases b <;> simp

/-- exclusive or of words is addition of polynomials -/
theorem act_xor (P Q : BitVec m) (k : Nat) (x : BitVec w) :
    act f (P ^^^ Q) k x = act f P k x ^^^ act f Q k x := by
  induction k with
  | zero => exact (BitVec.xor_self).symm
  | succ k ih =>
    simp only [act, ih, BitVec.getLsbD_xor, ite_xor]
    ac_rfl

theorem act_zero (k : Nat) (x : BitVec w) : act f 0#m k x = 0#w := by
  induction k with
  | zero => rfl
  | succ k ih => rw [act, ih, BitVec.getLsbD_zero, if_neg Bool.false_ne_true, BitVec.xor_zero]

theorem isXor_act (hf : IsXor f) (P : BitVec m) (k : Nat) : IsXor (act f P k) := by
  intro a b
  induction k with
  | zero => exact (BitVec.xor_self).symm
  | succ k ih =>
    have hk : (if P.getLsbD k then f^[k] (a ^^^ b) else 0#w)
        = (if P.getLsbD k then f^[k] a else 0#w) ^^^ if P.getLsbD k then f^[k] b else 0#w := by
      cases P.getLsbD k with
      | false => exact (BitVec.xor_self).symm
      | true => exact hf.iterate k a b
    rw [act, act, act, ih, hk]
    ac_rfl

/-- the constant polynomial one -/
theorem act_one (k : Nat) (hm : 0 < m) (x : BitVec w) : act f 1#m (k + 1) x = x := by
  induction k with
  | zero =>
    have h0 : (1#m).getLsbD 0 = true := by simp [hm]
    rw [act, act, h0, BitVec.zero_xor]
    rfl
  | succ k ih =>
    have hk : (1#m).getLsbD (k + 1) = false := by simp [BitVec.getLsbD_one]
    rw [act, ih, hk, if_neg Bool.false_ne_true, BitVec.xor_zero]

/-- a shift of the word by one place is one more application of the map -/
theorem act_shiftLeft (hf : IsXor f) (P : BitVec m) (x : BitVec w) {k : Nat} (hk : k < m) :
    act f (P <<< 1) (k + 1) x = f (act f P k x) := by
  induction k with
  | zero =>
    have h0 : (P <<< 1).getLsbD 0 = false := by simp
    rw [act, act, h0, if_neg Bool.false_ne_true, BitVec.xor_zero, act, hf.zero]
  | succ k ih =>
    have hb : (P <<< 1).getLsbD (k + 1) = P.getLsbD k := by
      rw [BitVec.getLsbD_shiftLeft, decide_eq_true hk, Bool.true_and, decide_eq_false (by omega),
        Bool.not_false, Bool.true_and, Nat.add_sub_cancel]
    rw [act, ih (by omega), hb, act, hf, hf.ite, Function.iterate_succ_apply']

end

/-! ## Arithmetic modulo a polynomial -/

section
variable {w : Nat} (t : BitVec w)

def xtime (P : BitVec w) : BitVec w := (P <<< 1) ^^^ if P.msb then t else 0#w

def mul (P Q : BitVec w) : BitVec w := act (xtime t) Q w P

/-- the variable to the power `n`, by squaring; `k` bounds the bits of `n` -/
def pow : Nat → Nat → BitVec w
  | 0, _ => 1#w
  | k + 1, n =>
    let q := pow k (n / 2)
    if n % 2 = 1 then xtime t (mul t q q) else mul t q q

end

section
variable {w : Nat} {t : BitVec w} {f : BitVec w → BitVec w}

/-- `f` is a root of the polynomial of degree `w` with the low coefficients `t` -/
def Root (t : BitVec w) (f : BitVec w → BitVec w) : Prop := ∀ x, f^[w] x = act f t w x

theorem act_xtime (hf : IsXor f) (hr : Root t f) (P x : BitVec w) :
    act f (xtime t P) w x = f (act f P w x) := by
  cases w with
  | zero => exact BitVec.eq_of_zero_length rfl
  | succ w =>
    have htop : act f (if P.msb then t else 0#(w + 1)) (w + 1) x
        = if P.getLsbD w then f^[w + 1] x else 0#(w + 1) := by
      rw [BitVec.msb_eq_getLsbD_last, Nat.add_sub_cancel]
      cases P.getLsbD w with
      | false => exact act_zero _ x
      | true => exact (hr x).symm
    rw [xtime, act_xor, act_shiftLeft hf P x (Nat.lt_succ_self w), htop, act, hf, hf.ite,
      Function.iterate_succ_apply']

theorem act_xtime_iterate (hf : IsXor f) (hr : Root t f) (P x : BitVec w) (k : Nat) :
    act f ((xtime t)^[k] P) w x = f^[k] (act f P w x) := by
  induction k with
  | zero => rfl
  | succ k ih =>
    rw [Function.iterate_succ_apply', Function.iterate_succ_apply', act_xtime hf hr, ih]

/-- **Multiplication of words is composition of their actions.** -/
theorem act_mul (hf : IsXor f) (hr : Root t f) (P Q x : BitVec w) :
    act f (mul t P Q) w x = act f Q w (act f P w x) := by
  have hk : ∀ k, act f (act (xtime t) Q k P) w x = act f Q k (act f P w x) := by
    intro k
    induction k with
    | zero => exact act_zero w x
    | succ k ih =>
      rw [act, act_xor, ih, act]
      cases Q.getLsbD k with
      | false => rw [if_neg Bool.false_ne_true, if_neg Bool.false_ne_true, act_zero]
      | true => rw [if_pos rfl, if_pos rfl, act_xtime_iterate hf hr]
  exact hk w

theorem act_pow (hf : IsXor f) (hr : Root t f) (hw : 0 < w) (x : BitVec w) {k n : Nat}
    (hn : n < 2 ^ k) : act f (pow t k n) w x = f^[n] x := by
  induction k generalizing n x with
  | zero =>
    obtain rfl : n = 0 := by omega
    obtain ⟨v, rfl⟩ : ∃ v, w = v + 1 := ⟨w - 1, by omega⟩
    exact act_one v hw x
  | succ k ih =>
    have hq : act f (mul t (pow t k (n / 2)) (pow t k (n / 2))) w x = f^[n / 2 + n / 2] x := by
      have hlt : n / 2 < 2 ^ k := by omega
      rw [act_mul hf hr, ih _ hlt, ih _ hlt, Function.iterate_add_apply]
    rw [pow]
    rcases Nat.mod_two_eq_zero_or_one n with he | ho
    · rw [if_neg (by omega), hq, show n / 2 + n / 2 = n by omega]
    · rw [if_pos ho, act_xtime hf hr, hq, ← Function.iterate_succ_apply' f,
        show (n / 2 + n / 2).succ = n by omega]

/-- a linear map is determined by its values at the powers of two -/
theorem IsXor.ext {g : BitVec w → BitVec w} (hf : IsXor f) (hg : IsXor g)
    (h : ∀ i < w, f (BitVec.twoPow w i) = g (BitVec.twoPow w i)) (x : BitVec w) : f x = g x := by
  -- over the number of places below which the set bits of `x` lie
  have hlow : ∀ k ≤ w, ∀ x : BitVec w, (∀ i, k ≤ i → x.getLsbD i = false) → f x = g x := by
    intro k
    induction k with
    | zero =>
      intro _ x hx
      obtain rfl : x = 0#w := BitVec.eq_of_getLsbD_eq fun i _ => by
        rw [hx i (Nat.zero_le i), BitVec.getLsbD_zero]
      rw [hf.zero, hg.zero]
    | succ k ih =>
      intro hk x hx
      cases hb : x.getLsbD k with
      | false =>
        refine ih (by omega) x fun i hi => ?_
        rcases Nat.eq_or_lt_of_le hi with rfl | hlt
        · exact hb
        · exact hx i hlt
      | true =>
        have hsplit : x = (x ^^^ BitVec.twoPow w k) ^^^ BitVec.twoPow w k := by
          rw [BitVec.xor_assoc, BitVec.xor_self, BitVec.xor_zero]
        have hrest : f (x ^^^ BitVec.twoPow w k) = g (x ^^^ BitVec.twoPow w k) := by
          refine ih (by omega) _ fun i hi => ?_
          rw [BitVec.getLsbD_xor, BitVec.getLsbD_twoPow]
          rcases Nat.eq_or_lt_of_le hi with rfl | hlt
          · simp [hb, show k < w by omega]
          · simp [hx i hlt, show k ≠ i by omega]
        rw [hsplit, hf, hg, hrest, h k (by omega)]
  refine hlow w le_rfl x fun i hi => BitVec.getLsbD_of_ge x i hi

/-! ## The period -/

/-- a multiple of the period that no prime takes off is the period -/
theorem minimalPeriod_eq {α : Type} {g : α → α} {x : α} {n : Nat} (hx : g^[n] x = x)
    (hp : ∀ p, p.Prime → p ∣ n → g^[n / p] x ≠ x) : Function.minimalPeriod g x = n := by
  obtain ⟨c, hc⟩ : Function.minimalPeriod g x ∣ n := Function.IsPeriodicPt.minimalPeriod_dvd hx
  by_contra hne
  have hc1 : c ≠ 1 := by
    rintro rfl
    exact hne (by omega)
  obtain ⟨p, hpp, d, rfl⟩ := Nat.exists_prime_and_dvd hc1
  have hdvd : Function.minimalPeriod g x ∣ n / p :=
    ⟨d, by rw [hc, Nat.mul_left_comm, Nat.mul_div_cancel_left _ hpp.pos]⟩
  exact hp p hpp ⟨_, by rw [hc, Nat.mul_left_comm]⟩
    (Function.isPeriodicPt_iff_minimalPeriod_dvd.mpr hdvd)

/-- **The period of a linear map.**  The variable to the power `n` is one, and one less than its
power `n / p` has an inverse for each prime `p` of `n`: then no nonzero word returns before `n`
steps. -/
theorem iterate_eq_iff (hf : IsXor f) (hr : Root t f) (hw : 0 < w) {k n : Nat}
    (hk : n < 2 ^ k) (hone : pow t k n = 1#w)
    (hinv : ∀ p, p.Prime → p ∣ n → ∃ Q, mul t (pow t k (n / p) ^^^ 1#w) Q = 1#w)
    {x : BitVec w} (hx : x ≠ 0#w) (j : Nat) : f^[j] x = x ↔ n ∣ j := by
  have h1 : ∀ y, act f 1#w w y = y := by
    obtain ⟨v, rfl⟩ : ∃ v, w = v + 1 := ⟨w - 1, by omega⟩
    exact act_one v hw
  have hper : Function.minimalPeriod f x = n := by
    apply minimalPeriod_eq
    · rw [← act_pow hf hr hw x hk, hone, h1]
    · intro p hp hpn heq
      obtain ⟨Q, hQ⟩ := hinv p hp hpn
      have hlt : n / p < 2 ^ k := lt_of_le_of_lt (Nat.div_le_self n p) hk
      have hzero : act f (pow t k (n / p) ^^^ 1#w) w x = 0#w := by
        rw [act_xor, act_pow hf hr hw x hlt, heq, h1, BitVec.xor_self]
      apply hx
      calc x = act f (mul t (pow t k (n / p) ^^^ 1#w) Q) w x := by rw [hQ, h1]
        _ = act f Q w 0#w := by rw [act_mul hf hr, hzero]
        _ = 0#w := (isXor_act hf Q w).zero
  rw [← hper]
  exact Function.isPeriodicPt_iff_minimalPeriod_dvd

end

end Udmaio.Lib.Gf2
