import Mathlib.Data.BitVec

/-!
# Bit-fields of a word

A field takes `len` bits of a word from bit `lo` on, counted from the least significant bit.

* `BitField.get`, `BitField.set`   the value of the field, and the word with another value in it;
* `getLsbD_set`                    the bits of the word afterwards: those outside the field stay;
* `get_set`, `get_set_of_disjoint`   the field reads back, and so do the others.
-/

namespace Udmaio.Lib

structure BitField where
  lo : Nat
  len : Nat
deriving DecidableEq, Repr

namespace BitField
variable {n : Nat} (f : BitField)

def get (w : BitVec n) : BitVec f.len := w.extractLsb' f.lo f.len

def set (v : BitVec f.len) (w : BitVec n) : BitVec n :=
  (w &&& ~~~((BitVec.allOnes f.len).setWidth n <<< f.lo)) ||| (v.setWidth n <<< f.lo)

theorem getLsbD_set (v : BitVec f.len) (w : BitVec n) {i : Nat} (hi : i < n) :
    (f.set v w).getLsbD i =
      if f.lo ≤ i ∧ i < f.lo + f.len then v.getLsbD (i - f.lo) else w.getLsbD i := by
  unfold set
  simp only [BitVec.getLsbD_or, BitVec.getLsbD_and, BitVec.getLsbD_not, BitVec.getLsbD_shiftLeft,
    BitVec.getLsbD_setWidth, BitVec.getLsbD_allOnes, hi, decide_true, Bool.true_and]
  rcases Nat.lt_or_ge i f.lo with hlt | hge
  · rw [if_neg (by omega)]
    simp [hlt]
  · have hn : i - f.lo < n := by omega
    by_cases hin : i < f.lo + f.len
    · have hlen : i - f.lo < f.len := by omega
      simp [hge, hin, hn, hlen, Nat.not_lt.mpr hge]
    · have hlen : ¬ i - f.lo < f.len := by omega
      have hv : v.getLsbD (i - f.lo) = false := BitVec.getLsbD_of_ge v _ (by omega)
      simp [hge, hin, hn, hlen, hv]

theorem get_set (v : BitVec f.len) (w : BitVec n) (h : f.lo + f.len ≤ n) :
    f.get (f.set v w) = v := by
  apply BitVec.eq_of_getLsbD_eq
  intro i hi
  unfold get
  rw [BitVec.getLsbD_extractLsb', f.getLsbD_set v w (by omega), if_pos (by omega),
    Nat.add_sub_cancel_left, decide_eq_true hi, Bool.true_and]

/-- another field of the word keeps its value -/
theorem get_set_of_disjoint (g : BitField) (v : BitVec g.len) (w : BitVec n)
    (h : g.lo + g.len ≤ f.lo ∨ f.lo + f.len ≤ g.lo) (hn : f.lo + f.len ≤ n) :
    f.get (g.set v w) = f.get w := by
  apply BitVec.eq_of_getLsbD_eq
  intro i hi
  unfold get
  rw [BitVec.getLsbD_extractLsb', BitVec.getLsbD_extractLsb', g.getLsbD_set v w (by omega),
    if_neg (by omega)]

end BitField

end Udmaio.Lib
