import Mathlib.Data.Fintype.Card
import Mathlib.Tactic.NormNum.Prime
import Udmaio.Lib.Gf2

/-!
# The shift register of the traffic generator

`AxiTrafficGenLfsr` of the C++ demo and `Lfsr` of the Python demo.  The feedback is inverted, so the
complement of the register is a linear one, and `0xffff` is where it locks up.

* `AxiTrafficGenLfsr.advance`   the C++ register; `lfsrNext` is the value after it;
* `Lfsr.advance`                the Python register, which returns the value before it;
* `lfsrNext_compl`              the complement is advanced by the linear map `lfsrLinear`;
* `lfsrAt_eq_self_iff`          from any other value the period is 65535;
* `lfsr_full_period`            **the values of a run: when two of them agree, and which occur.**
-/

namespace Udmaio
open Lib Gf2

/-! ## The registers -/

structure AxiTrafficGenLfsr where
  val : BitVec 16
deriving DecidableEq, Repr

def lfsrNext (val : BitVec 16) : BitVec 16 :=
  let newBit := 1#16 ^^^ val ^^^ (val >>> 1) ^^^ (val >>> 3) ^^^ (val >>> 12)
  (newBit <<< 15) ||| (val >>> 1)

namespace AxiTrafficGenLfsr

/-- the new value, and the register with it -/
def advance (l : AxiTrafficGenLfsr) : BitVec 16 × AxiTrafficGenLfsr :=
  (lfsrNext l.val, ⟨lfsrNext l.val⟩)

def get (l : AxiTrafficGenLfsr) : BitVec 16 := l.val

/-- the register after `n` calls of `advance` -/
def advanced (l : AxiTrafficGenLfsr) (n : Nat) : AxiTrafficGenLfsr := (fun l => l.advance.2)^[n] l

end AxiTrafficGenLfsr

/-- the Python register; its state is a number -/
structure Lfsr where
  state : Nat
deriving DecidableEq, Repr

/-- the old value, and the register with the new one -/
def Lfsr.advance (l : Lfsr) : Nat × Lfsr :=
  let newBit := 1 ^^^ l.state ^^^ (l.state >>> 1) ^^^ (l.state >>> 3) ^^^ (l.state >>> 12)
  (l.state, ⟨((newBit <<< 15) ||| (l.state >>> 1)) &&& 0xffff⟩)

/-- on 16 bit states the two registers agree -/
theorem Lfsr.advance_toNat (v : BitVec 16) :
    (Lfsr.mk v.toNat).advance = (v.toNat, ⟨(lfsrNext v).toNat⟩) := by
  have hmask : ∀ n, n &&& 0xffff = n % 2^16 := fun n => Nat.and_two_pow_sub_one_eq_mod n 16
  have hlt : v.toNat >>> 1 < 2^16 := by
    rw [Nat.shiftRight_eq_div_pow]
    omega
  unfold Lfsr.advance lfsrNext
  simp only [hmask, Nat.or_mod_two_pow, Nat.mod_eq_of_lt hlt, BitVec.toNat_or,
    BitVec.toNat_shiftLeft, BitVec.toNat_ushiftRight, BitVec.toNat_xor, BitVec.toNat_ofNat]

/-! ## The linear register -/

def lfsrLinear (v : BitVec 16) : BitVec 16 :=
  ((v ^^^ (v >>> 1) ^^^ (v >>> 3) ^^^ (v >>> 12)) <<< 15) ^^^ (v >>> 1)

theorem isXor_lfsrLinear : IsXor lfsrLinear := by
  have hbit : IsXor fun v : BitVec 16 => v ^^^ (v >>> 1) ^^^ (v >>> 3) ^^^ (v >>> 12) :=
    ((IsXor.id.xor (IsXor.id.ushiftRight 1)).xor (IsXor.id.ushiftRight 3)).xor
      (IsXor.id.ushiftRight 12)
  exact (hbit.shiftLeft 15).xor (IsXor.id.ushiftRight 1)

/-- the feedback of the register -/
def lfsrTaps (v : BitVec 16) : Bool := v.getLsbD 0 ^^ v.getLsbD 1 ^^ v.getLsbD 3 ^^ v.getLsbD 12

theorem lfsrNext_getLsbD (v : BitVec 16) {i : Nat} (hi : i < 16) :
    (lfsrNext v).getLsbD i = if i = 15 then !lfsrTaps v else v.getLsbD (i + 1) := by
  unfold lfsrNext lfsrTaps
  rw [BitVec.getLsbD_or, BitVec.getLsbD_shiftLeft, BitVec.getLsbD_ushiftRight]
  by_cases h15 : i = 15
  · subst h15
    simp
  · simp [h15, show i < 15 by omega, Nat.add_comm]

theorem lfsrLinear_getLsbD (v : BitVec 16) {i : Nat} (hi : i < 16) :
    (lfsrLinear v).getLsbD i = if i = 15 then lfsrTaps v else v.getLsbD (i + 1) := by
  unfold lfsrLinear lfsrTaps
  rw [BitVec.getLsbD_xor, BitVec.getLsbD_shiftLeft, BitVec.getLsbD_ushiftRight]
  by_cases h15 : i = 15
  · subst h15
    simp
  · simp [h15, show i < 15 by omega, Nat.add_comm]

theorem lfsrTaps_compl (v : BitVec 16) : lfsrTaps (~~~v) = lfsrTaps v := by
  simp [lfsrTaps]

theorem lfsrNext_compl (v : BitVec 16) : ~~~(lfsrNext v) = lfsrLinear (~~~v) := by
  apply BitVec.eq_of_getLsbD_eq
  intro i hi
  rw [BitVec.getLsbD_not, lfsrNext_getLsbD v hi, lfsrLinear_getLsbD _ hi, lfsrTaps_compl]
  by_cases h15 : i = 15
  · simp [h15]
  · simp [h15, hi, show i + 1 < 16 by omega]

/-- the low coefficients of the feedback polynomial -/
def lfsrPoly : BitVec 16 := 0x100b#16

theorem root_lfsrLinear : Root lfsrPoly lfsrLinear := by
  refine IsXor.ext (isXor_lfsrLinear.iterate 16) (isXor_act isXor_lfsrLinear lfsrPoly 16) ?_
  decide +kernel

theorem prime_dvd_period {p : Nat} (hp : p.Prime) (h : p ∣ 65535) :
    p = 3 ∨ p = 5 ∨ p = 17 ∨ p = 257 := by
  have h3 : Nat.Prime 3 := by norm_num
  have h5 : Nat.Prime 5 := by norm_num
  have h17 : Nat.Prime 17 := by norm_num
  have h257 : Nat.Prime 257 := by norm_num
  rw [show 65535 = 3 * 5 * 17 * 257 by norm_num, hp.dvd_mul, hp.dvd_mul, hp.dvd_mul,
    Nat.prime_dvd_prime_iff_eq hp h3, Nat.prime_dvd_prime_iff_eq hp h5,
    Nat.prime_dvd_prime_iff_eq hp h17, Nat.prime_dvd_prime_iff_eq hp h257] at h
  rcases h with ((h | h) | h) | h
  · exact .inl h
  · exact .inr (.inl h)
  · exact .inr (.inr (.inl h))
  · exact .inr (.inr (.inr h))

theorem lfsrLinear_iterate_eq_iff {x : BitVec 16} (hx : x ≠ 0#16) (k : Nat) :
    lfsrLinear^[k] x = x ↔ 65535 ∣ k := by
  refine iterate_eq_iff isXor_lfsrLinear root_lfsrLinear (by decide) (k := 16) (by decide)
    (by decide +kernel) ?_ hx k
  intro p hp hdvd
  rcases prime_dvd_period hp hdvd with rfl | rfl | rfl | rfl
  · exact ⟨0x015e#16, by decide +kernel⟩
  · exact ⟨0x001a#16, by decide +kernel⟩
  · exact ⟨0x17c5#16, by decide +kernel⟩
  · exact ⟨0x5db5#16, by decide +kernel⟩

/-! ## The values of a run -/

/-- the values the register takes from a seed on -/
def lfsrAt (seed : BitVec 16) (i : Nat) : BitVec 16 := lfsrNext^[i] seed

theorem lfsrAt_succ (seed : BitVec 16) (i : Nat) : lfsrAt seed (i + 1) = lfsrNext (lfsrAt seed i) :=
  Function.iterate_succ_apply' lfsrNext i seed

theorem lfsrAt_add (seed : BitVec 16) (i j : Nat) :
    lfsrAt seed (i + j) = lfsrAt (lfsrAt seed i) j := by
  unfold lfsrAt
  rw [Nat.add_comm i j, Function.iterate_add_apply]

theorem advanced_get (l : AxiTrafficGenLfsr) (n : Nat) : (l.advanced n).get = lfsrAt l.get n := by
  unfold AxiTrafficGenLfsr.advanced
  induction n with
  | zero => rfl
  | succ n ih =>
    rw [Function.iterate_succ_apply', lfsrAt_succ, ← ih]
    rfl

theorem lfsrAt_compl (seed : BitVec 16) (i : Nat) :
    ~~~(lfsrAt seed i) = lfsrLinear^[i] (~~~seed) := by
  induction i with
  | zero => rfl
  | succ i ih => rw [lfsrAt_succ, lfsrNext_compl, ih, Function.iterate_succ_apply']

theorem lfsrAt_lockup (i : Nat) : lfsrAt 0xffff#16 i = 0xffff#16 := by
  induction i with
  | zero => rfl
  | succ i ih =>
    rw [lfsrAt_succ, ih]
    decide

theorem compl_ne_zero {v : BitVec 16} (hv : v ≠ 0xffff#16) : ~~~v ≠ 0#16 := by
  intro h
  exact hv (BitVec.not_inj.mp (h.trans (by decide)))

theorem lfsrAt_eq_self_iff {seed : BitVec 16} (hs : seed ≠ 0xffff#16) (k : Nat) :
    lfsrAt seed k = seed ↔ 65535 ∣ k := by
  rw [← BitVec.not_inj, lfsrAt_compl]
  exact lfsrLinear_iterate_eq_iff (compl_ne_zero hs) k

/-- the register does not run into the value where it locks up: it would have to return from
there -/
theorem lfsrAt_ne_lockup {seed : BitVec 16} (hs : seed ≠ 0xffff#16) (i : Nat) :
    lfsrAt seed i ≠ 0xffff#16 := by
  intro h
  have hback : lfsrAt seed (i + 65534 * i) = seed := (lfsrAt_eq_self_iff hs _).mpr ⟨i, by omega⟩
  rw [lfsrAt_add, h, lfsrAt_lockup] at hback
  exact hs hback.symm

theorem lfsrAt_eq_iff_modEq {seed : BitVec 16} (hs : seed ≠ 0xffff#16) (i j : Nat) :
    lfsrAt seed i = lfsrAt seed j ↔ i ≡ j [MOD 65535] := by
  wlog hij : i ≤ j generalizing i j with hsym
  · rw [eq_comm, Nat.ModEq.comm]
    exact hsym j i (by omega)
  · obtain ⟨d, rfl⟩ := Nat.exists_eq_add_of_le hij
    rw [lfsrAt_add, eq_comm, lfsrAt_eq_self_iff (lfsrAt_ne_lockup hs i), Nat.modEq_iff_dvd' hij,
      Nat.add_sub_cancel_left]

/-- the register as a map from positions, with its lock-up at the last one -/
def lfsrTable (seed pos : BitVec 16) : BitVec 16 :=
  if pos = 0xffff#16 then 0xffff#16 else lfsrAt seed pos.toNat

theorem toNat_lt_period {v : BitVec 16} (hv : v ≠ 0xffff#16) : v.toNat < 65535 := by
  have hne : v.toNat ≠ 65535 := fun h => hv (BitVec.eq_of_toNat_eq h)
  have := v.isLt
  omega

theorem lfsrTable_injective {seed : BitVec 16} (hs : seed ≠ 0xffff#16) :
    Function.Injective (lfsrTable seed) := by
  intro u v h
  unfold lfsrTable at h
  by_cases hu : u = 0xffff#16
  · by_cases hv : v = 0xffff#16
    · rw [hu, hv]
    · rw [if_pos hu, if_neg hv] at h
      exact absurd h.symm (lfsrAt_ne_lockup hs _)
  · by_cases hv : v = 0xffff#16
    · rw [if_neg hu, if_pos hv] at h
      exact absurd h (lfsrAt_ne_lockup hs _)
    · rw [if_neg hu, if_neg hv, lfsrAt_eq_iff_modEq hs] at h
      exact BitVec.eq_of_toNat_eq
        (Nat.ModEq.eq_of_lt_of_lt h (toNat_lt_period hu) (toNat_lt_period hv))

theorem lfsrAt_surj {seed v : BitVec 16} (hs : seed ≠ 0xffff#16) (hv : v ≠ 0xffff#16) :
    ∃ i < 65535, lfsrAt seed i = v := by
  have : Finite (BitVec 16) := Finite.of_equiv _ BitVec.equivFin.symm.toEquiv
  obtain ⟨pos, hpos⟩ := Finite.surjective_of_injective (lfsrTable_injective hs) v
  unfold lfsrTable at hpos
  by_cases hp : pos = 0xffff#16
  · rw [if_pos hp] at hpos
    exact absurd hpos.symm hv
  · rw [if_neg hp] at hpos
    exact ⟨pos.toNat, toNat_lt_period hp, hpos⟩

/-- **The register runs through all values but one.**  Two values of a run agree only if their
positions do modulo 65535, and within 65535 steps every value occurs except the one where the
register locks up. -/
theorem lfsr_full_period (l : AxiTrafficGenLfsr) :
    (∀ i j, (l.advanced i).get = (l.advanced j).get ↔ l.get = 0xffff#16 ∨ i ≡ j [MOD 65535]) ∧
      ∀ v, (∃ i < 65535, (l.advanced i).get = v) ↔ (v = 0xffff#16 ↔ l.get = 0xffff#16) := by
  simp only [advanced_get]
  by_cases hs : l.get = 0xffff#16
  · simp only [hs, lfsrAt_lockup, true_or, iff_true]
    refine ⟨fun _ _ => trivial, fun v => ?_⟩
    constructor
    · rintro ⟨-, -, h⟩
      exact h.symm
    · intro h
      exact ⟨0, by decide, h.symm⟩
  · refine ⟨fun i j => ?_, fun v => ?_⟩
    · rw [lfsrAt_eq_iff_modEq hs, or_iff_right hs]
    · constructor
      · rintro ⟨i, -, rfl⟩
        exact iff_of_false (lfsrAt_ne_lockup hs i) hs
      · intro h
        exact lfsrAt_surj hs fun hv => hs (h.mp hv)

end Udmaio
