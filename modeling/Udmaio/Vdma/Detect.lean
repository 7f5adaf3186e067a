import Udmaio.Vdma.Config

/-!
# Detecting the number of frame buffers

`UioAxiVdmaIf::autodetect_num_frmbufs` writes two patterns to the start address of one buffer after
the other and reads them back, up to the first one that does not come back.

* `SaBus`                  the accesses to `s2mm_sa` so far; `readback j` is what the hardware
                           returns in read number `j`;
* `detectLoop`             the detection, on any hardware behind `s2mm_sa`; `detectLoop_rule` is the
                           rule for it;
* `autodetectNumFrmbufs`   the method on hardware that is seen through what it answers;
* `detect_in_bounds_iff`   **when all indices are below 16**: there are no long addresses, or the
                           hardware does not let the loop get past buffer 7.
-/

namespace Udmaio
open Lib

structure SaBus where
  reads : Nat
  accessed : List Nat
deriving DecidableEq, Repr

namespace Vdma

abbrev DetectM := Prog SaBus

/-- `s2mm_sa[idx]`; `operator[]` asserts that the index is in the array -/
def saAt (idx : BitVec 32) : DetectM Unit := do
  modify fun s => { s with accessed := s.accessed ++ [idx.toNat] }
  if idx.toNat < 16 then return
  else throw (.exception "Assertion 'idx < arr_size' failed")

def saRd (readback : Nat → BitVec 32) (idx : BitVec 32) : DetectM (BitVec 32) := do
  saAt idx
  modifyGet fun s => (readback s.reads, { s with reads := s.reads + 1 })

def saWr (idx _value : BitVec 32) : DetectM Unit := saAt idx

def patterns : List (BitVec 32) := [0x55555555, 0xaaaaaaaa]

/-- `s2mm_sa[idx].rd()` and `s2mm_sa[idx].wr(value)` on some hardware -/
structure SaAccess (σ : Type) where
  rd : BitVec 32 → Prog σ (BitVec 32)
  wr : BitVec 32 → BitVec 32 → Prog σ Unit

section
variable {σ : Type} (sa : SaAccess σ) (longAddrs : Bool)

/-- `vfy` for one pattern -/
def verify (i : Nat) (pattern : BitVec 32) : Prog σ Bool :=
  if longAddrs then do
    sa.wr (BitVec.ofNat 32 (i * 2)) pattern
    sa.wr (BitVec.ofNat 32 (i * 2 + 1)) pattern
    -- the second register is read only if the first one is right
    if (← sa.rd (BitVec.ofNat 32 (i * 2))) = pattern then
      return (← sa.rd (BitVec.ofNat 32 (i * 2 + 1))) = pattern
    else return false
  else do
    sa.wr (BitVec.ofNat 32 i) pattern
    return (← sa.rd (BitVec.ofNat 32 i)) = pattern

def verifyAll (i : Nat) : List (BitVec 32) → Prog σ Bool
  | [] => return true
  | p :: ps => do
    if ← verify sa longAddrs i p then verifyAll i ps else return false

/-- the loop over the buffers, from buffer `i` on, with `n` to go -/
def detectLoop : Nat → Nat → Prog σ Nat
  | 0, i => return i
  | n+1, i => do
    if ← verifyAll sa longAddrs i patterns then detectLoop n (i+1) else return i

/-- **The rule of the loop.**  `before i` holds when buffer `i` comes up, and both patterns come back
from it exactly if it is `good`.  With `n` buffers in the array and `m` more to go, the loop ends at
the first buffer that is not good, or gets to the `m` others. -/
theorem detectLoop_rule (before after : Nat → σ → Prop) (good : Nat → Prop)
    (hbuf : ∀ i s, (i + 1) * addrWords longAddrs ≤ 16 → before i s →
      (∃ s', verifyAll sa longAddrs i patterns s = .ok true s' ∧ good i ∧ before (i+1) s') ∨
      ∃ s', verifyAll sa longAddrs i patterns s = .ok false s' ∧ ¬ good i ∧ after i s')
    (m n i : Nat) (s : σ) (hfit : (i + n) * addrWords longAddrs ≤ 16) (hs : before i s) :
    (∃ j s', j < i + n ∧ detectLoop sa longAddrs (n + m) i s = .ok j s' ∧ ¬ good j ∧ after j s') ∨
    ∃ s', detectLoop sa longAddrs (n + m) i s = detectLoop sa longAddrs m (i + n) s' ∧
      before (i + n) s' ∧ ∀ j, i ≤ j → j < i + n → good j := by
  induction n generalizing i s with
  | zero =>
    refine Or.inr ⟨s, ?_, hs, fun j h1 h2 => by omega⟩
    rw [Nat.zero_add]
    rfl
  | succ n ih =>
    have hi : (i + 1) * addrWords longAddrs ≤ 16 :=
      le_trans (Nat.mul_le_mul_right _ (by omega)) hfit
    have hstep : ∀ {b s1}, verifyAll sa longAddrs i patterns s = .ok b s1 →
        detectLoop sa longAddrs (n + 1 + m) i s
          = (if b = true then detectLoop sa longAddrs (n + m) (i+1) else return i) s1 := by
      intro b s1 h
      rw [Nat.add_right_comm n 1 m, detectLoop, bind_ok h]
    rcases hbuf i s hi hs with ⟨s1, h1, hgood, hs1⟩ | ⟨s1, h1, hno, hs1⟩
    · have hfit' : (i + 1 + n) * addrWords longAddrs ≤ 16 := by
        rw [Nat.add_right_comm, Nat.add_assoc]
        exact hfit
      have hgo : detectLoop sa longAddrs (n + 1 + m) i s
          = detectLoop sa longAddrs (n + m) (i+1) s1 := by
        rw [hstep h1, if_pos rfl]
      rw [hgo, ← Nat.add_assoc, Nat.add_right_comm i n 1]
      refine (ih (i+1) s1 hfit' hs1).imp_right ?_
      intro ⟨s', h, hs', hall⟩
      refine ⟨s', h, hs', fun j hj1 hj2 => ?_⟩
      rcases Nat.eq_or_lt_of_le hj1 with rfl | hlt
      · exact hgood
      · exact hall j hlt hj2
    · exact Or.inl ⟨i, s1, by omega, hstep h1, hno, hs1⟩

end

/-- hardware that is seen through what it answers -/
def answering (readback : Nat → BitVec 32) : SaAccess SaBus := ⟨saRd readback, saWr⟩

def autodetectNumFrmbufs (readback : Nat → BitVec 32) (longAddrs : Bool) : DetectM Nat :=
  detectLoop (answering readback) longAddrs 16 0

/-! ## one buffer -/

/-- the indices so far are in the array -/
def InArray (s : SaBus) : Prop := ∀ idx ∈ s.accessed, idx < 16

theorem inArray_nil : InArray ⟨0, []⟩ := fun _ h => absurd h List.not_mem_nil

theorem saAt_ok {idx : Nat} (h : idx < 16) (s : SaBus) :
    saAt (BitVec.ofNat 32 idx) s = .ok () { s with accessed := s.accessed ++ [idx] } := by
  unfold saAt
  rw [toNat_idx h]
  show (ite (idx < 16) _ _ : DetectM Unit) _ = _
  rw [if_pos h]
  rfl

theorem InArray.access {s : SaBus} (hs : InArray s) {idx : Nat} (h : idx < 16) (n : Nat) :
    InArray ⟨n, s.accessed ++ [idx]⟩ := by
  intro j hj
  rcases List.mem_append.mp hj with hj | hj
  · exact hs j hj
  · rw [List.mem_singleton.mp hj]
    exact h

section
variable (readback : Nat → BitVec 32)

theorem saRd_ok {idx : Nat} (h : idx < 16) (s : SaBus) : saRd readback (BitVec.ofNat 32 idx) s
    = .ok (readback s.reads) ⟨s.reads + 1, s.accessed ++ [idx]⟩ := by
  unfold saRd
  rw [bind_ok (saAt_ok h s)]
  rfl

/-- one pattern: right if all words of the buffer come back -/
theorem verify_ok (longAddrs : Bool) {i : Nat} (hi : (i + 1) * addrWords longAddrs ≤ 16)
    (p : BitVec 32) {s : SaBus} (hs : InArray s) :
    ∃ b s', verify (answering readback) longAddrs i p s = .ok b s' ∧ InArray s' ∧
      (b = true ↔ ∀ k < addrWords longAddrs, readback (s.reads + k) = p) ∧
      (b = true → s'.reads = s.reads + addrWords longAddrs) := by
  cases longAddrs with
  | true =>
    have hi' : (i + 1) * 2 ≤ 16 := hi
    have h1 : i * 2 < 16 := by omega
    have h2 : i * 2 + 1 < 16 := by omega
    unfold verify answering saWr
    rw [if_pos rfl, bind_ok (saAt_ok h1 s), bind_ok (saAt_ok h2 _), bind_ok (saRd_ok readback h1 _)]
    have hs3 := ((hs.access h1 s.reads).access h2 s.reads).access h1 (s.reads + 1)
    by_cases h : readback s.reads = p
    · rw [if_pos h, bind_ok (saRd_ok readback h2 _)]
      refine ⟨_, _, rfl, hs3.access h2 _, ?_, fun _ => rfl⟩
      rw [decide_eq_true_iff]
      constructor
      · intro h' k hk
        obtain rfl | rfl : k = 0 ∨ k = 1 := by
          have : k < 2 := hk
          omega
        · exact h
        · exact h'
      · intro hall
        exact hall 1 (by decide)
    · rw [if_neg h]
      refine ⟨false, _, rfl, hs3, ?_, fun hb => absurd hb Bool.false_ne_true⟩
      exact ⟨fun hb => absurd hb Bool.false_ne_true, fun hall => absurd (hall 0 (by decide)) h⟩
  | false =>
    have h1 : i < 16 := by
      have : (i + 1) * 1 ≤ 16 := hi
      omega
    unfold verify answering saWr
    rw [if_neg Bool.false_ne_true, bind_ok (saAt_ok h1 s), bind_ok (saRd_ok readback h1 _)]
    refine ⟨_, _, rfl, (hs.access h1 s.reads).access h1 _, ?_, fun _ => rfl⟩
    rw [decide_eq_true_iff]
    constructor
    · intro h k hk
      have hk0 : k = 0 := by
        have : k < 1 := hk
        omega
      rw [hk0]
      exact h
    · intro hall
      exact hall 0 (by decide)

/-- what the buffer has to answer in its read number `k` -/
def expected (longAddrs : Bool) (k : Nat) : BitVec 32 :=
  if k < addrWords longAddrs then 0x55555555 else 0xaaaaaaaa

/-- both patterns -/
theorem verifyAll_ok (longAddrs : Bool) {i : Nat} (hi : (i + 1) * addrWords longAddrs ≤ 16)
    {s : SaBus} (hs : InArray s) :
    ∃ b s', verifyAll (answering readback) longAddrs i patterns s = .ok b s' ∧ InArray s' ∧
      (b = true ↔ ∀ k < 2 * addrWords longAddrs, readback (s.reads + k) = expected longAddrs k) ∧
      (b = true → s'.reads = s.reads + 2 * addrWords longAddrs) := by
  obtain ⟨b1, s1, h1, hs1, hb1, hr1⟩ := verify_ok readback longAddrs hi 0x55555555 hs
  rw [patterns, verifyAll, bind_ok h1]
  cases b1 with
  | false =>
    refine ⟨false, s1, rfl, hs1, ?_, fun hb => absurd hb Bool.false_ne_true⟩
    refine ⟨fun hb => absurd hb Bool.false_ne_true, fun hall => hb1.mpr fun k hk => ?_⟩
    have := hall k (by omega)
    rwa [expected, if_pos hk] at this
  | true =>
    obtain ⟨b2, s2, h2, hs2, hb2, hr2⟩ := verify_ok readback longAddrs hi 0xaaaaaaaa hs1
    rw [if_pos rfl, verifyAll, bind_ok h2]
    have hs1r := hr1 rfl
    rw [hs1r] at hb2 hr2
    refine ⟨b2, s2, by cases b2 <;> rfl, hs2, ?_, fun hb => by rw [hr2 hb]; omega⟩
    rw [hb2]
    constructor
    · intro hall k hk
      by_cases hlt : k < addrWords longAddrs
      · rw [expected, if_pos hlt]
        exact hb1.mp rfl k hlt
      · have := hall (k - addrWords longAddrs) (by omega)
        rw [expected, if_neg hlt, ← this]
        congr 1
        omega
    · intro hall k hk
      have := hall (addrWords longAddrs + k) (by omega)
      rw [expected, if_neg (by omega)] at this
      rw [← this, Nat.add_assoc]

/-! ## the loop -/

/-- the hardware returns both patterns for buffer `i` -/
def Present (longAddrs : Bool) (i : Nat) : Prop :=
  ∀ k < 2 * addrWords longAddrs,
    readback (i * (2 * addrWords longAddrs) + k) = expected longAddrs k

theorem detectLoop_cases (longAddrs : Bool) (m n : Nat) (hfit : n * addrWords longAddrs ≤ 16) :
    (∃ j s', j < n ∧ detectLoop (answering readback) longAddrs (n + m) 0 ⟨0, []⟩ = .ok j s' ∧
      ¬ Present readback longAddrs j ∧ InArray s') ∨
    ∃ s', detectLoop (answering readback) longAddrs (n + m) 0 ⟨0, []⟩
      = detectLoop (answering readback) longAddrs m n s' ∧
      InArray s' ∧ ∀ j < n, Present readback longAddrs j := by
  rw [← Nat.zero_add n] at hfit
  have hrule := detectLoop_rule (answering readback) longAddrs
    (fun i s => InArray s ∧ s.reads = i * (2 * addrWords longAddrs)) (fun _ => InArray)
    (Present readback longAddrs) (fun i s hi ⟨hs, hr⟩ => by
      obtain ⟨b, s1, h1, hs1, hb, hr1⟩ := verifyAll_ok readback longAddrs hi hs
      rw [hr] at hb hr1
      cases b with
      | true => exact Or.inl ⟨s1, h1, hb.mp rfl, hs1, by rw [hr1 rfl, Nat.succ_mul i]⟩
      | false => exact Or.inr ⟨s1, h1, fun hp => Bool.false_ne_true (hb.mpr hp), hs1⟩)
    m n 0 ⟨0, []⟩ hfit ⟨inArray_nil, (Nat.zero_mul _).symm⟩
  rw [Nat.zero_add] at hrule
  refine hrule.imp_right ?_
  intro ⟨s', h, hs', hall⟩
  exact ⟨s', h, hs'.1, fun j hj => hall j (Nat.zero_le j) hj⟩

/-- the ninth buffer has no long address -/
theorem detectLoop_out_of_array (s : SaBus) :
    ∃ e s', detectLoop (answering readback) true 8 8 s = .error e s' ∧ ¬ InArray s' := by
  refine ⟨_, _, rfl, fun hin => ?_⟩
  exact absurd (hin 16 (List.mem_append_right _ (List.mem_singleton.mpr rfl))) (Nat.lt_irrefl 16)

theorem initBuffers_of_length_le {longAddrs : Bool} {n : Nat} (hn : n * addrWords longAddrs ≤ 16)
    (frmBufs : List UioRegion) (h : frmBufs.length ≤ n) (regs : VdmaRegs) :
    ∃ regs', initBuffers longAddrs frmBufs regs = .ok () regs' := by
  have hfit : (0 + frmBufs.length) * addrWords longAddrs ≤ 16 := by
    rw [Nat.zero_add]
    exact le_trans (Nat.mul_le_mul_right _ h) hn
  exact ⟨_, initBuffersLoop_ok longAddrs frmBufs 0 regs hfit⟩

/-- **When the indices stay in the array**: there are no long addresses, or one of the first eight
buffers does not come back. -/
theorem detect_in_bounds_iff (longAddrs : Bool) :
    (∃ n s, autodetectNumFrmbufs readback longAddrs ⟨0, []⟩ = .ok n s ∧ InArray s ∧
      ∀ frmBufs : List UioRegion, frmBufs.length ≤ n →
        ∀ regs, ∃ regs', initBuffers longAddrs frmBufs regs = .ok () regs') ↔
    (longAddrs = false ∨ ∃ i < 8, ∃ k < 4,
      readback (i * 4 + k) ≠ if k < 2 then 0x55555555 else 0xaaaaaaaa) := by
  cases longAddrs with
  | false =>
    refine iff_of_true ?_ (Or.inl rfl)
    rcases detectLoop_cases readback false 0 16 (by decide) with
      ⟨j, s', hj, h, -, hs'⟩ | ⟨s', h, hs', -⟩
    · refine ⟨j, s', h, hs', initBuffers_of_length_le ?_⟩
      show j * 1 ≤ 16
      omega
    · exact ⟨16, s', h, hs', initBuffers_of_length_le (by decide)⟩
  | true =>
    rcases detectLoop_cases readback true 8 8 (by decide) with
      ⟨j, s', hj, h, hno, hs'⟩ | ⟨s', h, hs', hall⟩
    · refine iff_of_true ⟨j, s', h, hs', initBuffers_of_length_le ?_⟩ (Or.inr ⟨j, by omega, ?_⟩)
      · show j * 2 ≤ 16
        omega
      · unfold Present at hno
        push Not at hno
        exact hno
    · refine iff_of_false ?_ ?_
      · intro ⟨n, s, hok, _⟩
        obtain ⟨e, s2, herr, -⟩ := detectLoop_out_of_array readback s'
        have := hok.symm.trans (h.trans herr)
        cases this
      · intro hor
        obtain ⟨i, hi, k, hk, hne⟩ := hor.resolve_left Bool.noConfusion
        exact hne (hall i hi k hk)

end

/-- hardware with a register behind every address: the loop goes on to `s2mm_sa[16]` -/
theorem detect_out_of_bounds :
    ∃ e s, autodetectNumFrmbufs (fun j => if j % 4 < 2 then 0x55555555 else 0xaaaaaaaa) true ⟨0, []⟩
      = .error e s ∧ ¬ InArray s := by
  have hall : ∀ i, Present (fun j => if j % 4 < 2 then 0x55555555 else 0xaaaaaaaa) true i := by
    intro i k hk
    have hk4 : k < 4 := hk
    have hmod : (i * 4 + k) % 4 = k := by omega
    show (if (i * 4 + k) % 4 < 2 then _ else _ : BitVec 32) = _
    rw [hmod]
    rfl
  rcases detectLoop_cases _ true 8 8 (by decide) with
    ⟨j, s', -, -, hno, -⟩ | ⟨s', h, -, -⟩
  · exact absurd (hall j) hno
  · obtain ⟨e, s2, herr, hout⟩ := detectLoop_out_of_array _ s'
    exact ⟨e, s2, h.trans herr, hout⟩

end Vdma

end Udmaio
