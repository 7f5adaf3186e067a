import Udmaio.Vdma.Detect

/-!
# Hardware that implements some of the start addresses

A core that is built for fewer frame buffers, or for shorter addresses, does not implement all bits
of `s2mm_sa`: the bits that are left out keep their value.

* `stored`                    what a register holds after a write;
* `autodetectNumFrmbufs`, `initBuffers`   the methods of `UioAxiVdmaIf` on such registers;
* `Usable`                    all bits of the start address of a buffer can be written;
* `verifyAll_eq`              the two patterns find out just that;
* `detects_usable`            **the detection counts the usable buffers**, and all of them take
                              their addresses.
-/

namespace Udmaio
open Lib

namespace MaskedVdma
open Vdma

section
variable (writable : Nat → BitVec 32)

def stored (regs : VdmaRegs) (offs : Nat) (value : BitVec 32) : BitVec 32 :=
  (value &&& writable offs) ||| (regs offs &&& ~~~writable offs)

def wr (offs : Nat) (value : BitVec 32) : VdmaM Unit :=
  modify fun regs => Function.update regs offs (stored writable regs offs value)

/-- `s2mm_sa[idx].rd()` -/
def saRd (idx : BitVec 32) : VdmaM (BitVec 32) :=
  if idx.toNat < 16 then rd (s2mmSa + idx.toNat * 4)
  else throw (.exception "Assertion 'idx < arr_size' failed")

/-- `s2mm_sa[idx].wr(value)` -/
def saWr (idx value : BitVec 32) : VdmaM Unit :=
  if idx.toNat < 16 then wr writable (s2mmSa + idx.toNat * 4) value
  else throw (.exception "Assertion 'idx < arr_size' failed")

/-- hardware that implements some of the bits -/
def masked : SaAccess VdmaRegs := ⟨saRd, saWr writable⟩

variable (longAddrs : Bool)

def autodetectNumFrmbufs : VdmaM Nat := detectLoop (masked writable) longAddrs 16 0

def initBuffers (frmBufs : List UioRegion) : VdmaM Unit :=
  initBuffersLoop (saWr writable) longAddrs 0 frmBufs

/-- the registers with the start address of buffer `i` -/
def bufOffs (i : Nat) : List Nat :=
  (List.range (addrWords longAddrs)).map fun k => s2mmSa + (i * addrWords longAddrs + k) * 4

def Usable (i : Nat) : Prop := ∀ offs ∈ bufOffs longAddrs i, writable offs = BitVec.allOnes 32

end

/-! ## one register -/

section
variable {writable : Nat → BitVec 32}

/-- a register of which all bits can be written -/
theorem stored_of_allOnes {offs : Nat} (h : writable offs = BitVec.allOnes 32) (regs : VdmaRegs)
    (value : BitVec 32) : stored writable regs offs value = value := by
  rw [stored, h, BitVec.and_allOnes, BitVec.not_allOnes, BitVec.and_zero, BitVec.or_zero]

/-- after a pattern, its complement comes back only if all bits have been written -/
theorem stored_compl_iff {regs : VdmaRegs} {offs : Nat} {p : BitVec 32} (h : regs offs = ~~~p) :
    stored writable regs offs p = p ↔ writable offs = BitVec.allOnes 32 := by
  constructor
  · intro hp
    apply BitVec.eq_of_getLsbD_eq
    intro i hi
    have hbit := congrArg (fun w => w.getLsbD i) hp
    simp only [stored, h, BitVec.getLsbD_or, BitVec.getLsbD_and, BitVec.getLsbD_not, hi,
      decide_true, Bool.true_and] at hbit
    rw [BitVec.getLsbD_allOnes, decide_eq_true hi]
    revert hbit
    cases p.getLsbD i <;> cases (writable offs).getLsbD i <;> simp
  · intro hw
    exact stored_of_allOnes hw regs p

theorem mem_bufOffs {longAddrs : Bool} {i offs : Nat} : offs ∈ bufOffs longAddrs i ↔
    ∃ k < addrWords longAddrs, offs = s2mmSa + (i * addrWords longAddrs + k) * 4 := by
  unfold bufOffs
  rw [List.mem_map]
  constructor
  · rintro ⟨k, hk, rfl⟩
    exact ⟨k, List.mem_range.mp hk, rfl⟩
  · rintro ⟨k, hk, rfl⟩
    exact ⟨k, List.mem_range.mpr hk, rfl⟩

theorem saRd_ok {idx : Nat} (h : idx < 16) (regs : VdmaRegs) :
    saRd (BitVec.ofNat 32 idx) regs = .ok (regs (s2mmSa + idx * 4)) regs := by
  unfold saRd
  rw [toNat_idx h, if_pos h]
  rfl

theorem saWr_ok {idx : Nat} (h : idx < 16) (value : BitVec 32) (regs : VdmaRegs) :
    saWr writable (BitVec.ofNat 32 idx) value regs = .ok ()
      (Function.update regs (s2mmSa + idx * 4)
        (stored writable regs (s2mmSa + idx * 4) value)) := by
  unfold saWr
  rw [toNat_idx h, if_pos h]
  rfl

/-! ## one buffer -/

variable (writable) in
/-- the registers after a pattern has been written to the start address of buffer `i` -/
def patterned (longAddrs : Bool) (i : Nat) (p : BitVec 32) (regs : VdmaRegs) : VdmaRegs :=
  fun offs => if offs ∈ bufOffs longAddrs i then stored writable regs offs p else regs offs

theorem bufOffs_true (i : Nat) : bufOffs true i = [s2mmSa + i * 2 * 4, s2mmSa + (i * 2 + 1) * 4] :=
  rfl

theorem bufOffs_false (i : Nat) : bufOffs false i = [s2mmSa + (i * 1) * 4] := rfl

theorem patterned_of_mem {longAddrs : Bool} {i offs : Nat} (h : offs ∈ bufOffs longAddrs i)
    (p : BitVec 32) (regs : VdmaRegs) :
    patterned writable longAddrs i p regs offs = stored writable regs offs p := if_pos h

theorem patterned_of_not_mem {longAddrs : Bool} {i offs : Nat} (h : offs ∉ bufOffs longAddrs i)
    (p : BitVec 32) (regs : VdmaRegs) : patterned writable longAddrs i p regs offs = regs offs :=
  if_neg h

theorem stored_update_of_ne {offs o : Nat} (h : offs ≠ o) (regs : VdmaRegs) (v p : BitVec 32) :
    stored writable (Function.update regs o v) offs p = stored writable regs offs p := by
  rw [stored, stored, Function.update_of_ne h]

/-- both writes of a long address -/
theorem update_update_eq_patterned (i : Nat) (p : BitVec 32) (regs : VdmaRegs) :
    Function.update (Function.update regs (s2mmSa + i * 2 * 4)
        (stored writable regs (s2mmSa + i * 2 * 4) p)) (s2mmSa + (i * 2 + 1) * 4)
        (stored writable regs (s2mmSa + (i * 2 + 1) * 4) p) = patterned writable true i p regs := by
  funext offs
  by_cases h2 : offs = s2mmSa + (i * 2 + 1) * 4
  · rw [h2, Function.update_self, patterned_of_mem (by simp [bufOffs_true])]
  · rw [Function.update_of_ne h2]
    by_cases h1 : offs = s2mmSa + i * 2 * 4
    · rw [h1, Function.update_self, patterned_of_mem (by simp [bufOffs_true])]
    · rw [Function.update_of_ne h1, patterned_of_not_mem (by simp [bufOffs_true, h1, h2])]

theorem update_eq_patterned (i : Nat) (p : BitVec 32) (regs : VdmaRegs) :
    Function.update regs (s2mmSa + i * 4) (stored writable regs (s2mmSa + i * 4) p)
      = patterned writable false i p regs := by
  funext offs
  by_cases h : offs = s2mmSa + i * 4
  · rw [h, Function.update_self, patterned_of_mem (by simp [bufOffs_false])]
  · rw [Function.update_of_ne h, patterned_of_not_mem (by simp [bufOffs_false, h])]

theorem verify_eq (longAddrs : Bool) {i : Nat} (hi : (i + 1) * addrWords longAddrs ≤ 16)
    (p : BitVec 32) (regs : VdmaRegs) : verify (masked writable) longAddrs i p regs
      = .ok (decide (∀ offs ∈ bufOffs longAddrs i, stored writable regs offs p = p))
          (patterned writable longAddrs i p regs) := by
  cases longAddrs with
  | true =>
    have hi' : (i + 1) * 2 ≤ 16 := hi
    have h1 : i * 2 < 16 := by omega
    have h2 : i * 2 + 1 < 16 := by omega
    have hne : s2mmSa + (i * 2 + 1) * 4 ≠ s2mmSa + i * 2 * 4 := by omega
    unfold verify masked
    rw [if_pos rfl, bind_ok (saWr_ok h1 p regs), bind_ok (saWr_ok h2 p _), stored_update_of_ne hne,
      update_update_eq_patterned, bind_ok (saRd_ok h1 _), patterned_of_mem (by simp [bufOffs_true])]
    by_cases hp : stored writable regs (s2mmSa + i * 2 * 4) p = p
    · have hdec : (∀ offs ∈ bufOffs true i, stored writable regs offs p = p) ↔
          stored writable regs (s2mmSa + (i * 2 + 1) * 4) p = p := by simp [bufOffs_true, hp]
      rw [if_pos hp, bind_ok (saRd_ok h2 _), patterned_of_mem (by simp [bufOffs_true]),
        decide_eq_decide.mpr hdec]
      rfl
    · have hdec : ¬∀ offs ∈ bufOffs true i, stored writable regs offs p = p := by
        simp [bufOffs_true, hp]
      rw [if_neg hp, decide_eq_false hdec]
      rfl
  | false =>
    have h1 : i < 16 := by
      have : (i + 1) * 1 ≤ 16 := hi
      omega
    have hdec : (∀ offs ∈ bufOffs false i, stored writable regs offs p = p) ↔
        stored writable regs (s2mmSa + i * 4) p = p := by simp [bufOffs_false]
    unfold verify masked
    rw [if_neg Bool.false_ne_true, bind_ok (saWr_ok h1 p regs), update_eq_patterned,
      bind_ok (saRd_ok h1 _), patterned_of_mem (by simp [bufOffs_false]), decide_eq_decide.mpr hdec]
    rfl

variable (writable) in
/-- the registers once both patterns have come back from buffer `i` -/
structure Marked (longAddrs : Bool) (i : Nat) (regs regs' : VdmaRegs) : Prop where
  marked : Usable writable longAddrs i → ∀ offs ∈ bufOffs longAddrs i, regs' offs = 0xaaaaaaaa
  others : ∀ offs ∉ bufOffs longAddrs i, regs' offs = regs offs

variable (writable) in
/-- **The two patterns** come back exactly from a usable buffer. -/
theorem verifyAll_eq (longAddrs : Bool) {i : Nat} (hi : (i + 1) * addrWords longAddrs ≤ 16)
    (regs : VdmaRegs) : ∃ b regs', verifyAll (masked writable) longAddrs i patterns regs
      = .ok b regs' ∧
      (b = true ↔ Usable writable longAddrs i) ∧ Marked writable longAddrs i regs regs' := by
  have h1 : verify (masked writable) longAddrs i 0x55555555 regs = _ :=
    verify_eq longAddrs hi 0x55555555 regs
  by_cases hall : ∀ offs ∈ bufOffs longAddrs i, stored writable regs offs 0x55555555 = 0x55555555
  · -- the registers hold the complement of the second pattern
    have husable : (∀ offs ∈ bufOffs longAddrs i,
        stored writable (patterned writable longAddrs i 0x55555555 regs) offs 0xaaaaaaaa
          = 0xaaaaaaaa) ↔
        Usable writable longAddrs i := by
      refine forall_congr' fun offs => imp_congr_right fun hoffs => stored_compl_iff ?_
      rw [patterned_of_mem hoffs, hall offs hoffs]
      rfl
    obtain ⟨b, h2, hb⟩ : ∃ b, verify (masked writable) longAddrs i 0xaaaaaaaa
          (patterned writable longAddrs i 0x55555555 regs)
            = .ok b (patterned writable longAddrs i 0xaaaaaaaa
            (patterned writable longAddrs i 0x55555555 regs)) ∧
              (b = true ↔ Usable writable longAddrs i) :=
      ⟨_, verify_eq longAddrs hi 0xaaaaaaaa _, decide_eq_true_iff.trans husable⟩
    rw [decide_eq_true hall] at h1
    rw [patterns, verifyAll, bind_ok h1, if_pos rfl, verifyAll, bind_ok h2]
    refine ⟨b, _, by cases b <;> rfl, hb, ?_, ?_⟩
    · intro hu offs hoffs
      rw [patterned_of_mem hoffs, stored_of_allOnes (hu offs hoffs)]
    · intro offs hoffs
      rw [patterned_of_not_mem hoffs, patterned_of_not_mem hoffs]
  · rw [decide_eq_false hall] at h1
    rw [patterns, verifyAll, bind_ok h1]
    refine ⟨false, _, rfl, iff_of_false Bool.false_ne_true fun hu => hall fun offs hoffs =>
      ?_, ?_, ?_⟩
    · exact stored_of_allOnes (hu offs hoffs) regs _
    · intro hu
      exact absurd (fun offs hoffs => stored_of_allOnes (hu offs hoffs) regs _) hall
    · intro offs hoffs
      exact patterned_of_not_mem hoffs _ _

/-! ## the loop -/

/-- no register belongs to two buffers -/
theorem bufOffs_unique {longAddrs : Bool} {i j offs : Nat} (hi : offs ∈ bufOffs longAddrs i)
    (hj : offs ∈ bufOffs longAddrs j) : i = j := by
  obtain ⟨k, hk, rfl⟩ := mem_bufOffs.mp hi
  obtain ⟨l, hl, h⟩ := mem_bufOffs.mp hj
  cases longAddrs with
  | true =>
    have hk2 : k < 2 := hk
    have hl2 : l < 2 := hl
    have h2 : s2mmSa + (i * 2 + k) * 4 = s2mmSa + (j * 2 + l) * 4 := h
    omega
  | false =>
    have hk1 : k < 1 := hk
    have hl1 : l < 1 := hl
    have h1 : s2mmSa + (i * 1 + k) * 4 = s2mmSa + (j * 1 + l) * 4 := h
    omega

variable (writable) in
/-- the buffers from `i` up to `j` are usable and hold the pattern; those up to `e` have been
written -/
structure Scanned (longAddrs : Bool) (i j e : Nat) (regs regs' : VdmaRegs) : Prop where
  usable : ∀ k, i ≤ k → k < j → Usable writable longAddrs k
  marked : ∀ k, i ≤ k → k < j → ∀ offs ∈ bufOffs longAddrs k, regs' offs = 0xaaaaaaaa
  others : ∀ offs, (∀ k, i ≤ k → k < e → offs ∉ bufOffs longAddrs k) → regs' offs = regs offs

/-- one more buffer has been written -/
theorem Scanned.write {longAddrs : Bool} {j : Nat} {regs regs1 regs' : VdmaRegs}
    (h : Scanned writable longAddrs 0 j j regs regs1) (hm : Marked writable longAddrs j regs1 regs') :
    Scanned writable longAddrs 0 j (j+1) regs regs' where
  usable := h.usable
  marked k _ hkj offs hoffs := by
    -- the earlier buffers lie elsewhere
    rw [hm.others offs fun hmem => by have := bufOffs_unique hoffs hmem; omega]
    exact h.marked k (Nat.zero_le k) hkj offs hoffs
  others offs hall := by
    rw [hm.others offs (hall j (Nat.zero_le j) (Nat.lt_succ_self j))]
    exact h.others offs fun k hk hkj => hall k hk (by omega)

/-- and it is usable -/
theorem Scanned.succ {longAddrs : Bool} {j : Nat} {regs regs1 regs' : VdmaRegs}
    (h : Scanned writable longAddrs 0 j j regs regs1) (hm : Marked writable longAddrs j regs1 regs')
    (hu : Usable writable longAddrs j) : Scanned writable longAddrs 0 (j+1) (j+1) regs regs' where
  usable k hk hkj := by
    rcases Nat.eq_or_lt_of_le (Nat.le_of_lt_succ hkj) with rfl | hlt
    · exact hu
    · exact h.usable k hk hlt
  marked k hk hkj offs hoffs := by
    rcases Nat.eq_or_lt_of_le (Nat.le_of_lt_succ hkj) with rfl | hlt
    · exact hm.marked hu offs hoffs
    · exact (h.write hm).marked k hk hlt offs hoffs
  others := (h.write hm).others

theorem detectLoop_cases (longAddrs : Bool) (m n : Nat) (regs : VdmaRegs)
    (hfit : n * addrWords longAddrs ≤ 16) :
    (∃ j regs', j < n ∧ detectLoop (masked writable) longAddrs (n + m) 0 regs = .ok j regs' ∧
      ¬Usable writable longAddrs j ∧ Scanned writable longAddrs 0 j (j+1) regs regs') ∨
    ∃ regs', detectLoop (masked writable) longAddrs (n + m) 0 regs
      = detectLoop (masked writable) longAddrs m n regs' ∧
      Scanned writable longAddrs 0 n n regs regs' := by
  have hstart : Scanned writable longAddrs 0 0 0 regs regs :=
    ⟨fun k _ hk => absurd hk (Nat.not_lt_zero k), fun k _ hk => absurd hk (Nat.not_lt_zero k),
      fun _ _ => rfl⟩
  rw [← Nat.zero_add n] at hfit
  have hrule := detectLoop_rule (masked writable) longAddrs
    (fun i => Scanned writable longAddrs 0 i i regs)
    (fun i => Scanned writable longAddrs 0 i (i+1) regs) (Usable writable longAddrs)
    (fun i regs1 hi hs => by
      obtain ⟨b, regs', h, hb, hm⟩ := verifyAll_eq writable longAddrs hi regs1
      cases b with
      | true => exact Or.inl ⟨regs', h, hb.mp rfl, hs.succ hm (hb.mp rfl)⟩
      | false => exact Or.inr ⟨regs', h, fun hu => Bool.false_ne_true (hb.mpr hu), hs.write hm⟩)
    m n 0 regs hfit hstart
  rw [Nat.zero_add] at hrule
  refine hrule.imp_right ?_
  intro ⟨regs', h, hs, _⟩
  exact ⟨regs', h, hs⟩

/-- the ninth buffer has no long address -/
theorem detectLoop_eight (regs : VdmaRegs) :
    ∃ e regs', detectLoop (masked writable) true 8 8 regs = .error e regs' :=
  ⟨_, _, rfl⟩

/-! ## start addresses -/

/-- for usable buffers the method does what it does on registers that hold what is written -/
theorem initBuffers_eq (longAddrs : Bool) (frmBufs : List UioRegion) (regs : VdmaRegs)
    (hfit : frmBufs.length * addrWords longAddrs ≤ 16)
    (hu : ∀ k < frmBufs.length, Usable writable longAddrs k) :
    initBuffers writable longAddrs frmBufs regs = .ok () (wrBufs longAddrs 0 frmBufs regs) := by
  rw [← Nat.zero_add frmBufs.length] at hfit hu
  refine initBuffersLoop_eq longAddrs frmBufs 0 regs fun j k _ hj hk value regs => ?_
  have hw := hu j hj _ (mem_bufOffs.mpr ⟨k, hk, rfl⟩)
  rw [saWr_ok (lt_of_lt_of_le (word_lt hj hk) hfit), stored_of_allOnes hw]

variable (writable) in
/-- the bits that are left out keep their value -/
def KeepsFixed (regs regs' : VdmaRegs) : Prop :=
  ∀ offs, regs' offs &&& ~~~writable offs = regs offs &&& ~~~writable offs

instance : Std.Refl (KeepsFixed writable) := ⟨fun _ _ => rfl⟩

instance : IsTrans VdmaRegs (KeepsFixed writable) :=
  ⟨fun _ _ _ h h' offs => (h' offs).trans (h offs)⟩

theorem stored_fixed (regs : VdmaRegs) (offs : Nat) (value : BitVec 32) :
    stored writable regs offs value &&& ~~~writable offs = regs offs &&& ~~~writable offs := by
  apply BitVec.eq_of_getLsbD_eq
  intro i hi
  simp only [stored, BitVec.getLsbD_or, BitVec.getLsbD_and, BitVec.getLsbD_not, hi, decide_true,
    Bool.true_and]
  cases (writable offs).getLsbD i <;> simp

theorem keepsFixed_saWr (idx value : BitVec 32) :
    Makes (KeepsFixed writable) (saWr writable idx value) := by
  unfold saWr
  split
  · intro regs offs
    show Function.update regs _ _ offs &&& _ = _
    by_cases h : offs = s2mmSa + idx.toNat * 4
    · rw [h, Function.update_self, stored_fixed]
    · rw [Function.update_of_ne h]
  · exact Makes.throw _

theorem keepsFixed_initBuffersLoop (longAddrs : Bool) (frmBufs : List UioRegion) (i : Nat) :
    Makes (KeepsFixed writable) (initBuffersLoop (saWr writable) longAddrs i frmBufs) := by
  induction frmBufs generalizing i with
  | nil => exact Makes.pure ()
  | cons buf frmBufs ih =>
    cases longAddrs with
    | true => exact Makes.bind (keepsFixed_saWr _ _) fun _ =>
      Makes.bind (keepsFixed_saWr _ _) fun _ => ih (i+1)
    | false => exact Makes.bind (keepsFixed_saWr _ _) fun _ => ih (i+1)

/-- a register that has turned into its complement has no fixed bit -/
theorem allOnes_of_compl {regs regs' : VdmaRegs} (h : KeepsFixed writable regs regs') {offs : Nat}
    (hc : regs' offs = ~~~regs offs) : writable offs = BitVec.allOnes 32 := by
  apply BitVec.eq_of_getLsbD_eq
  intro i hi
  have hbit := congrArg (fun w => w.getLsbD i) (h offs)
  simp only [hc, BitVec.getLsbD_and, BitVec.getLsbD_not, hi, decide_true, Bool.true_and] at hbit
  rw [BitVec.getLsbD_allOnes, decide_eq_true hi]
  revert hbit
  cases (regs offs).getLsbD i <;> cases (writable offs).getLsbD i <;> simp

/-- the complement of the start address of buffer `i` -/
def complAddr (longAddrs : Bool) (regs : VdmaRegs) (i : Nat) : BitVec 64 :=
  startAddr longAddrs (fun offs => ~~~regs offs) i

theorem readBack_complAddr (longAddrs : Bool) (regs : VdmaRegs) (i : Nat) :
    readBack longAddrs (complAddr longAddrs regs i) = complAddr longAddrs regs i := by
  rw [readBack_eq_iff]
  cases longAddrs with
  | true => exact Or.inl rfl
  | false =>
    refine Or.inr (Nat.lt_of_le_of_lt ?_ (~~~regs (s2mmSa + i * 4)).isLt)
    show ((~~~regs (s2mmSa + i * 4)).setWidth 64).toNat ≤ _
    rw [BitVec.toNat_setWidth]
    exact Nat.mod_le _ _

/-- a start address tells what is in its words -/
theorem eq_of_startAddr_eq {longAddrs : Bool} {regs regs' : VdmaRegs} {i : Nat}
    (h : startAddr longAddrs regs i = startAddr longAddrs regs' i) :
    ∀ offs ∈ bufOffs longAddrs i, regs offs = regs' offs := by
  cases longAddrs with
  | true =>
    have happ : (regs (s2mmSa + i * 2 * 4) ++ regs (s2mmSa + (i * 2 + 1) * 4) : BitVec (32 + 32))
        = regs' (s2mmSa + i * 2 * 4) ++ regs' (s2mmSa + (i * 2 + 1) * 4) := h
    have hhi := congrArg (fun w => w.extractLsb' 32 32) happ
    have hlo := congrArg (fun w => w.extractLsb' 0 32) happ
    rw [BitVec.extractLsb'_append_eq_left, BitVec.extractLsb'_append_eq_left] at hhi
    rw [BitVec.extractLsb'_append_eq_right, BitVec.extractLsb'_append_eq_right] at hlo
    rw [bufOffs_true]
    simp [hhi, hlo]
  | false =>
    have hw : (regs (s2mmSa + i * 4)).setWidth 64 = (regs' (s2mmSa + i * 4)).setWidth 64 := h
    have hlow := congrArg (fun w => w.setWidth 32) hw
    simpa [bufOffs_false] using hlow

/-! ## what the detection promises -/

variable (writable) in
/-- `n` is what `autodetect_num_frmbufs` has to return, with the registers `regs'` -/
structure Detected (longAddrs : Bool) (n : Nat) (regs regs' : VdmaRegs) : Prop where
  fits : n * addrWords longAddrs ≤ 16
  -- the first `n` buffers, and what the detection has written
  scanned : Scanned writable longAddrs 0 n (min (n+1) 16) regs regs'
  next : n < 16 → ¬Usable writable longAddrs n
  -- up to `n` buffers take their addresses, if these have no upper half or there are registers for
  -- it
  takes : ∀ frmBufs : List UioRegion, frmBufs.length ≤ n →
    (longAddrs = true ∨ ∀ b ∈ frmBufs, b.addr.toNat < 2^32) → ∀ r, ∃ r',
      initBuffers writable longAddrs frmBufs r = .ok () r' ∧
        ∀ i (h : i < frmBufs.length), startAddr longAddrs r' i = frmBufs[i].addr
  -- one more buffer does not take some such address
  loses : n < 16 → ∀ r, ∃ addr : BitVec 64, (longAddrs = true ∨ addr.toNat < 2^32) ∧
    ∀ frmBufs r' (h : n < frmBufs.length), frmBufs[n].addr = addr →
      initBuffers writable longAddrs frmBufs r = .ok () r' → startAddr longAddrs r' n ≠ addr

theorem takes_of_usable {longAddrs : Bool} {n : Nat} (hn : n * addrWords longAddrs ≤ 16)
    (hu : ∀ k < n, Usable writable longAddrs k) (frmBufs : List UioRegion)
    (hlen : frmBufs.length ≤ n) (haddr : longAddrs = true ∨ ∀ b ∈ frmBufs, b.addr.toNat < 2^32)
    (r : VdmaRegs) :
    ∃ r', initBuffers writable longAddrs frmBufs r = .ok () r' ∧
      ∀ i (h : i < frmBufs.length), startAddr longAddrs r' i = frmBufs[i].addr := by
  have hfit : frmBufs.length * addrWords longAddrs ≤ 16 := le_trans (Nat.mul_le_mul_right _ hlen) hn
  refine ⟨_, initBuffers_eq longAddrs frmBufs r hfit fun k hk => hu k (by omega), fun i hi => ?_⟩
  have h := startAddr_wrBufs longAddrs frmBufs 0 r hi
  rw [Nat.zero_add] at h
  rw [h, readBack_eq_iff]
  exact haddr.imp_right fun hlt => hlt _ (List.getElem_mem hi)

theorem loses_of_not_usable {longAddrs : Bool} {n : Nat} (hno : ¬Usable writable longAddrs n)
    (r : VdmaRegs) :
    ∃ addr : BitVec 64, (longAddrs = true ∨ addr.toNat < 2^32) ∧
      ∀ frmBufs r' (h : n < frmBufs.length), frmBufs[n].addr = addr →
        initBuffers writable longAddrs frmBufs r = .ok () r' → startAddr longAddrs r' n ≠ addr := by
  have hfull : longAddrs = true ∨ (complAddr longAddrs r n).toNat < 2^32 :=
    (readBack_eq_iff longAddrs _).mp (readBack_complAddr longAddrs r n)
  refine ⟨complAddr longAddrs r n, hfull, fun frmBufs r' _ _ hok haddr => hno ?_⟩
  have hkeep : KeepsFixed writable r r' := by
    have h : KeepsFixed writable r
        (final (initBuffersLoop (saWr writable) longAddrs 0 frmBufs r)) :=
      keepsFixed_initBuffersLoop longAddrs frmBufs 0 r
    rwa [show initBuffersLoop (saWr writable) longAddrs 0 frmBufs r = .ok () r' from hok] at h
  intro offs hoffs
  exact allOnes_of_compl hkeep (eq_of_startAddr_eq haddr offs hoffs)

theorem detected_of_scanned {longAddrs : Bool} {n : Nat} {regs regs' : VdmaRegs}
    (hn : n * addrWords longAddrs ≤ 16)
    (hs : Scanned writable longAddrs 0 n (min (n+1) 16) regs regs')
    (hnext : n < 16 → ¬Usable writable longAddrs n) : Detected writable longAddrs n regs regs' where
  fits := hn
  scanned := hs
  next := hnext
  takes := takes_of_usable hn fun k hk => hs.usable k (Nat.zero_le k) hk
  loses h := loses_of_not_usable (hnext h)

end

/-- **The detection counts the usable buffers.**  Whichever bits of the start addresses the core
implements: it returns unless there are eight usable buffers with long addresses (where the index
leaves the array), and what it returns is the number of usable buffers in front, which take any
addresses below 4 GiB, or any at all if addresses are long. -/
theorem detects_usable (writable : Nat → BitVec 32) (longAddrs : Bool) (regs : VdmaRegs) :
    ((∃ n regs', autodetectNumFrmbufs writable longAddrs regs = .ok n regs') ↔
      ¬(longAddrs = true ∧ ∀ i < 8, Usable writable longAddrs i)) ∧
    ∀ n regs', autodetectNumFrmbufs writable longAddrs regs = .ok n regs' →
      Detected writable longAddrs n regs regs' := by
  -- it returns, with what it has to return
  have hreturns : ∀ n regs', autodetectNumFrmbufs writable longAddrs regs = .ok n regs' →
      Detected writable longAddrs n regs regs' →
      ∀ m t, autodetectNumFrmbufs writable longAddrs regs = .ok m t →
        Detected writable longAddrs m regs t := by
    intro n regs' h hd m t h'
    rw [h] at h'
    injection h' with hm ht
    exact hm ▸ ht ▸ hd
  cases longAddrs with
  | true =>
    rcases detectLoop_cases true 8 8 regs (by decide)
      with ⟨j, regs', hj, h, hno, hs⟩ | ⟨regs', h, hs⟩
    · have hmin : min (j+1) 16 = j+1 := by omega
      have hfit : j * 2 ≤ 16 := by omega
      refine ⟨iff_of_true ⟨j, regs', h⟩ fun hall => hno (hall.2 j (by omega)), ?_⟩
      exact hreturns j regs' h (detected_of_scanned hfit (by rwa [hmin]) fun _ => hno)
    · obtain ⟨e, t, herr⟩ := detectLoop_eight regs'
      have hstop : autodetectNumFrmbufs writable true regs = .error e t := h.trans herr
      refine ⟨iff_of_false ?_ ?_, ?_⟩
      · rintro ⟨n, t', hok⟩
        cases hok.symm.trans hstop
      · intro hno
        exact hno ⟨rfl, fun i hi => hs.usable i (Nat.zero_le i) (by omega)⟩
      · intro n t' hok
        cases hok.symm.trans hstop
  | false =>
    have hreach : ¬(false = true ∧ ∀ i < 8, Usable writable false i) :=
      fun hc => Bool.false_ne_true hc.1
    rcases detectLoop_cases false 0 16 regs (by decide)
      with ⟨j, regs', hj, h, hno, hs⟩ | ⟨regs', h, hs⟩
    · have hmin : min (j+1) 16 = j+1 := by omega
      have hfit : j * 1 ≤ 16 := by omega
      refine ⟨iff_of_true ⟨j, regs', h⟩ hreach, ?_⟩
      exact hreturns j regs' h (detected_of_scanned hfit (by rwa [hmin]) fun _ => hno)
    · refine ⟨iff_of_true ⟨16, regs', h⟩ hreach, ?_⟩
      exact hreturns 16 regs' h (detected_of_scanned (by decide) hs fun hlt =>
        absurd hlt (Nat.lt_irrefl 16))

/-- a core for three frame buffers whose third address has no bit 31 -/
example : ∃ regs', autodetectNumFrmbufs
    (fun offs => if offs < 0xb4 then 0xffffffff else if offs = 0xb4 then 0x7fffffff else 0) false
    (fun _ => 0) = .ok 2 regs' := ⟨_, rfl⟩

end MaskedVdma

end Udmaio
