import Udmaio.Hw.Views

/-!
# Register arrays

`RegAccessorArray` (`inc/udmaio/RegAccessor.hpp`): an array of registers of one type at a fixed
stride, read and written through `_rd_reg` and `_wr_reg` of the accessor.

* `RegAccessorArray`   the template arguments; the type of the content is given by its size and by
                       the value that its bytes stand for;
* `rd_ok`, `wr_ok`     an element within reach is read and written as a whole;
* `of_rd_ok`, `of_wr_ok`   an element that has been read or written is within reach.
-/

namespace Udmaio
open Lib

namespace HwAccessor

/-- the classes that map their memory check no offset -/
def reach : HwAccessor → HwAccessor
  | xdma m _ => xdma m (2^32)
  | axi _ => axi (2^32)
  | mock n => mock n

theorem rdReg_reach (h : HwAccessor) (fuel : Nat) (offs : BitVec 32) (c : RegSize) :
    h.reach.rdReg fuel offs c = h.rdReg fuel offs c := by
  cases h with
  | xdma m n => rfl
  | axi n => rfl
  | mock n => rfl

theorem wrReg_reach (h : HwAccessor) (fuel : Nat) (offs : BitVec 32) (c : RegSize)
    (value : Nat → UInt8) : h.reach.wrReg fuel offs c value = h.wrReg fuel offs c value := by
  cases h with
  | xdma m n => rfl
  | axi n => rfl
  | mock n => rfl

/-- only the size of the mock matters -/
theorem le_reach_size {h : HwAccessor} {k : Nat} (hw : k ≤ 2^32) (hk : ∀ n, h = mock n → k ≤ n) :
    k ≤ h.reach.size := by
  cases h with
  | xdma m n => rwa [reach, size]
  | axi n => rwa [reach, size]
  | mock n => exact hk n rfl

/-! ## what an access that returns tells about the bounds -/

theorem le_of_memPtr_mock {n width : Nat} {offs : BitVec 32} {a : BitVec 64} {s s' : HwState}
    (h : (mock n).memPtr width offs s = .ok a s') : offs.toNat + width ≤ n := by
  by_contra hc
  unfold memPtr at h
  dsimp only at h
  rw [if_pos (by omega)] at h
  cases h

theorem le_of_rd32_mock {n : Nat} {offs v : BitVec 32} {s s' : HwState}
    (h : (mock n).rd32 offs s = .ok v s') : offs.toNat + 4 ≤ n := by
  obtain ⟨_, s1, h1, -⟩ := of_bind_ok h
  obtain ⟨a, s2, h2, -⟩ := of_bind_ok h1
  exact le_of_memPtr_mock h2

theorem le_of_wr32_mock {n : Nat} {offs data : BitVec 32} {s s' : HwState}
    (h : (mock n).wr32 offs data s = .ok () s') : offs.toNat + 4 ≤ n := by
  obtain ⟨a, s1, h1, -⟩ := of_bind_ok h
  exact le_of_memPtr_mock h1

theorem toNat_second_half {offs : BitVec 32} (hw : offs.toNat + 8 ≤ 2^32) :
    (offs + 4#32).toNat = offs.toNat + 4 := by
  rw [BitVec.toNat_add]
  show (offs.toNat + 4) % 2^32 = _
  omega

/-- the mock reads it in two halves -/
theorem le_of_rd64_mock {n : Nat} {offs : BitVec 32} {v : BitVec 64} {s s' : HwState}
    (hw : offs.toNat + 8 ≤ 2^32) (h : (mock n).rd64 offs s = .ok v s') : offs.toNat + 8 ≤ n := by
  obtain ⟨_, s1, -, h1⟩ := of_bind_ok h
  obtain ⟨_, s2, h2, -⟩ := of_bind_ok h1
  have h3 := le_of_rd32_mock h2
  rw [toNat_second_half hw] at h3
  omega

theorem le_of_wr64_mock {n : Nat} {offs : BitVec 32} {data : BitVec 64} {s s' : HwState}
    (hw : offs.toNat + 8 ≤ 2^32) (h : (mock n).wr64 offs data s = .ok () s') :
    offs.toNat + 8 ≤ n := by
  obtain ⟨_, s1, -, h1⟩ := of_bind_ok h
  have h2 := le_of_wr32_mock h1
  rw [toNat_second_half hw] at h2
  omega

/-- the last word of a loop -/
theorem le_of_forLoop {β : Type} (acc : Nat → BitVec 32 → HwM β) {offs d : BitVec 32}
    {n c N fuel : Nat} (hd : d.toNat = n) (hn : 0 < n)
    (hacc : ∀ k o v s s', o.toNat + n ≤ 2^32 → acc k o s = .ok v s' → o.toNat + n ≤ N)
    (hc : c ≠ 0) (hw : offs.toNat + c * n ≤ 2^32) (hs : c * n < 2^32) {r : List β}
    {s s' : HwState} (h : forLoop d (c * n) (fun k i => acc k (offs + i)) fuel 0 0 s = .ok r s') :
    offs.toNat + c * n ≤ N := by
  subst hd
  obtain ⟨t, v, t', h2⟩ := of_forLoop_ok (j := c - 1) hn rfl hs h (by omega)
  have hlast : (c - 1) * d.toNat + d.toNat = c * d.toNat := by
    rw [← Nat.succ_mul]
    congr 1
    omega
  have e : (offs + BitVec.ofNat 32 ((c - 1) * d.toNat)).toNat = offs.toNat + (c - 1) * d.toNat := by
    rw [BitVec.toNat_add, BitVec.toNat_ofNat]
    omega
  have h3 := hacc _ _ _ _ _ (by rw [e]; omega) h2
  omega

section
variable {n fuel size : Nat} {offs : BitVec 32} {s s' : HwState}

theorem le_of_rdMem32_mock {bs : List UInt8} (h : (mock n).rdMem32 fuel offs size s = .ok bs s')
    (h4 : size % 4 = 0) (hpos : size ≠ 0) (hw : offs.toNat + size ≤ 2^32) (hs : size < 2^32) :
    offs.toNat + size ≤ n := by
  obtain ⟨c, rfl⟩ : ∃ c, size = c * 4 := ⟨size / 4, by omega⟩
  obtain ⟨ws, s1, h1, -⟩ := of_bind_ok h
  exact le_of_forLoop (fun _ o => (mock n).rd32 o) rfl (by decide)
    (fun _ _ _ _ _ _ h => le_of_rd32_mock h) (by omega) hw hs h1

theorem le_of_rdMem64_mock {bs : List UInt8} (h : (mock n).rdMem64 fuel offs size s = .ok bs s')
    (h8 : size % 8 = 0) (hpos : size ≠ 0) (hw : offs.toNat + size ≤ 2^32) (hs : size < 2^32) :
    offs.toNat + size ≤ n := by
  obtain ⟨c, rfl⟩ : ∃ c, size = c * 8 := ⟨size / 8, by omega⟩
  obtain ⟨ws, s1, h1, -⟩ := of_bind_ok h
  exact le_of_forLoop (fun _ o => (mock n).rd64 o) rfl (by decide)
    (fun _ _ _ _ _ hw h => le_of_rd64_mock hw h) (by omega) hw hs h1

theorem le_of_wrMem32_mock {mem : Nat → UInt8}
    (h : (mock n).wrMem32 fuel offs mem size s = .ok () s') (h4 : size % 4 = 0) (hpos : size ≠ 0)
    (hw : offs.toNat + size ≤ 2^32) (hs : size < 2^32) : offs.toNat + size ≤ n := by
  obtain ⟨c, rfl⟩ : ∃ c, size = c * 4 := ⟨size / 4, by omega⟩
  obtain ⟨_, s1, h1, -⟩ := of_bind_ok h
  exact le_of_forLoop (fun k o => (mock n).wr32 o (BitVec.ofNat 32 (hostWord 4 mem k))) rfl
    (by decide)
    (fun _ _ _ _ _ _ h => le_of_wr32_mock h) (by omega) hw hs h1

theorem le_of_wrMem64_mock {mem : Nat → UInt8}
    (h : (mock n).wrMem64 fuel offs mem size s = .ok () s') (h8 : size % 8 = 0) (hpos : size ≠ 0)
    (hw : offs.toNat + size ≤ 2^32) (hs : size < 2^32) : offs.toNat + size ≤ n := by
  obtain ⟨c, rfl⟩ : ∃ c, size = c * 8 := ⟨size / 8, by omega⟩
  obtain ⟨_, s1, h1, -⟩ := of_bind_ok h
  exact le_of_forLoop (fun k o => (mock n).wr64 o (BitVec.ofNat 64 (hostWord 8 mem k))) rfl
    (by decide)
    (fun _ _ _ _ _ hw h => le_of_wr64_mock hw h) (by omega) hw hs h1

end

/-- a register that has been read is within reach -/
theorem inBounds_of_rdReg {h : HwAccessor} {fuel : Nat} {offs : BitVec 32} {c : RegSize}
    {bs : List UInt8} {s s' : HwState} (hok : h.rdReg fuel offs c s = .ok bs s')
    (hw : offs.toNat + c.bytes ≤ 2^32) (hs : c.bytes < 2^32) : h.reach.InBounds offs c.bytes := by
  refine ⟨le_reach_size hw fun n hn => ?_, hw⟩
  subst hn
  unfold rdReg at hok
  split at hok
  · next hc => exact le_of_rdMem64_mock hok hc.2 c.pos hw hs
  · exact le_of_rdMem32_mock hok c.dvd c.pos hw hs

/-- a register that has been written is within reach -/
theorem inBounds_of_wrReg {h : HwAccessor} {fuel : Nat} {offs : BitVec 32} {c : RegSize}
    {value : Nat → UInt8} {s s' : HwState} (hok : h.wrReg fuel offs c value s = .ok () s')
    (hw : offs.toNat + c.bytes ≤ 2^32) (hs : c.bytes < 2^32) : h.reach.InBounds offs c.bytes := by
  refine ⟨le_reach_size hw fun n hn => ?_, hw⟩
  subst hn
  unfold wrReg at hok
  split at hok
  · next hc => exact le_of_wrMem64_mock hok hc.2 c.pos hw hs
  · exact le_of_wrMem32_mock hok c.dvd c.pos hw hs

end HwAccessor

/-! ## arrays -/

structure RegAccessorArray (α : Type) where
  offset : BitVec 32
  arrSize : BitVec 32
  arrStride : BitVec 32
  sizeofC : RegSize
  ofBytes : List UInt8 → α

namespace RegAccessorArray
variable {α : Type} (a : RegAccessorArray α) (h : HwAccessor) (fuel : Nat)

def regOffs (idx : BitVec 32) : BitVec 32 := a.offset + idx * a.arrStride

/-- `operator[]`, as the offset of the element -/
def element (idx : BitVec 32) : HwM (BitVec 32) :=
  if idx.toNat < a.arrSize.toNat then return a.regOffs idx
  else throw (.exception "Assertion 'idx < arr_size' failed")

def rd (idx : BitVec 32) : HwM α := do
  let regOffs ← a.element idx
  return a.ofBytes (← h.rdReg fuel regOffs a.sizeofC)

/-- `value` is the object representation, padding included -/
def wr (idx : BitVec 32) (value : List UInt8) : HwM Unit := do
  let regOffs ← a.element idx
  h.wrReg fuel regOffs a.sizeofC fun k => value.getD k 0

/-- the address of an element -/
def addr (idx : BitVec 32) : BitVec 64 := (a.regOffs idx).setWidth 64

/-- an element of the array that the accessor can get at -/
structure Reach (idx : BitVec 32) : Prop where
  lt : idx.toNat < a.arrSize.toNat
  bounds : h.reach.InBounds (a.regOffs idx) a.sizeofC.bytes
  size : a.sizeofC.bytes < 2^32

theorem element_ok {idx : BitVec 32} (hi : idx.toNat < a.arrSize.toNat) (s : HwState) :
    a.element idx s = .ok (a.regOffs idx) s := by
  unfold element
  rw [if_pos hi]
  rfl

theorem hostBytes_getD_self (bs : List UInt8) :
    hostBytes (fun k => bs.getD k 0) bs.length = bs := by
  apply List.ext_getElem
  · exact hostBytes_length _ _
  · intro k h1 h2
    simp only [hostBytes, List.getElem_map, List.getElem_range]
    exact List.getD_eq_getElem _ _ h2

variable {a h fuel} {idx : BitVec 32}

theorem rd_ok (hr : a.Reach h idx) (hf : a.sizeofC.bytes < fuel) (s : HwState) :
    HwAccessor.Reads (a.rd h fuel idx) s (a.ofBytes (load s.mem (a.addr idx) a.sizeofC.bytes)) := by
  obtain ⟨s', h1, h2⟩ := HwAccessor.rdReg_ok hr.bounds hr.size hf s
  rw [HwAccessor.rdReg_reach] at h1
  refine ⟨s', ?_, h2⟩
  unfold rd
  rw [bind_ok (a.element_ok hr.lt s), bind_ok h1]
  rfl

theorem wr_ok (hr : a.Reach h idx) (hf : a.sizeofC.bytes < fuel) {value : List UInt8}
    (hl : value.length = a.sizeofC.bytes) (s : HwState) :
    HwAccessor.Writes (a.wr h fuel idx value) s (store s.mem (a.addr idx) value) := by
  obtain ⟨s', h1, h2⟩ := HwAccessor.wrReg_ok (fun k => value.getD k 0) hr.bounds hr.size hf s
  rw [HwAccessor.wrReg_reach] at h1
  rw [← hl, hostBytes_getD_self] at h2
  refine ⟨s', ?_, h2⟩
  unfold wr
  rw [bind_ok (a.element_ok hr.lt s)]
  exact h1

theorem of_element_ok {offs : BitVec 32} {s s' : HwState} (hok : a.element idx s = .ok offs s') :
    idx.toNat < a.arrSize.toNat ∧ offs = a.regOffs idx := by
  by_cases hi : idx.toNat < a.arrSize.toNat
  · rw [a.element_ok hi] at hok
    injection hok with e1 e2
    exact ⟨hi, e1.symm⟩
  · unfold element at hok
    rw [if_neg hi] at hok
    cases hok

/-- an element that has been read is within reach -/
theorem of_rd_ok {v : α} {s s' : HwState} (hok : a.rd h fuel idx s = .ok v s')
    (hw : (a.regOffs idx).toNat + a.sizeofC.bytes ≤ 2^32) (hs : a.sizeofC.bytes < 2^32) :
    a.Reach h idx := by
  obtain ⟨offs, s1, h1, h2⟩ := of_bind_ok hok
  obtain ⟨hi, rfl⟩ := of_element_ok h1
  obtain ⟨bs, s2, h3, -⟩ := of_bind_ok h2
  exact ⟨hi, HwAccessor.inBounds_of_rdReg h3 hw hs, hs⟩

/-- an element that has been written is within reach -/
theorem of_wr_ok {value : List UInt8} {s s' : HwState} (hok : a.wr h fuel idx value s = .ok () s')
    (hw : (a.regOffs idx).toNat + a.sizeofC.bytes ≤ 2^32) (hs : a.sizeofC.bytes < 2^32) :
    a.Reach h idx := by
  obtain ⟨offs, s1, h1, h2⟩ := of_bind_ok hok
  obtain ⟨hi, rfl⟩ := of_element_ok h1
  exact ⟨hi, HwAccessor.inBounds_of_wrReg h2 hw hs, hs⟩

end RegAccessorArray

end Udmaio
