import Udmaio.Lib.Ring
import Udmaio.Sgdma.Layout

/-!
# Writing the ring to descriptor memory

`write_cyc_mode` and `init_buffers` (`src/UioMemSgdma.cpp`) as they run, through `descriptors[i].wr`
and the memory loops of the accessor.

* `initBuffersMem`      `init_buffers` on the bytes of descriptor memory;
* `descAt`              the descriptor that is in slot `i`;
* `writeCycLoopMem_ok`  the loop on bytes does to the slots what `writeCycLoop` does to the array;
* `initBuffers_ring`    **one closed ring**: all descriptors, the members, and what is left alone;
* `buffer_len_iff`      **which sizes fit** into the length field.
-/

namespace Udmaio
open Lib

namespace UioMemSgdma

section
variable (h : HwAccessor) (fuel : Nat)

/-- the loop of `write_cyc_mode` from descriptor `i` on; `pad i` is the padding of the object
`desc` -/
def writeCycLoopMem (pad : Nat → BitVec 32) (o : UioMemSgdma) : Nat → List UioRegion → HwM Unit
  | _, [] => return
  | i, dst :: dsts => do
    descriptors.wr h fuel (BitVec.ofNat 32 i) ((o.cycDesc i dst).toBytes (pad i))
    writeCycLoopMem pad o (i+1) dsts

def writeCycModeMem (pad : Nat → BitVec 32) (o : UioMemSgdma) (dstBufs : List UioRegion) :
    HwM UioMemSgdma := do
  let o' := { o with nrCycDesc := dstBufs.length, nextReadableBuf := 0 }
  writeCycLoopMem h fuel pad o' 0 dstBufs
  return o'

def initBuffersMem (pad : Nat → BitVec 32) (o : UioMemSgdma) (memAddr : BitVec 64)
    (numBuffers bufSize : Nat) : HwM UioMemSgdma := do
  let addrs := (List.range numBuffers).map (bufAddrOf memAddr bufSize)
  let dstBufs := addrs.map fun a => (⟨a, bufSize⟩ : UioRegion)
  let o' ← writeCycModeMem h fuel pad { o with memAddr := memAddr, bufAddrs := addrs } dstBufs
  return { o' with bufSize := bufSize }

end

end UioMemSgdma

/-! ## slots -/

def slotSize : Nat := 0x38

def descAt (m : BitVec 64 → UInt8) (i : Nat) : S2mmDesc :=
  S2mmDesc.ofBytes (load m (BitVec.ofNat 64 (i * descAddrStep)) slotSize)

/-- the address is one of the bytes of a descriptor in slot `i` -/
def InSlot (i : Nat) (x : BitVec 64) : Prop :=
  i * descAddrStep ≤ x.toNat ∧ x.toNat < i * descAddrStep + slotSize

section
variable {i j : Nat} (m : BitVec 64 → UInt8)

theorem toNat_slotAddr (hi : i < 1024) {k : Nat} (hk : k < slotSize) :
    (BitVec.ofNat 64 (i * descAddrStep) + BitVec.ofNat 64 k).toNat = i * descAddrStep + k := by
  rw [← BitVec.ofNat_add, BitVec.toNat_ofNat, Nat.mod_eq_of_lt]
  unfold descAddrStep slotSize at *
  omega

/-- a write within slot `i` leaves the other bytes alone -/
theorem store_of_not_inSlot (hi : i < 1024) {x : BitVec 64} (hx : ¬ InSlot i x) {a : BitVec 64}
    {bs : List UInt8} (ha : i * descAddrStep ≤ a.toNat)
    (hl : a.toNat + bs.length ≤ i * descAddrStep + slotSize) : store m a bs x = m x := by
  apply store_outside
  have hlt := x.isLt
  unfold InSlot at hx
  rw [BitVec.toNat_sub]
  unfold descAddrStep slotSize at *
  omega

theorem inSlot_addr (hj : j < 1024) {k : Nat} (hk : k < slotSize) :
    InSlot j (BitVec.ofNat 64 (j * descAddrStep) + BitVec.ofNat 64 k) := by
  unfold InSlot
  rw [toNat_slotAddr hj hk]
  omega

theorem not_inSlot_of_ne {x : BitVec 64} (hne : i ≠ j) (hx : InSlot j x) : ¬ InSlot i x := by
  unfold InSlot descAddrStep slotSize at *
  omega

theorem descAt_congr {m' : BitVec 64 → UInt8} (hm : ∀ x, InSlot j x → m x = m' x)
    (hj : j < 1024) : descAt m j = descAt m' j := by
  unfold descAt
  congr 1
  exact load_congr fun k hk => hm _ (inSlot_addr hj hk)

/-- the store that `descriptors[i].wr(d)` makes -/
theorem store_desc_of_not_inSlot (hi : i < 1024) {x : BitVec 64} (hx : ¬ InSlot i x)
    (pad : BitVec 32) (d : S2mmDesc) :
    store m (BitVec.ofNat 64 (i * descAddrStep)) (d.toBytes pad) x = m x := by
  have e := toNat_slotAddr hi (k := 0) (by decide)
  rw [BitVec.add_zero, Nat.add_zero] at e
  refine store_of_not_inSlot m hi hx (le_of_eq e.symm) ?_
  rw [e, d.toBytes_length pad]
  rfl

/-- **A write changes its own slot only.** -/
theorem descAt_store (hi : i < 1024) (hj : j < 1024) (pad : BitVec 32) (d : S2mmDesc) :
    descAt (store m (BitVec.ofNat 64 (i * descAddrStep)) (d.toBytes pad)) j
      = Function.update (descAt m) i d j := by
  have hl := d.toBytes_length pad
  by_cases hne : j = i
  · subst hne
    rw [Function.update_self]
    unfold descAt slotSize
    rw [← hl, load_store _ _ _ (by rw [hl]; decide), S2mmDesc.ofBytes_toBytes]
  · rw [Function.update_of_ne hne]
    refine descAt_congr _ (fun x hx => ?_) hj
    exact store_desc_of_not_inSlot m hi (not_inSlot_of_ne (Ne.symm hne) hx) pad d

end

/-! ## the loop -/

/-- the accessor can get at slot `i` -/
def Slot (h : HwAccessor) (i : Nat) : Prop := descriptors.Reach h (BitVec.ofNat 32 i)

theorem slot_of_le {h : HwAccessor} {i : Nat} (hi : i < 1024)
    (hb : i * descAddrStep + slotSize ≤ h.size) : Slot h i where
  lt := by
    show (BitVec.ofNat 32 i).toNat < 1024
    rw [BitVec.toNat_ofNat, Nat.mod_eq_of_lt (by omega)]
    exact hi
  bounds := by
    have e := regOffs_descriptors hi
    have hw : i * descAddrStep + slotSize ≤ 2^32 := by
      unfold descAddrStep slotSize
      omega
    constructor
    · rw [e]
      refine HwAccessor.le_reach_size hw fun n hn => ?_
      subst hn
      exact hb
    · rw [e]
      exact hw
  size := by decide

section
variable {h : HwAccessor} {fuel i : Nat}

theorem rd_slot (hs : Slot h i) (hi : i < 1024) (hf : slotSize < fuel) (s : HwState) :
    HwAccessor.Reads (descriptors.rd h fuel (BitVec.ofNat 32 i)) s (descAt s.mem i) := by
  have := RegAccessorArray.rd_ok hs hf s
  rwa [addr_descriptors hi] at this

theorem wr_slot (hs : Slot h i) (hi : i < 1024) (hf : slotSize < fuel) (pad : BitVec 32)
    (d : S2mmDesc) (s : HwState) :
    HwAccessor.Writes (descriptors.wr h fuel (BitVec.ofNat 32 i) (d.toBytes pad)) s
      (store s.mem (BitVec.ofNat 64 (i * descAddrStep)) (d.toBytes pad)) := by
  have := RegAccessorArray.wr_ok hs hf (d.toBytes_length pad) s
  rwa [addr_descriptors hi] at this

theorem slot_le (hi : i < 1024) : (descriptors.regOffs (BitVec.ofNat 32 i)).toNat
    + descriptors.sizeofC.bytes ≤ 2^32 := by
  rw [regOffs_descriptors hi]
  show i * 0x40 + 0x38 ≤ 2^32
  omega

theorem slot_of_rd {d : S2mmDesc} {s s' : HwState} (hi : i < 1024)
    (hok : descriptors.rd h fuel (BitVec.ofNat 32 i) s = .ok d s') : Slot h i :=
  RegAccessorArray.of_rd_ok hok (slot_le hi) (by decide)

theorem slot_of_wr {bs : List UInt8} {s s' : HwState} (hi : i < 1024)
    (hok : descriptors.wr h fuel (BitVec.ofNat 32 i) bs s = .ok () s') : Slot h i :=
  RegAccessorArray.of_wr_ok hok (slot_le hi) (by decide)

end

namespace UioMemSgdma

section
variable {h : HwAccessor} {fuel : Nat} {pad : Nat → BitVec 32} {o : UioMemSgdma}

/-- a loop that returns has got at all its slots -/
theorem slots_of_writeCycLoopMem {dsts : List UioRegion} {i : Nat} {s s' : HwState}
    (hi : i + dsts.length ≤ 1024) (hok : writeCycLoopMem h fuel pad o i dsts s = .ok () s') :
    ∀ j, i ≤ j → j < i + dsts.length → Slot h j := by
  induction dsts generalizing i s with
  | nil =>
    intro j h1 h2
    exact absurd h2 (Nat.not_lt.mpr h1)
  | cons dst dsts ih =>
    intro j h1 h2
    rw [List.length_cons] at hi h2
    obtain ⟨_, s1, hwr, hrest⟩ := of_bind_ok hok
    by_cases hj : j = i
    · subst hj
      exact slot_of_wr (by omega) hwr
    · exact ih (by omega) hrest j (by omega) (by omega)

theorem length_dstBufs (memAddr : BitVec 64) (n bufSize : Nat) :
    (((List.range n).map (bufAddrOf memAddr bufSize)).map
      fun a => (⟨a, bufSize⟩ : UioRegion)).length = n := by
  rw [List.length_map, List.length_map, List.length_range]

theorem slots_of_initBuffersMem {memAddr : BitVec 64} {n bufSize : Nat} {s s' : HwState}
    {o' : UioMemSgdma} (hn : n ≤ 1024)
    (hok : initBuffersMem h fuel pad o memAddr n bufSize s = .ok o' s') : ∀ j < n, Slot h j := by
  obtain ⟨_, s1, hcyc, -⟩ := of_bind_ok hok
  obtain ⟨_, s2, hloop, -⟩ := of_bind_ok hcyc
  have hl := length_dstBufs memAddr n bufSize
  have hslots := slots_of_writeCycLoopMem (by rw [hl]; omega) hloop
  rw [hl] at hslots
  exact fun j hj => hslots j (Nat.zero_le j) (by omega)

variable (pad o)

/-- **The loop on bytes refines the loop on the array**, and leaves the bytes outside its slots
alone. -/
theorem writeCycLoopMem_ok (hf : slotSize < fuel) {dsts : List UioRegion} {i : Nat}
    (hi : i + dsts.length ≤ 1024) (hslots : ∀ j, i ≤ j → j < i + dsts.length → Slot h j)
    (s : HwState) {descs : Nat → S2mmDesc} (hd : ∀ j < 1024, descAt s.mem j = descs j) :
    ∃ s', writeCycLoopMem h fuel pad o i dsts s = .ok () s' ∧
      (∀ j < 1024, descAt s'.mem j = writeCycLoop o i dsts descs j) ∧
      ∀ x, (∀ j, i ≤ j → j < i + dsts.length → ¬ InSlot j x) → s'.mem x = s.mem x := by
  induction dsts generalizing i s descs with
  | nil => exact ⟨s, rfl, hd, fun x _ => rfl⟩
  | cons dst dsts ih =>
    rw [List.length_cons] at hi hslots
    obtain ⟨s1, hwr, hm⟩ := wr_slot (hslots i (le_refl i) (by omega)) (by omega) hf (pad i)
      (o.cycDesc i dst) s
    -- one iteration: the slot of the array is updated
    have hd1 : ∀ j < 1024, descAt s1.mem j = Function.update descs i (o.cycDesc i dst) j := by
      intro j hj
      rw [hm, descAt_store s.mem (by omega) hj]
      by_cases hji : j = i
      · rw [hji, Function.update_self, Function.update_self]
      · rw [Function.update_of_ne hji, Function.update_of_ne hji]
        exact hd j hj
    obtain ⟨s2, hrest, hd2, hframe⟩ := ih (i := i+1) (by omega)
      (fun j h1 h2 => hslots j (by omega) (by omega)) s1 hd1
    refine ⟨s2, ?_, hd2, ?_⟩
    · rw [writeCycLoopMem, bind_ok hwr]
      exact hrest
    · intro x hx
      rw [List.length_cons] at hx
      rw [hframe x fun j h1 h2 => hx j (by omega) (by omega), hm]
      exact store_desc_of_not_inSlot s.mem (by omega) (hx i (le_refl i) (by omega)) _ _

theorem writeCycModeMem_ok (hf : slotSize < fuel) {dstBufs : List UioRegion}
    (hl : dstBufs.length ≤ 1024) (hslots : ∀ j < dstBufs.length, Slot h j) (s : HwState) :
    ∃ s', writeCycModeMem h fuel pad o dstBufs s
      = .ok (writeCycMode o (descAt s.mem) dstBufs).1 s' ∧
      (∀ j < 1024, descAt s'.mem j = (writeCycMode o (descAt s.mem) dstBufs).2 j) ∧
      ∀ x, (∀ j < dstBufs.length, ¬ InSlot j x) → s'.mem x = s.mem x := by
  obtain ⟨s', hok, hd, hframe⟩ := writeCycLoopMem_ok pad
    { o with nrCycDesc := dstBufs.length, nextReadableBuf := 0 } hf (i := 0)
    (by rw [Nat.zero_add]; exact hl) (fun j _ hj => hslots j (by omega)) s fun _ _ => rfl
  refine ⟨s', ?_, hd, fun x hx => hframe x fun j _ hj => hx j (by omega)⟩
  unfold writeCycModeMem
  rw [bind_ok hok]
  rfl

/-- **`init_buffers` on bytes refines `init_buffers` on the array.** -/
theorem initBuffersMem_ok (hf : slotSize < fuel) (memAddr : BitVec 64) {n : Nat} (bufSize : Nat)
    (hn : n ≤ 1024) (hslots : ∀ j < n, Slot h j) (s : HwState) :
    ∃ s', initBuffersMem h fuel pad o memAddr n bufSize s
        = .ok (initBuffers o (descAt s.mem) memAddr n bufSize).1 s' ∧
      (∀ j < 1024, descAt s'.mem j = (initBuffers o (descAt s.mem) memAddr n bufSize).2 j) ∧
      ∀ x, (∀ j < n, ¬ InSlot j x) → s'.mem x = s.mem x := by
  have hl := length_dstBufs memAddr n bufSize
  obtain ⟨s', hok, hd, hframe⟩ := writeCycModeMem_ok pad
    { o with memAddr := memAddr, bufAddrs := (List.range n).map (bufAddrOf memAddr bufSize) } hf
    (by rw [hl]; exact hn) (fun j hj => hslots j (by rwa [hl] at hj)) s
  refine ⟨s', ?_, hd, fun x hx => hframe x fun j hj => hx j (by rwa [hl] at hj)⟩
  unfold initBuffersMem
  rw [bind_ok hok]
  rfl

variable {pad o}

/-- what is known of a call that has returned -/
theorem of_initBuffersMem_ok (hf : slotSize < fuel) {memAddr : BitVec 64} {n bufSize : Nat}
    (hn : n ≤ 1024) {s s' : HwState} {o' : UioMemSgdma}
    (hok : initBuffersMem h fuel pad o memAddr n bufSize s = .ok o' s') :
    o' = (initBuffers o (descAt s.mem) memAddr n bufSize).1 ∧
      (∀ j < 1024, descAt s'.mem j = (initBuffers o (descAt s.mem) memAddr n bufSize).2 j) ∧
      ∀ x, (∀ j < n, ¬ InSlot j x) → s'.mem x = s.mem x := by
  obtain ⟨s1, hok1, hd, hframe⟩ := initBuffersMem_ok pad o hf memAddr bufSize hn
    (slots_of_initBuffersMem hn hok) s
  rw [hok] at hok1
  injection hok1 with e1 e2
  subst e2
  exact ⟨e1, hd, hframe⟩

end

/-! ## the ring -/

/-- where the next pointer of the descriptor at the physical address `a` leads; descriptor memory
starts at `base` -/
def nextDesc (base : BitVec 64) (m : BitVec 64 → UInt8) (a : BitVec 64) : BitVec 64 :=
  (S2mmDesc.ofBytes (load m (a - base) slotSize)).nxtdesc

/-- one closed ring of `n` buffers of `bufSize` bytes, written to the memory `s` -/
structure ClosedRing (h : HwAccessor) (fuel : Nat) (base memAddr : BitVec 64) (n bufSize : Nat)
    (s : HwState) (o' : UioMemSgdma) (s' : HwState) : Prop where
  descs : ∀ i < n, ∃ d, HwAccessor.Reads (descriptors.rd h fuel (BitVec.ofNat 32 i)) s' d ∧
    d.nxtdesc = base + BitVec.ofNat 64 ((i + 1) % n * 0x40) ∧
    d.bufferAddr = memAddr + BitVec.ofNat 64 (i * bufSize) ∧
    o'.bufAddrs[i]? = some d.bufferAddr ∧ d.status = S2mmDescStatus.zero
  visits : ∀ i < n, (nextDesc base s'.mem)^[i] base = base + BitVec.ofNat 64 (i * 0x40)
  once : ((List.range n).map fun i => (nextDesc base s'.mem)^[i] base).Nodup
  returns : (nextDesc base s'.mem)^[n] base = base
  next : o'.nextReadableBuf = 0
  addrs : o'.bufAddrs.length = n
  frame : ∀ x, (∀ i < n, ¬ (i * 0x40 ≤ x.toNat ∧ x.toNat < i * 0x40 + 0x38)) →
    s'.mem x = s.mem x

section
variable {o : UioMemSgdma} {n : Nat} {m : BitVec 64 → UInt8}

theorem nextDesc_descAddr (i : Nat) :
    nextDesc o.hwAddr m (o.descAddr i) = (descAt m i).nxtdesc := by
  unfold nextDesc descAt descAddr getFirstDescAddr
  rw [BitVec.add_comm, BitVec.add_sub_cancel]

theorem descAddr_inj {i j : Nat} (hi : i < 1024) (hj : j < 1024) (e : o.descAddr i = o.descAddr j) :
    i = j := by
  have h := congrArg BitVec.toNat (BitVec.add_right_inj _ |>.mp e)
  rw [BitVec.toNat_ofNat, BitVec.toNat_ofNat] at h
  unfold descAddrStep at h
  omega

/-- following the next pointers -/
theorem iterate_nextDesc (hn : 0 < n)
    (hnext : ∀ i < n, (descAt m i).nxtdesc = o.descAddr ((i + 1) % n)) (k : Nat) :
    (nextDesc o.hwAddr m)^[k] o.hwAddr = o.descAddr (k % n) := by
  have h0 : o.descAddr 0 = o.hwAddr := by
    unfold descAddr getFirstDescAddr
    rw [Nat.zero_mul]
    exact BitVec.add_zero _
  have hstep : ∀ i < n, nextDesc o.hwAddr m (o.descAddr i) = o.descAddr ((i + 1) % n) := by
    intro i hi
    rw [nextDesc_descAddr, hnext i hi]
  have h := iterate_ring hn hstep k
  rwa [h0] at h

end

theorem closedRing_of_slots {h : HwAccessor} {fuel : Nat} (hf : slotSize < fuel)
    {o : UioMemSgdma} {memAddr : BitVec 64} {n bufSize : Nat} (hn : 0 < n) (hn' : n ≤ 1024)
    (hslots : ∀ j < n, Slot h j) {s s' : HwState}
    (hd : ∀ j < 1024, descAt s'.mem j = (initBuffers o (descAt s.mem) memAddr n bufSize).2 j)
    (hframe : ∀ x, (∀ j < n, ¬ InSlot j x) → s'.mem x = s.mem x) :
    ClosedRing h fuel o.hwAddr memAddr n bufSize s
      (initBuffers o (descAt s.mem) memAddr n bufSize).1 s' := by
  have hnext : ∀ i < n, (descAt s'.mem i).nxtdesc = o.descAddr ((i + 1) % n) := by
    intro i hi
    rw [hd i (by omega), initBuffers_nxtdesc o _ memAddr n bufSize hi]
  have hvisit : ∀ i < n, (nextDesc o.hwAddr s'.mem)^[i] o.hwAddr = o.descAddr i := by
    intro i hi
    rw [iterate_nextDesc hn hnext, Nat.mod_eq_of_lt hi]
  refine ⟨?_, hvisit, ?_, ?_, rfl, ?_, hframe⟩
  · intro i hi
    refine ⟨descAt s'.mem i, rd_slot (hslots i hi) (by omega) hf s', hnext i hi, ?_⟩
    have hba := initBuffers_bufferAddr o (descAt s.mem) memAddr n bufSize hi
    have hst := initBuffers_status o (descAt s.mem) memAddr n bufSize hi
    rw [hd i (by omega)]
    refine ⟨hba, ?_, hst⟩
    rw [hba]
    show ((List.range n).map (bufAddrOf memAddr bufSize))[i]? = _
    rw [List.getElem?_map, List.getElem?_range hi]
    rfl
  · refine List.Nodup.map_on ?_ List.nodup_range
    intro i hi j hj e
    rw [List.mem_range] at hi hj
    rw [hvisit i hi, hvisit j hj] at e
    exact descAddr_inj (by omega) (by omega) e
  · rw [iterate_nextDesc hn hnext, Nat.mod_self, ← hvisit 0 hn]
    rfl
  · show ((List.range n).map (bufAddrOf memAddr bufSize)).length = n
    rw [List.length_map, List.length_range]

section
variable (h : HwAccessor) {fuel : Nat} (hf : slotSize < fuel) (pad : Nat → BitVec 32)
  (o : UioMemSgdma) (memAddr : BitVec 64) {n : Nat} (bufSize : Nat) (s : HwState)
include hf

/-- **`init_buffers` builds one closed ring**; it returns if the slots are in descriptor memory. -/
theorem initBuffers_ring (hn : 0 < n) (hn' : n ≤ 1024) :
    ((n - 1) * 0x40 + 0x38 ≤ h.size →
      ∃ o' s', initBuffersMem h fuel pad o memAddr n bufSize s = .ok o' s') ∧
    ∀ o' s', initBuffersMem h fuel pad o memAddr n bufSize s = .ok o' s' →
      ClosedRing h fuel o.hwAddr memAddr n bufSize s o' s' := by
  constructor
  · intro hmem
    have hslots : ∀ j < n, Slot h j := fun j hj => slot_of_le (by omega) (by
      unfold descAddrStep slotSize
      omega)
    obtain ⟨s', hok, -⟩ := initBuffersMem_ok pad o hf memAddr bufSize hn' hslots s
    exact ⟨_, s', hok⟩
  · intro o' s' hok
    obtain ⟨rfl, hd, hframe⟩ := of_initBuffersMem_ok hf hn' hok
    exact closedRing_of_slots hf hn hn' (slots_of_initBuffersMem hn' hok) hd hframe

end

/-- two buffers, with descriptor memory of just the size of the two descriptors and full of old
data -/
theorem initBuffers_ring_two : ∃ o' s',
    initBuffersMem (.mock 0x78) 57 (fun _ => 0) ⟨0x40000000, 0, 0, 0, [], 0⟩ 0x80000000 2 4096
      ⟨fun _ => 0xff, []⟩ = .ok o' s' ∧
    ClosedRing (.mock 0x78) 57 0x40000000 0x80000000 2 4096 ⟨fun _ => 0xff, []⟩ o' s' := by
  have hf : slotSize < 57 := by decide
  have hring := initBuffers_ring (.mock 0x78) hf (fun _ => 0)
    ⟨0x40000000, 0, 0, 0, [], 0⟩ 0x80000000
    (n := 2) 4096 ⟨fun _ => 0xff, []⟩ (by decide) (by decide)
  obtain ⟨o', s', hok⟩ := hring.1 (by decide)
  exact ⟨o', s', hok, hring.2 o' s' hok⟩

/-! ## the length field -/

theorem initBuffers_bufferLen (o : UioMemSgdma) (descs : Nat → S2mmDesc) (memAddr : BitVec 64)
    {n d : Nat} (bufSize : Nat) (hd : d < n) :
    ((initBuffers o descs memAddr n bufSize).2 d).control.bufferLen.toNat = bufSize % 2^26 := by
  rw [initBuffers_desc, if_pos hd]
  show ((BitVec.ofNat 32 bufSize).setWidth 26).toNat = _
  rw [BitVec.toNat_setWidth, BitVec.toNat_ofNat]
  omega

section
variable {h : HwAccessor} {fuel : Nat} (hf : slotSize < fuel) {pad : Nat → BitVec 32}
  {o o' : UioMemSgdma} {memAddr : BitVec 64} {n bufSize : Nat} {s s' : HwState}
include hf

/-- what is read back of the length -/
theorem rd_bufferLen (hn : n ≤ 1024)
    (hok : initBuffersMem h fuel pad o memAddr n bufSize s = .ok o' s') {i : Nat} (hi : i < n) :
    ∃ d, HwAccessor.Reads (descriptors.rd h fuel (BitVec.ofNat 32 i)) s' d ∧
      d.control.bufferLen.toNat = bufSize % 2^26 := by
  obtain ⟨-, hd, -⟩ := of_initBuffersMem_ok hf hn hok
  have hs := slots_of_initBuffersMem hn hok i hi
  refine ⟨descAt s'.mem i, rd_slot hs (by omega) hf s', ?_⟩
  rw [hd i (by omega)]
  exact initBuffers_bufferLen o _ memAddr bufSize hi

/-- **Which sizes the length field holds.** -/
theorem buffer_len_iff (hn : 0 < n) (hn' : n ≤ 1024) (hpos : 0 < bufSize)
    (hok : initBuffersMem h fuel pad o memAddr n bufSize s = .ok o' s') :
    (∀ i < n, ∃ d, HwAccessor.Reads (descriptors.rd h fuel (BitVec.ofNat 32 i)) s' d ∧
      d.control.bufferLen.toNat = bufSize ∧ d.control.bufferLen ≠ 0) ↔ bufSize < 2^26 := by
  constructor
  · intro hall
    obtain ⟨d, -, hlen, -⟩ := hall 0 hn
    rw [← hlen]
    exact d.control.bufferLen.isLt
  · intro hlt i hi
    obtain ⟨d, hrd, hlen⟩ := rd_bufferLen hf hn' hok hi
    rw [Nat.mod_eq_of_lt hlt] at hlen
    refine ⟨d, hrd, hlen, fun h0 => ?_⟩
    rw [h0] at hlen
    exact absurd hlen (Nat.ne_of_lt hpos)

end

/-- the largest length -/
theorem buffer_len_iff_largest : ∃ o' s',
    initBuffersMem (.axi 0x78) 57 (fun _ => 0) ⟨0, 0, 0, 0, [], 0⟩ 0 2 (2^26 - 1) ⟨fun _ => 0, []⟩
      = .ok o' s' ∧
    ∀ i < 2, ∃ d, HwAccessor.Reads (descriptors.rd (.axi 0x78) 57 (BitVec.ofNat 32 i)) s' d ∧
      d.control.bufferLen.toNat = 2^26 - 1 ∧ d.control.bufferLen ≠ 0 := by
  have hf : slotSize < 57 := by decide
  obtain ⟨s', hok, -⟩ := initBuffersMem_ok (h := .axi 0x78) (fun _ => 0) ⟨0, 0, 0, 0, [], 0⟩ hf 0
    (n := 2) (2^26 - 1) (by decide)
    (fun j hj => slot_of_le (by omega) (by
      show j * 0x40 + 0x38 ≤ 0x78
      omega)) ⟨fun _ => 0, []⟩
  exact ⟨_, s', hok, (buffer_len_iff hf (by decide) (by decide) (by decide) hok).mpr
    (by decide)⟩

/-- a buffer of 64 MiB gets length 0 -/
theorem buffer_len_lost : ∃ o' s' d,
    initBuffersMem (.axi 0x38) 57 (fun _ => 0) ⟨0, 0, 0, 0, [], 0⟩ 0 1 (2^26) ⟨fun _ => 0, []⟩
      = .ok o' s' ∧
    HwAccessor.Reads (descriptors.rd (.axi 0x38) 57 (BitVec.ofNat 32 0)) s' d ∧
    d.control.bufferLen.toNat = 0 := by
  have hf : slotSize < 57 := by decide
  obtain ⟨s', hok, -⟩ := initBuffersMem_ok (h := .axi 0x38) (fun _ => 0) ⟨0, 0, 0, 0, [], 0⟩ hf 0
    (n := 1) (2^26) (by decide)
    (fun j hj => slot_of_le (by omega) (by
      show j * 0x40 + 0x38 ≤ 0x38
      omega)) ⟨fun _ => 0, []⟩
  obtain ⟨d, hrd, hlen⟩ := rd_bufferLen hf (by decide) hok (i := 0) (by decide)
  exact ⟨_, s', d, hok, hrd, hlen⟩

end UioMemSgdma

end Udmaio
