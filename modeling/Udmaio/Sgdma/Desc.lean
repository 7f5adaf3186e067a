import Udmaio.Lib.Bytes

/-!
# The descriptor ring of `UioMemSgdma`

The layout of an S2MM descriptor (`inc/udmaio/UioMemSgdma.hpp`) and the two functions that write
the ring, `write_cyc_mode` and `init_buffers` (`src/UioMemSgdma.cpp`).

* `S2mmDesc`          one descriptor; descriptor memory is seen as the array `Nat → S2mmDesc` that
                      the accessors `descriptors` and `desc_statuses` read and write;
* `UioMemSgdma`       the members of the object;
* `initBuffers`       the members and the descriptor memory after `init_buffers`;
* `copyFromBuf`       `copy_from_buf` of a mapped buffer memory: the physical address is turned
                      back into an offset of the mapping.

`initBuffers_desc` and `initBuffers_bufAddr` say what the ring looks like afterwards; logging and
the capacity reserved for result vectors are left out.
-/

namespace Udmaio
open Lib

structure UioRegion where
  addr : BitVec 64
  size : Nat
deriving DecidableEq, Repr

/-! ## descriptors -/

structure S2mmDescControl where
  bufferLen : BitVec 26
  rxeof : Bool
  rxsof : Bool
  rsvd : BitVec 4
deriving DecidableEq, Repr

/-- the status word, written by the engine on completion and written back by `read_buffers` -/
structure S2mmDescStatus where
  numStoredBytes : BitVec 26
  rxeof : Bool
  rxsof : Bool
  dmainterr : Bool
  dmaslverr : Bool
  dmadecerr : Bool
  cmplt : Bool
deriving DecidableEq, Repr

def S2mmDescStatus.zero : S2mmDescStatus := ⟨0, false, false, false, false, false, false⟩

structure S2mmDesc where
  nxtdesc : BitVec 64
  bufferAddr : BitVec 64
  rsvd0x10 : BitVec 32
  rsvd0x14 : BitVec 32
  control : S2mmDescControl
  status : S2mmDescStatus
  app : Vector (BitVec 32) 5
deriving DecidableEq, Repr

def noDescs : Nat → S2mmDesc :=
  fun _ => ⟨0, 0, 0, 0, ⟨0, false, false, 0⟩, S2mmDescStatus.zero, Vector.replicate 5 0⟩

def descAddrStep : Nat := 0x40

/-- the members of `UioMemSgdma`, with the start of the two memories it uses: descriptor memory
(`_hw`) and buffer memory (`_mem`) -/
structure UioMemSgdma where
  hwAddr : BitVec 64
  memAddr : BitVec 64
  nrCycDesc : Nat
  nextReadableBuf : Nat
  bufAddrs : List (BitVec 64)
  bufSize : Nat
deriving DecidableEq, Repr

namespace UioMemSgdma

def getFirstDescAddr (o : UioMemSgdma) : BitVec 64 := o.hwAddr

def descAddr (o : UioMemSgdma) (i : Nat) : BitVec 64 :=
  o.getFirstDescAddr + BitVec.ofNat 64 (i * descAddrStep)

/-! ## writing the ring -/

/-- the descriptor that `write_cyc_mode` writes for the buffer `dst` at index `i` -/
def cycDesc (o : UioMemSgdma) (i : Nat) (dst : UioRegion) : S2mmDesc where
  nxtdesc := o.getFirstDescAddr + BitVec.ofNat 64 ((i + 1) % o.nrCycDesc * descAddrStep)
  bufferAddr := dst.addr
  rsvd0x10 := 0
  rsvd0x14 := 0
  control :=
    { bufferLen := (BitVec.ofNat 32 dst.size).setWidth 26, rxeof := false, rxsof := false,
      rsvd := 0 }
  status := S2mmDescStatus.zero
  app := Vector.replicate 5 0

def writeCycLoop (o : UioMemSgdma) : Nat → List UioRegion → (Nat → S2mmDesc) → Nat → S2mmDesc
  | _, [], descs => descs
  | i, dst :: dsts, descs => writeCycLoop o (i+1) dsts (Function.update descs i (o.cycDesc i dst))

def writeCycMode (o : UioMemSgdma) (descs : Nat → S2mmDesc) (dstBufs : List UioRegion) :
    UioMemSgdma × (Nat → S2mmDesc) :=
  let o' := { o with nrCycDesc := dstBufs.length, nextReadableBuf := 0 }
  (o', writeCycLoop o' 0 dstBufs descs)

/-- address of buffer `i`: `mem->get_phys_region().addr + i * buf_size` -/
def bufAddrOf (memAddr : BitVec 64) (bufSize i : Nat) : BitVec 64 :=
  memAddr + BitVec.ofNat 64 (i * bufSize)

/-- `init_buffers(mem, num_buffers, buf_size)`; `memAddr` is the start of `mem` -/
def initBuffers (o : UioMemSgdma) (descs : Nat → S2mmDesc) (memAddr : BitVec 64)
    (numBuffers bufSize : Nat) : UioMemSgdma × (Nat → S2mmDesc) :=
  let addrs := (List.range numBuffers).map (bufAddrOf memAddr bufSize)
  let dstBufs := addrs.map fun a => (⟨a, bufSize⟩ : UioRegion)
  let r := writeCycMode { o with memAddr := memAddr, bufAddrs := addrs } descs dstBufs
  ({ r.1 with bufSize := bufSize }, r.2)

theorem writeCycLoop_apply (o : UioMemSgdma) (dsts : List UioRegion) (i : Nat)
    (descs : Nat → S2mmDesc) (d : Nat) :
    writeCycLoop o i dsts descs d
      = if h : i ≤ d ∧ d - i < dsts.length then o.cycDesc d dsts[d - i] else descs d := by
  induction dsts generalizing i descs with
  | nil => simp [writeCycLoop]
  | cons dst dsts ih =>
    rw [writeCycLoop, ih]
    rcases Nat.lt_trichotomy d i with h | h | h
    · rw [dif_neg (by omega), dif_neg (by omega), Function.update_of_ne (by omega)]
    · subst h
      rw [dif_neg (by omega), Function.update_self, dif_pos (by simp)]
      simp
    · by_cases hl : d - (i + 1) < dsts.length
      · rw [dif_pos ⟨h, hl⟩, dif_pos ⟨h.le, by rw [List.length_cons]; omega⟩]
        congr 1
        rw [List.getElem_cons, dif_neg (by omega)]
        congr 1
      · rw [dif_neg (fun hc => hl hc.2), dif_neg (fun hc => ?_), Function.update_of_ne (by omega)]
        rw [List.length_cons] at hc
        omega

section
variable (o : UioMemSgdma) (descs : Nat → S2mmDesc) (memAddr : BitVec 64) (n bufSize : Nat)

/-- **The ring after `init_buffers`**: next pointer, buffer and length of every descriptor, and an
all-zero status; descriptor memory beyond the ring is untouched. -/
theorem initBuffers_desc (d : Nat) :
    (initBuffers o descs memAddr n bufSize).2 d
      = if d < n then
          (initBuffers o descs memAddr n bufSize).1.cycDesc d ⟨bufAddrOf memAddr bufSize d, bufSize⟩
        else descs d := by
  show writeCycLoop _ 0 _ descs d = _
  rw [writeCycLoop_apply]
  by_cases h : d < n
  · rw [if_pos h, dif_pos ⟨Nat.zero_le d, by simpa using h⟩]
    simp only [List.getElem_map, List.getElem_range, Nat.sub_zero]
    rfl
  · rw [if_neg h, dif_neg (by simpa using h)]

theorem initBuffers_nrCycDesc : (initBuffers o descs memAddr n bufSize).1.nrCycDesc = n := by
  simp [initBuffers, writeCycMode]

theorem initBuffers_bufAddr {d : Nat} (h : d < n) :
    (initBuffers o descs memAddr n bufSize).1.bufAddrs.getD d 0 = bufAddrOf memAddr bufSize d := by
  simp [initBuffers, writeCycMode, h]

theorem initBuffers_status {d : Nat} (h : d < n) :
    ((initBuffers o descs memAddr n bufSize).2 d).status = S2mmDescStatus.zero := by
  rw [initBuffers_desc, if_pos h]
  rfl

theorem initBuffers_bufferAddr {d : Nat} (h : d < n) :
    ((initBuffers o descs memAddr n bufSize).2 d).bufferAddr = bufAddrOf memAddr bufSize d := by
  rw [initBuffers_desc, if_pos h]
  rfl

/-- the next pointer of a ring descriptor is the address of the next ring descriptor -/
theorem initBuffers_nxtdesc {d : Nat} (h : d < n) :
    ((initBuffers o descs memAddr n bufSize).2 d).nxtdesc = o.descAddr ((d + 1) % n) := by
  rw [initBuffers_desc, if_pos h]
  show _ + BitVec.ofNat 64 ((d + 1) % (initBuffers o descs memAddr n bufSize).1.nrCycDesc * _) = _
  rw [initBuffers_nrCycDesc]
  rfl

end

end UioMemSgdma

/-! ## buffer memory -/

/-- `copy_from_buf` of a mapped memory (`FpgaMemBufferOverAxi`, `UDmaBuf`): the bytes at the offset
`buf_info.addr - phys.addr` of the mapping -/
def copyFromBuf (memAddr : BitVec 64) (phys : BitVec 64 → UInt8) (r : UioRegion) : List UInt8 :=
  let mmapAddr := r.addr - memAddr
  load phys (memAddr + mmapAddr) r.size

def appendFromBuf (memAddr : BitVec 64) (phys : BitVec 64 → UInt8) (r : UioRegion)
    (out : List UInt8) : List UInt8 :=
  out ++ copyFromBuf memAddr phys r

/-- the offset of the mapping leads back to the physical address -/
theorem copyFromBuf_eq (memAddr : BitVec 64) (phys : BitVec 64 → UInt8) (r : UioRegion) :
    copyFromBuf memAddr phys r = load phys r.addr r.size := by
  show load phys (memAddr + (r.addr - memAddr)) r.size = _
  rw [add_sub_cancel]

end Udmaio
