import Mathlib.Data.BitVec

/-!
# Registers of the AXI DMA core (S2MM channel)

The register types of `inc/udmaio/rdl/AxiDma.hpp` that `UioAxiDmaIf` uses, field by field.  A field
that an initialiser of the source leaves out is zero, as in C++.

* `S2mmDmasr.w1c`             the write-1-to-clear bits of the status register;
* `clearIntValue`             what `clear_interrupt` writes to it;
* `checkForErrors`            `check_for_errors`.

MM2S registers, `sg_ctl`, `s2mm_da` and `s2mm_length` are not used by the library.
-/

namespace Udmaio

structure S2mmDmacr where
  rs : Bool := false
  rsvd_1_1 : Bool := false
  reset : Bool := false
  keyhole : Bool := false
  cyclicBdEnable : Bool := false
  rsvd_11_5 : BitVec 7 := 0
  iocIrqEn : Bool := false
  dlyIrqEn : Bool := false
  errIrqEn : Bool := false
  rsvd_15_15 : Bool := false
  irqThreshold : BitVec 8 := 0
  irqDelay : BitVec 8 := 0
deriving DecidableEq, Repr

structure S2mmDmasr where
  halted : Bool := false
  idle : Bool := false
  rsvd_2_2 : Bool := false
  sgIncld : Bool := false
  dmaIntErr : Bool := false
  dmaSlvErr : Bool := false
  dmaDecErr : Bool := false
  rsvd_7_7 : Bool := false
  sgIntErr : Bool := false
  sgSlvErr : Bool := false
  sgDecErr : Bool := false
  rsvd_11_11 : Bool := false
  iocIrq : Bool := false
  dlyIrq : Bool := false
  errIrq : Bool := false
  rsvd_15_15 : Bool := false
  irqThresholdSts : BitVec 8 := 0
  irqDelaySts : BitVec 8 := 0
deriving DecidableEq, Repr

structure S2mmCurdesc where
  rsvd_5_0 : BitVec 6 := 0
  currentDescriptorPointer : BitVec 26
deriving DecidableEq, Repr

structure S2mmTaildesc where
  rsvd_5_0 : BitVec 6 := 0
  tailDescriptorPointer : BitVec 26
deriving DecidableEq, Repr

/-! ## the status register -/

/-- a write to the status register: a 1 clears an interrupt bit, all other bits are read-only -/
def S2mmDmasr.w1c (sr v : S2mmDmasr) : S2mmDmasr :=
  { sr with
    iocIrq := sr.iocIrq && !v.iocIrq
    dlyIrq := sr.dlyIrq && !v.dlyIrq
    errIrq := sr.errIrq && !v.errIrq }

/-- what `clear_interrupt` writes after it has read `stat` -/
def clearIntValue (stat : S2mmDmasr) : S2mmDmasr := { iocIrq := stat.iocIrq, errIrq := stat.errIrq }

def checkForErrors (sr : S2mmDmasr) : Bool :=
  sr.dmaIntErr || sr.dmaSlvErr || sr.dmaDecErr || sr.sgIntErr || sr.sgSlvErr || sr.sgDecErr

/-- exactly the interrupt bits that were read as 1 are cleared -/
theorem w1c_clearIntValue (sr stat : S2mmDmasr) :
    sr.w1c (clearIntValue stat) =
      { sr with iocIrq := sr.iocIrq && !stat.iocIrq, errIrq := sr.errIrq && !stat.errIrq } := by
  simp [S2mmDmasr.w1c, clearIntValue]

end Udmaio
