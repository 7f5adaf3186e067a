import Udmaio.Dma.Regs
import Udmaio.Sgdma.Desc

/-!
# Starting the DMA controller

`UioAxiDmaIf::start` asks for a soft reset and then programs the controller, with no wait in
between.  The reset runs in the hardware: `DMACR.reset` reads 1 until the step `resetDone`, which
puts all registers in their reset state.

* `DmaHw`               the registers, the reset in progress, and the log of the writes to DMACR;
* `DmaHw.tick`          the hardware between two accesses: `sched k` says that the reset is done
                        right before access `k`, if one is in progress;
* `DmaHw.start`         `start`, access by access;
* `restarts_iff`        **the controller is started exactly when the reset is done before CURDESC is
                        written**, up to register values that are those of the reset state;
* `tail_outside_iff`    when the tail pointer misses the ring that `init_buffers` has written;
* `curr_desc_round_trip`   `get_curr_desc` reads the descriptor pointer back.
-/

namespace Udmaio

/-! ## the register file -/

structure DmaRegs where
  dmacr : S2mmDmacr
  dmasr : S2mmDmasr
  curdesc : S2mmCurdesc
  curdescMsb : BitVec 32
  taildesc : S2mmTaildesc
  taildescMsb : BitVec 32
deriving DecidableEq, Repr

structure DmaHw where
  regs : DmaRegs
  resetting : Bool
  crWrites : List S2mmDmacr
deriving DecidableEq, Repr

namespace DmaHw

def rdDmacr (hw : DmaHw) : S2mmDmacr := { hw.regs.dmacr with reset := hw.resetting }

/-- a 1 in `reset` starts a reset, a 0 does not end one -/
def wrDmacr (hw : DmaHw) (v : S2mmDmacr) : DmaHw where
  regs := { hw.regs with dmacr := v }
  resetting := hw.resetting || v.reset
  crWrites := hw.crWrites ++ [v]

def wrCurdesc (hw : DmaHw) (v : S2mmCurdesc) : DmaHw :=
  { hw with regs := { hw.regs with curdesc := v } }

def wrCurdescMsb (hw : DmaHw) (v : BitVec 32) : DmaHw :=
  { hw with regs := { hw.regs with curdescMsb := v } }

def wrTaildesc (hw : DmaHw) (v : S2mmTaildesc) : DmaHw :=
  { hw with regs := { hw.regs with taildesc := v } }

def wrTaildescMsb (hw : DmaHw) (v : BitVec 32) : DmaHw :=
  { hw with regs := { hw.regs with taildescMsb := v } }

/-- the hardware step "reset done"; `rst` is the reset state of the registers -/
def resetDone (rst : DmaRegs) (hw : DmaHw) : DmaHw :=
  if hw.resetting then { hw with regs := rst, resetting := false } else hw

def tick (rst : DmaRegs) (sched : Nat → Bool) (k : Nat) (hw : DmaHw) : DmaHw :=
  if sched k then hw.resetDone rst else hw

/-! ## `start` -/

/-- `static_cast<uint32_t>(start_desc) >> 6` in the 26-bit field -/
def ptrOf (startDesc : BitVec 64) : BitVec 26 := (startDesc.setWidth 32 >>> 6).setWidth 26

/-- `static_cast<uint32_t>(start_desc >> 32)` -/
def msbOf (startDesc : BitVec 64) : BitVec 32 := (startDesc >>> 32).setWidth 32

def runValue (ctrlReg : S2mmDmacr) : S2mmDmacr :=
  { ctrlReg with rs := true, cyclicBdEnable := false, iocIrqEn := true, errIrqEn := true }

/-- `UioAxiDmaIf::start`; `tick k` is what the hardware does right before access `k` -/
def start (tick : Nat → DmaHw → DmaHw) (startDesc : BitVec 64) (hw : DmaHw) : DmaHw :=
  let hw := (tick 0 hw).wrDmacr { reset := true }
  let hw := (tick 1 hw).wrCurdesc { currentDescriptorPointer := ptrOf startDesc }
  let hw := (tick 2 hw).wrCurdescMsb (msbOf startDesc)
  let hw := tick 3 hw
  let ctrlReg := runValue hw.rdDmacr
  let hw := (tick 4 hw).wrDmacr ctrlReg
  -- for circular
  let hw := (tick 5 hw).wrTaildesc { tailDescriptorPointer := BitVec.ofNat 26 (0x50 >>> 6) }
  let hw := (tick 6 hw).wrTaildescMsb (msbOf startDesc)
  -- the last access only reads DMACR for the log
  tick 7 hw

def getCurrDesc (hw : DmaHw) : BitVec 64 :=
  (hw.regs.curdesc.currentDescriptorPointer.setWidth 64 <<< 6) |||
    (hw.regs.curdescMsb.setWidth 64 <<< 32)

/-- `TAILDESC_MSB:TAILDESC` -/
def tailDesc (hw : DmaHw) : BitVec 64 :=
  BitVec.ofNat 64 (hw.regs.taildescMsb.toNat * 2^32
    + hw.regs.taildesc.tailDescriptorPointer.toNat * 64)

end DmaHw

/-! ## addresses in two registers -/

open DmaHw

theorem getCurrDesc_toNat (hw : DmaHw) : hw.getCurrDesc.toNat =
    hw.regs.curdescMsb.toNat * 2^32 + hw.regs.curdesc.currentDescriptorPointer.toNat * 64 := by
  have hm := hw.regs.curdescMsb.isLt
  have hp := hw.regs.curdesc.currentDescriptorPointer.isLt
  unfold getCurrDesc
  rw [BitVec.toNat_or, BitVec.toNat_shiftLeft, BitVec.toNat_shiftLeft, BitVec.toNat_setWidth,
    BitVec.toNat_setWidth, Nat.mod_eq_of_lt (show _ < 2^64 by omega),
    Nat.mod_eq_of_lt (show _ < 2^64 by omega), Nat.shiftLeft_eq, Nat.shiftLeft_eq,
    Nat.mod_eq_of_lt (by omega), Nat.mod_eq_of_lt (by omega), Nat.or_comm, ← Nat.shiftLeft_eq _ 32,
    ← Nat.shiftLeft_add_eq_or_of_lt (by omega), Nat.shiftLeft_eq]

theorem ptrOf_toNat (sd : BitVec 64) : (ptrOf sd).toNat = sd.toNat % 2^32 / 64 := by
  unfold ptrOf
  rw [BitVec.toNat_setWidth, BitVec.toNat_ushiftRight, BitVec.toNat_setWidth,
    Nat.shiftRight_eq_div_pow]
  omega

theorem msbOf_toNat (sd : BitVec 64) : (msbOf sd).toNat = sd.toNat / 2^32 := by
  have := sd.isLt
  unfold msbOf
  rw [BitVec.toNat_setWidth, BitVec.toNat_ushiftRight, Nat.shiftRight_eq_div_pow]
  omega

/-- the register pair holds an aligned address exactly when both registers hold their part -/
theorem getCurrDesc_eq_iff (hw : DmaHw) {sd : BitVec 64} (ha : sd.toNat % 64 = 0) :
    hw.getCurrDesc = sd ↔
      hw.regs.curdesc.currentDescriptorPointer = ptrOf sd ∧ hw.regs.curdescMsb = msbOf sd := by
  have hp := hw.regs.curdesc.currentDescriptorPointer.isLt
  rw [← BitVec.toNat_inj, ← BitVec.toNat_inj, ← BitVec.toNat_inj, getCurrDesc_toNat, ptrOf_toNat,
    msbOf_toNat]
  constructor
  · intro h
    constructor <;> omega
  · rintro ⟨h1, h2⟩
    omega

/-! ## the reset -/

theorem tick_of_idle {rst : DmaRegs} {sched : Nat → Bool} {k : Nat} {hw : DmaHw}
    (h : hw.resetting = false) : tick rst sched k hw = hw := by
  unfold tick resetDone
  rw [h, if_neg Bool.false_ne_true, ite_self]

theorem tick_of_not_sched {rst : DmaRegs} {sched : Nat → Bool} {k : Nat} {hw : DmaHw}
    (h : sched k = false) : tick rst sched k hw = hw := by
  unfold tick
  rw [h, if_neg Bool.false_ne_true]

theorem tick_done {rst : DmaRegs} {sched : Nat → Bool} {k : Nat} {hw : DmaHw}
    (h : sched k = true) (hr : hw.resetting = true) :
    tick rst sched k hw = { hw with regs := rst, resetting := false } := by
  unfold tick resetDone
  rw [if_pos h, if_pos hr]

theorem tick_crWrites (rst : DmaRegs) (sched : Nat → Bool) (k : Nat) (hw : DmaHw) :
    (tick rst sched k hw).crWrites = hw.crWrites := by
  unfold tick resetDone
  split
  · split <;> rfl
  · rfl

namespace DmaHw

/-- the accesses that program the descriptor pointer, from the reset request on -/
def program (tick : Nat → DmaHw → DmaHw) (startDesc : BitVec 64) (hw : DmaHw) : DmaHw :=
  let hw := (tick 0 hw).wrDmacr { reset := true }
  let hw := (tick 1 hw).wrCurdesc { currentDescriptorPointer := ptrOf startDesc }
  tick 3 ((tick 2 hw).wrCurdescMsb (msbOf startDesc))

/-- the accesses that follow, from the read of DMACR on -/
def go (tick : Nat → DmaHw → DmaHw) (startDesc : BitVec 64) (hw : DmaHw) : DmaHw :=
  let hw := (tick 5 ((tick 4 hw).wrDmacr (runValue hw.rdDmacr))).wrTaildesc
    { tailDescriptorPointer := BitVec.ofNat 26 (0x50 >>> 6) }
  tick 7 ((tick 6 hw).wrTaildescMsb (msbOf startDesc))

theorem start_eq (tick : Nat → DmaHw → DmaHw) (sd : BitVec 64) (hw : DmaHw) :
    start tick sd hw = go tick sd (program tick sd hw) := rfl

section
variable (rst : DmaRegs) (sched : Nat → Bool) (sd : BitVec 64)

/-- once the reset is done, `start` runs on to its end undisturbed -/
theorem go_of_idle {hw : DmaHw} (h : hw.resetting = false) :
    let hw' := go (DmaHw.tick rst sched) sd hw
    hw'.resetting = false ∧ hw'.rdDmacr.rs = true ∧ hw'.rdDmacr.iocIrqEn = true ∧
      hw'.rdDmacr.errIrqEn = true ∧ hw'.regs.curdesc = hw.regs.curdesc ∧
      hw'.regs.curdescMsb = hw.regs.curdescMsb ∧
      ∃ v, v.reset = false ∧ hw'.crWrites = hw.crWrites ++ [v] := by
  have hw4 : (hw.wrDmacr (runValue hw.rdDmacr)).resetting = false := by
    show (hw.resetting || hw.resetting) = false
    rw [h]
    rfl
  unfold go
  dsimp only
  rw [tick_of_idle h, tick_of_idle hw4, tick_of_idle (k := 6), tick_of_idle]
  · exact ⟨hw4, rfl, rfl, rfl, rfl, rfl, runValue hw.rdDmacr, h, rfl⟩
  all_goals exact hw4

/-- while the reset is in progress, the read-modify-write of DMACR writes `rs` and `reset` -/
theorem go_of_resetting {hw : DmaHw} (h : hw.resetting = true) :
    ∃ v ∈ (go (DmaHw.tick rst sched) sd hw).crWrites, v.rs = true ∧ v.reset = true := by
  unfold go
  simp only [tick_crWrites, wrTaildescMsb, wrTaildesc, wrDmacr]
  exact ⟨_, List.mem_append_right _ (List.mem_singleton_self _), rfl, h⟩

/-- what the four possible places of "reset done" leave in the descriptor pointer -/
theorem program_cases (hw : DmaHw) :
    let hw' := program (DmaHw.tick rst sched) sd hw
    hw'.crWrites = hw.crWrites ++ [{ reset := true }] ∧
      (if sched 1 then hw'.resetting = false ∧
          hw'.regs.curdesc.currentDescriptorPointer = ptrOf sd ∧ hw'.regs.curdescMsb = msbOf sd
        else if sched 2 then hw'.resetting = false ∧ hw'.regs.curdesc = rst.curdesc ∧
          hw'.regs.curdescMsb = msbOf sd
        else if sched 3 then hw'.resetting = false ∧ hw'.regs.curdesc = rst.curdesc ∧
          hw'.regs.curdescMsb = rst.curdescMsb
        else hw'.resetting = true) := by
  unfold program
  dsimp only
  refine ⟨by simp only [tick_crWrites, wrCurdescMsb, wrCurdesc, wrDmacr], ?_⟩
  generalize (DmaHw.tick rst sched 0 hw) = g
  have hr : (g.wrDmacr { reset := true }).resetting = true := Bool.or_true _
  split_ifs with h1 h2 h3
  · rw [tick_done h1 hr, tick_of_idle (k := 2) rfl, tick_of_idle (k := 3) rfl]
    exact ⟨rfl, rfl, rfl⟩
  · rw [tick_of_not_sched (k := 1) (by simpa using h1), tick_done h2, tick_of_idle (k := 3) rfl]
    · exact ⟨rfl, rfl, rfl⟩
    · exact hr
  · rw [tick_of_not_sched (k := 1) (by simpa using h1),
      tick_of_not_sched (k := 2) (by simpa using h2), tick_done h3]
    · exact ⟨rfl, rfl, rfl⟩
    · exact hr
  · rw [tick_of_not_sched (k := 1) (by simpa using h1),
      tick_of_not_sched (k := 2) (by simpa using h2),
      tick_of_not_sched (k := 3) (by simpa using h3)]
    exact hr

/-- the controller is started at `startDesc`, and no write to DMACR had both `rs` and `reset` -/
def Started (hw : DmaHw) : Prop :=
  hw.rdDmacr.rs = true ∧ hw.rdDmacr.iocIrqEn = true ∧ hw.rdDmacr.errIrqEn = true ∧
    hw.getCurrDesc = sd ∧ ∀ v ∈ hw.crWrites, ¬ (v.rs = true ∧ v.reset = true)

instance (hw : DmaHw) : Decidable (Started sd hw) :=
  inferInstanceAs (Decidable (_ ∧ _ ∧ _ ∧ _ ∧ _))

/-- **Restart under a slow reset.**  After `start`, once the reset is done, the controller is
started exactly when the reset was done right after the request; later it only does if the registers
that the reset overwrites have that value in their reset state anyway. -/
theorem restarts_iff (regs : DmaRegs) (resetting : Bool) (ha : sd.toNat % 64 = 0) :
    Started sd (resetDone rst (start (DmaHw.tick rst sched) sd ⟨regs, resetting, []⟩)) ↔
      sched 1 = true ∨
      sched 2 = true ∧ rst.curdesc.currentDescriptorPointer = ptrOf sd ∨
      sched 3 = true ∧ rst.curdesc.currentDescriptorPointer = ptrOf sd ∧
        rst.curdescMsb = msbOf sd := by
  rw [start_eq]
  obtain ⟨hlog, hcase⟩ := program_cases rst sched sd ⟨regs, resetting, []⟩
  generalize program (DmaHw.tick rst sched) sd ⟨regs, resetting, []⟩ = hw at hlog hcase
  cases hres : hw.resetting with
  | true =>
    obtain ⟨v, hv, hrs, hreset⟩ := go_of_resetting rst sched sd hres
    have hbad : ¬ Started sd (resetDone rst (go (DmaHw.tick rst sched) sd hw)) := by
      rintro ⟨-, -, -, -, hno⟩
      refine hno v ?_ ⟨hrs, hreset⟩
      unfold resetDone
      split <;> exact hv
    rw [iff_false_left hbad]
    rw [hres] at hcase
    split_ifs at hcase with h1 h2 h3
    · exact absurd hcase.1 (by simp)
    · exact absurd hcase.1 (by simp)
    · exact absurd hcase.1 (by simp)
    · simp [h1, h2, h3]
  | false =>
    obtain ⟨hidle, hrs, hioc, herr, hcur, hmsb, v, hv, hw'⟩ := go_of_idle rst sched sd hres
    generalize go (DmaHw.tick rst sched) sd hw = hw2 at *
    have hst : Started sd (resetDone rst hw2) ↔
        hw.regs.curdesc.currentDescriptorPointer = ptrOf sd ∧ hw.regs.curdescMsb = msbOf sd := by
      unfold resetDone
      rw [hidle, if_neg Bool.false_ne_true, ← hcur, ← hmsb, ← getCurrDesc_eq_iff hw2 ha]
      refine ⟨fun h => h.2.2.2.1, fun h => ⟨hrs, hioc, herr, h, ?_⟩⟩
      rw [hw', hlog]
      intro u hu
      rcases List.mem_append.mp hu with hu | hu
      · rw [List.nil_append, List.mem_singleton] at hu
        rw [hu]
        exact fun h => Bool.false_ne_true h.1
      · rw [List.mem_singleton.mp hu, hv]
        exact fun h => Bool.false_ne_true h.2
    rw [hst]
    split_ifs at hcase with h1 h2 h3
    · simp [h1, hcase]
    · rw [hcase.2.1, hcase.2.2]
      constructor
      · exact fun h => Or.inr (Or.inl ⟨h2, h.1⟩)
      · rintro (h | ⟨-, h⟩ | ⟨-, h, -⟩)
        · exact absurd h h1
        · exact ⟨h, rfl⟩
        · exact ⟨h, rfl⟩
    · simp [h1, h2, h3, hcase]
    · rw [hres] at hcase
      cases hcase

end

/-- a reset state: halted, threshold 1, everything else zero -/
def resetRegs : DmaRegs :=
  ⟨{ irqThreshold := 1 }, { halted := true, sgIncld := true }, { currentDescriptorPointer := 0 }, 0,
    { tailDescriptorPointer := 0 }, 0⟩

theorem restarts_fast_reset : Started 0xa0000040 (resetDone resetRegs
    (start (DmaHw.tick resetRegs (fun k => k == 1)) 0xa0000040 ⟨resetRegs, false, []⟩)) :=
  (restarts_iff resetRegs _ 0xa0000040 resetRegs false (by decide)).mpr (Or.inl rfl)

/-- with the reset done after `start` has returned nothing that it has programmed is left, and DMACR
was written with `rs` and `reset` -/
theorem restarts_slow_reset : ¬ Started 0xa0000040 (resetDone resetRegs
    (start (DmaHw.tick resetRegs (fun _ => false)) 0xa0000040 ⟨resetRegs, false, []⟩)) := by
  decide

/-! ## the tail pointer -/

/-- the tail pointer after `start`, if no reset is done after it is written -/
theorem start_tailDesc (rst : DmaRegs) (sched : Nat → Bool) (sd : BitVec 64) (hw : DmaHw)
    (h6 : sched 6 = false) (h7 : sched 7 = false) :
    (start (DmaHw.tick rst sched) sd hw).tailDesc.toNat = sd.toNat / 2^32 * 2^32 + 0x40 := by
  have := sd.isLt
  rw [start_eq]
  unfold go
  dsimp only
  rw [tick_of_not_sched h6, tick_of_not_sched h7]
  show (BitVec.ofNat 64 ((msbOf sd).toNat * 2^32 + 64)).toNat = _
  rw [msbOf_toNat, BitVec.toNat_ofNat]
  omega

/-- the tail pointer is no descriptor of the ring: neither the address of one nor a next-pointer -/
def TailOutside (hw : DmaHw) (o : UioMemSgdma) (descs : Nat → S2mmDesc) : Prop :=
  ∀ i < o.nrCycDesc, hw.tailDesc ≠ o.descAddr i ∧ hw.tailDesc ≠ (descs i).nxtdesc

instance (hw : DmaHw) (o : UioMemSgdma) (descs : Nat → S2mmDesc) :
    Decidable (hw.TailOutside o descs) :=
  inferInstanceAs (Decidable (∀ i < o.nrCycDesc, _ ∧ _))

/-- **The tail pointer misses the ring** that `init_buffers` has written exactly when neither the
first descriptor nor the second one has `0x40` as the low half of its address. -/
theorem tail_outside_iff (rst : DmaRegs) (sched : Nat → Bool) (hw : DmaHw) (o : UioMemSgdma)
    (descs : Nat → S2mmDesc) (memAddr : BitVec 64) {n : Nat} (bufSize : Nat) (hn : 1 ≤ n)
    (hn' : n ≤ 1024) (ha : o.getFirstDescAddr.toNat % 64 = 0) (h6 : sched 6 = false)
    (h7 : sched 7 = false) :
    (start (DmaHw.tick rst sched) o.getFirstDescAddr hw).TailOutside
        (o.initBuffers descs memAddr n bufSize).1 (o.initBuffers descs memAddr n bufSize).2 ↔
      ¬ (o.getFirstDescAddr.toNat % 2^32 = 0x40 ∨
        o.getFirstDescAddr.toNat % 2^32 = 0 ∧ 2 ≤ n) := by
  have hlt := o.getFirstDescAddr.isLt
  have key : ∀ i < n, (start (DmaHw.tick rst sched) o.getFirstDescAddr hw).tailDesc = o.descAddr i ↔
      o.getFirstDescAddr.toNat % 2^32 + i * 64 = 0x40 := by
    intro i hi
    unfold UioMemSgdma.descAddr descAddrStep
    rw [← BitVec.toNat_inj, start_tailDesc rst sched _ hw h6 h7, BitVec.toNat_add,
      BitVec.toNat_ofNat]
    omega
  unfold TailOutside
  rw [UioMemSgdma.initBuffers_nrCycDesc]
  constructor
  · rintro h (h0 | ⟨h0, h2⟩)
    · exact (h 0 (by omega)).1 ((key 0 (by omega)).mpr (by omega))
    · exact (h 1 (by omega)).1 ((key 1 (by omega)).mpr (by omega))
  · intro h i hi
    refine ⟨fun he => ?_, fun he => ?_⟩
    · have := (key i hi).mp he
      omega
    · rw [UioMemSgdma.initBuffers_nxtdesc o descs memAddr n bufSize hi] at he
      have := (key _ (Nat.mod_lt _ (by omega))).mp he
      have := Nat.mod_lt (i + 1) (show n > 0 by omega)
      omega

def descMem (base : BitVec 64) : UioMemSgdma := ⟨base, 0, 0, 0, [], 0⟩

theorem tail_outside_a0000000 :
    (start (DmaHw.tick resetRegs (fun k => k == 1)) 0xa0000000 ⟨resetRegs, false, []⟩).TailOutside
      ((descMem 0xa0000000).initBuffers noDescs 0x80000000 8 4).1
      ((descMem 0xa0000000).initBuffers noDescs 0x80000000 8 4).2 :=
  (tail_outside_iff resetRegs _ _ (descMem 0xa0000000) noDescs 0x80000000 4 (by decide) (by decide)
    (by decide) rfl rfl).mpr (by decide)

/-- a ring at `0x100000000`: the tail pointer is its second descriptor -/
theorem tail_inside_100000000 :
    ¬ (start (DmaHw.tick resetRegs (fun k => k == 1)) 0x100000000
        ⟨resetRegs, false, []⟩).TailOutside
      ((descMem 0x100000000).initBuffers noDescs 0x80000000 8 4).1
      ((descMem 0x100000000).initBuffers noDescs 0x80000000 8 4).2 := by
  decide

/-! ## reading the descriptor pointer back -/

/-- `start` with registers that hold what is written -/
theorem getCurrDesc_start (sd : BitVec 64) (hw : DmaHw) :
    (start (fun _ hw => hw) sd hw).getCurrDesc.toNat = sd.toNat / 64 * 64 := by
  rw [getCurrDesc_toNat]
  show (msbOf sd).toNat * 2^32 + (ptrOf sd).toNat * 64 = _
  rw [msbOf_toNat, ptrOf_toNat]
  omega

theorem toNat_clear_low_six (sd : BitVec 64) : (sd &&& ~~~0x3f#64).toNat = sd.toNat / 64 * 64 := by
  have hmask : sd &&& ~~~0x3f#64 = sd >>> 6 <<< 6 := by
    apply BitVec.eq_of_getLsbD_eq
    intro i hi
    rw [BitVec.getLsbD_and, BitVec.getLsbD_not, BitVec.getLsbD_shiftLeft,
      BitVec.getLsbD_ushiftRight]
    have hbit : (0x3f#64).getLsbD i = decide (i < 6) := by
      have : ∀ j < 64, (0x3f#64).getLsbD j = decide (j < 6) := by decide
      exact this i hi
    rcases Nat.lt_or_ge i 6 with h | h
    · rw [hbit, decide_eq_true h]
      simp
    · rw [hbit, decide_eq_false (Nat.not_lt.mpr h), Nat.add_sub_cancel' h]
      simp [hi]
  have := sd.isLt
  rw [hmask, BitVec.toNat_shiftLeft, BitVec.toNat_ushiftRight, Nat.shiftRight_eq_div_pow,
    Nat.shiftLeft_eq]
  omega

/-- descriptors of a ring that fits into the address space have different addresses -/
theorem descAddr_inj (o : UioMemSgdma) {n i j : Nat} (hn : n * descAddrStep ≤ 2^64) (hi : i < n)
    (hj : j < n) (h : o.descAddr i = o.descAddr j) : i = j := by
  unfold UioMemSgdma.descAddr descAddrStep at h
  unfold descAddrStep at hn
  have h' := congrArg BitVec.toNat (add_left_cancel h)
  rw [BitVec.toNat_ofNat, BitVec.toNat_ofNat, Nat.mod_eq_of_lt (by omega),
    Nat.mod_eq_of_lt (by omega)] at h'
  omega

/-- **The descriptor pointer is read back** but for its low six bits; so the address of a descriptor
of an aligned ring leads back to this descriptor. -/
theorem curr_desc_round_trip (hw : DmaHw) :
    (∀ sd, (start (fun _ hw => hw) sd hw).getCurrDesc = sd &&& ~~~0x3f#64) ∧
    ∀ (o : UioMemSgdma) (n : Nat), o.getFirstDescAddr.toNat % 64 = 0 → n * descAddrStep ≤ 2^64 →
      ∀ i < n, (start (fun _ hw => hw) (o.descAddr i) hw).getCurrDesc = o.descAddr i ∧
        ∀ j < n, (start (fun _ hw => hw) (o.descAddr i) hw).getCurrDesc = o.descAddr j → j = i := by
  have hback : ∀ sd, (start (fun _ hw => hw) sd hw).getCurrDesc = sd &&& ~~~0x3f#64 := by
    intro sd
    apply BitVec.eq_of_toNat_eq
    rw [getCurrDesc_start, toNat_clear_low_six]
  refine ⟨hback, fun o n ha hn i hi => ?_⟩
  have hsame : (start (fun _ hw => hw) (o.descAddr i) hw).getCurrDesc = o.descAddr i := by
    apply BitVec.eq_of_toNat_eq
    rw [getCurrDesc_start]
    unfold UioMemSgdma.descAddr descAddrStep
    rw [BitVec.toNat_add, BitVec.toNat_ofNat]
    omega
  refine ⟨hsame, fun j hj h => ?_⟩
  rw [hsame] at h
  exact (descAddr_inj o hn hi hj h).symm

/-- a ring over a 4 GiB boundary: its second descriptor -/
theorem curr_desc_round_trip_4gib :
    (start (fun _ hw => hw) 0x100000000 ⟨resetRegs, false, []⟩).getCurrDesc = 0x100000000 :=
  ((curr_desc_round_trip ⟨resetRegs, false, []⟩).2 (descMem 0xffffffc0) 4 (by decide) (by decide) 1
    (by decide)).1

end DmaHw

end Udmaio
