import Udmaio.Lib.Bytes
import Udmaio.Lib.Prog

/-!
# Hardware accessors

The access paths of `HwAccessor` and its subclasses (`inc/udmaio/HwAccessor.hpp`,
`src/HwAccessor.cpp`) over a byte memory.  Every access is also logged with its width: that is what
the bus sees.

* `HwAccessor`            the four classes: `HwAccessorXdma<uint32_t>`, `HwAccessorXdma<uint64_t>`,
                          `HwAccessorAxi` and `HwAccessorMock`;
* `rd32`, `wr32`, `rd64`, `wr64`   single words; `rd64` and `wr64` are overridden where the class
                          has native 64-bit access;
* `rdMem32`, .., `wrReg`  the loops over words and the choice of the loop by the size of the type;
* `readBulk`, `writeBulk` copies by `memcpy`, whose accesses are not specified (`Memcpy`);
* `dword_only_iff`        **in 7-series mode every access is one double word as long as no byte is
                          copied in bulk**, and only then.

Host memory behind a `void*` is a function from the distance to it; debug output is left out.
-/

namespace Udmaio
open Lib

/-! ## classes and state -/

/-- `max_access_width_t` -/
inductive Width where
  | u32
  | u64
deriving DecidableEq, Repr

/-- an accessor with the number of bytes it gives access to -/
inductive HwAccessor where
  | xdma (maxAccess : Width) (size : Nat)
  | axi (size : Nat)
  | mock (size : Nat)
deriving DecidableEq, Repr

structure Access where
  write : Bool
  addr : BitVec 64
  width : Nat
deriving DecidableEq, Repr

structure HwState where
  mem : BitVec 64 → UInt8
  trace : List Access

abbrev HwM := Prog HwState

/-- address and width of the accesses by which `memcpy` copies `n` bytes from the address `a` on;
they may overlap -/
structure Memcpy where
  accesses : BitVec 64 → Nat → List (BitVec 64 × Nat)
  zero : ∀ a, accesses a 0 = []

/-- the size of a register type, as the assertions of `_rd_reg` and `_wr_reg` have it -/
structure RegSize where
  bytes : Nat
  pos : bytes ≠ 0
  dvd : bytes % 4 = 0
deriving DecidableEq, Repr

def spans (write : Bool) (as : List (BitVec 64 × Nat)) : List Access :=
  as.map fun p => ⟨write, p.1, p.2⟩

def hostBytes (src : Nat → UInt8) (n : Nat) : List UInt8 := (List.range n).map src

/-- `UioConfigXdma::hw_acc` -/
def hwAcc (x7SeriesMode : Bool) (size : Nat) : HwAccessor :=
  if x7SeriesMode then .xdma .u32 size else .xdma .u64 size

namespace HwAccessor

/-- `max_access_width_t` of a class that maps its memory -/
def maxAccess : HwAccessor → Option Width
  | xdma m _ => some m
  | axi _ => some .u64
  | mock _ => none

def size : HwAccessor → Nat
  | xdma _ n => n
  | axi n => n
  | mock n => n

/-! ## words -/

def emit (as : List Access) : HwM Unit := modify fun s => { s with trace := s.trace ++ as }

def overflowMsg (width n : Nat) : String := s!"Buffer overflow ({width} bytes at {n})"

/-- `_mem_ptr`: only the mock checks the offset -/
def memPtr (h : HwAccessor) (width : Nat) (offs : BitVec 32) : HwM (BitVec 64) :=
  match h with
  | mock n =>
    if offs.toNat + width > n then throw (.exception (overflowMsg width offs.toNat))
    else return offs.setWidth 64
  | _ => return offs.setWidth 64

def rdPtr (h : HwAccessor) (width : Nat) (offs : BitVec 32) : HwM Nat := do
  let a ← h.memPtr width offs
  emit [⟨false, a, width⟩]
  return leNat (load (← get).mem a width)

def wrPtr (h : HwAccessor) (width : Nat) (offs : BitVec 32) (data : Nat) : HwM Unit := do
  let a ← h.memPtr width offs
  emit [⟨true, a, width⟩]
  modify fun s => { s with mem := store s.mem a (leBytes width data) }

def rd32 (h : HwAccessor) (offs : BitVec 32) : HwM (BitVec 32) := do
  return BitVec.ofNat 32 (← h.rdPtr 4 offs)

def wr32 (h : HwAccessor) (offs : BitVec 32) (data : BitVec 32) : HwM Unit :=
  h.wrPtr 4 offs data.toNat

/-- `HwAccessor::_rd64`; the first half is the low one -/
def rd64Default (h : HwAccessor) (offs : BitVec 32) : HwM (BitVec 64) := do
  let lo ← h.rd32 offs
  let hi ← h.rd32 (offs + 4#32)
  return hi ++ lo

/-- `HwAccessor::_wr64` -/
def wr64Default (h : HwAccessor) (offs : BitVec 32) (data : BitVec 64) : HwM Unit := do
  h.wr32 offs (data.setWidth 32)
  h.wr32 (offs + 4#32) ((data >>> 32).setWidth 32)

def rd64 (h : HwAccessor) (offs : BitVec 32) : HwM (BitVec 64) :=
  match h.maxAccess with
  | some .u64 => do return BitVec.ofNat 64 (← h.rdPtr 8 offs)
  | _ => h.rd64Default offs

def wr64 (h : HwAccessor) (offs : BitVec 32) (data : BitVec 64) : HwM Unit :=
  match h.maxAccess with
  | some .u64 => h.wrPtr 8 offs data.toNat
  | _ => h.wr64Default offs data

/-! ## loops over words -/

section
variable (h : HwAccessor) (fuel : Nat) (offs : BitVec 32)

/-- the bytes that end up behind `mem` -/
def rdMem32 (size : Nat) : HwM (List UInt8) := do
  let ws ← forLoop 4 size (fun _ i => h.rd32 (offs + i)) fuel 0 (0 : BitVec 32)
  return ws.flatMap fun v => leBytes 4 v.toNat

def rdMem64 (size : Nat) : HwM (List UInt8) := do
  let ws ← forLoop 8 size (fun _ i => h.rd64 (offs + i)) fuel 0 (0 : BitVec 32)
  return ws.flatMap fun v => leBytes 8 v.toNat

/-- word `k` of width `n` behind `mem` -/
def hostWord (n : Nat) (mem : Nat → UInt8) (k : Nat) : Nat :=
  leNat (hostBytes (fun j => mem (k * n + j)) n)

def wrMem32 (mem : Nat → UInt8) (size : Nat) : HwM Unit := do
  let _ ← forLoop 4 size
    (fun k i => h.wr32 (offs + i) (BitVec.ofNat 32 (hostWord 4 mem k))) fuel 0 (0 : BitVec 32)
  return

def wrMem64 (mem : Nat → UInt8) (size : Nat) : HwM Unit := do
  let _ ← forLoop 8 size
    (fun k i => h.wr64 (offs + i) (BitVec.ofNat 64 (hostWord 8 mem k))) fuel 0 (0 : BitVec 32)
  return

/-- `_rd_reg<C>` with `sizeof(C)` -/
def rdReg (sizeofC : RegSize) : HwM (List UInt8) :=
  if sizeofC.bytes > 4 ∧ sizeofC.bytes % 8 = 0 then h.rdMem64 fuel offs sizeofC.bytes
  else h.rdMem32 fuel offs sizeofC.bytes

/-- `_wr_reg<C>`; `value` is the object representation -/
def wrReg (sizeofC : RegSize) (value : Nat → UInt8) : HwM Unit :=
  if sizeofC.bytes > 4 ∧ sizeofC.bytes % 8 = 0 then h.wrMem64 fuel offs value sizeofC.bytes
  else h.wrMem32 fuel offs value sizeofC.bytes

end

/-! ## bulk copies -/

/-- `read_bulk`; the base class, and with it the mock, returns nothing -/
def readBulk (h : HwAccessor) (mc : Memcpy) (offs size : BitVec 32) : HwM (List UInt8) :=
  match h.maxAccess with
  | some _ => do
    let a ← h.memPtr 1 offs
    emit (spans false (mc.accesses a size.toNat))
    return load (← get).mem a size.toNat
  | none => return []

/-- `write_bulk`; the base class does nothing -/
def writeBulk (h : HwAccessor) (mc : Memcpy) (offs : BitVec 32) (data : List UInt8) : HwM Unit :=
  match h.maxAccess with
  | some _ => do
    let a ← h.memPtr 1 offs
    emit (spans true (mc.accesses a data.length))
    modify fun s => { s with mem := store s.mem a data }
  | none => return

end HwAccessor

/-! ## sequences of operations -/

inductive Op where
  | rd32 (offs : BitVec 32)
  | wr32 (offs : BitVec 32) (data : BitVec 32)
  | rd64 (offs : BitVec 32)
  | wr64 (offs : BitVec 32) (data : BitVec 64)
  | rdMem32 (offs : BitVec 32) (size : Nat)
  | rdMem64 (offs : BitVec 32) (size : Nat)
  | wrMem32 (offs : BitVec 32) (mem : Nat → UInt8) (size : Nat)
  | wrMem64 (offs : BitVec 32) (mem : Nat → UInt8) (size : Nat)
  | rdReg (offs : BitVec 32) (sizeofC : RegSize)
  | wrReg (offs : BitVec 32) (sizeofC : RegSize) (value : Nat → UInt8)
  | readBulk (offs size : BitVec 32)
  | writeBulk (offs : BitVec 32) (data : List UInt8)

namespace Op

def exec (mc : Memcpy) (fuel : Nat) (h : HwAccessor) : Op → HwM Unit
  | rd32 offs => do let _ ← h.rd32 offs
  | wr32 offs data => h.wr32 offs data
  | rd64 offs => do let _ ← h.rd64 offs
  | wr64 offs data => h.wr64 offs data
  | rdMem32 offs size => do let _ ← h.rdMem32 fuel offs size
  | rdMem64 offs size => do let _ ← h.rdMem64 fuel offs size
  | wrMem32 offs mem size => h.wrMem32 fuel offs mem size
  | wrMem64 offs mem size => h.wrMem64 fuel offs mem size
  | rdReg offs sizeofC => do let _ ← h.rdReg fuel offs sizeofC
  | wrReg offs sizeofC value => h.wrReg fuel offs sizeofC value
  | readBulk offs size => do let _ ← h.readBulk mc offs size
  | writeBulk offs data => h.writeBulk mc offs data

def execAll (mc : Memcpy) (fuel : Nat) (h : HwAccessor) : List Op → HwM Unit
  | [] => return
  | op :: ops => do
    op.exec mc fuel h
    execAll mc fuel h ops

/-- the operation copies at least one byte in bulk -/
def copies : Op → Bool
  | readBulk _ size => size ≠ 0
  | writeBulk _ data => !data.isEmpty
  | _ => false

end Op

/-! ## 7-series mode -/

/-- the accesses made in between are double words -/
def Dwords (s s' : HwState) : Prop := ∃ as, s'.trace = s.trace ++ as ∧ ∀ a ∈ as, a.width = 4

instance : Std.Refl Dwords := ⟨fun s => ⟨[], (List.append_nil _).symm, by simp⟩⟩

instance : IsTrans HwState Dwords where
  trans s t u := by
    rintro ⟨as, h1, h2⟩ ⟨bs, h3, h4⟩
    refine ⟨as ++ bs, by rw [h3, h1, List.append_assoc], fun a ha => ?_⟩
    rcases List.mem_append.mp ha with ha | ha
    · exact h2 a ha
    · exact h4 a ha

namespace HwAccessor

theorem makes_memPtr {R : HwState → HwState → Prop} [Std.Refl R] (h : HwAccessor) (width : Nat)
    (offs : BitVec 32) : Makes R (h.memPtr width offs) := by
  unfold memPtr
  split
  · split
    · exact Makes.throw _
    · exact Makes.pure _
  · exact Makes.pure _

theorem dwords_emit (write : Bool) (a : BitVec 64) : Makes Dwords (emit [⟨write, a, 4⟩]) :=
  fun _ => ⟨[⟨write, a, 4⟩], rfl, by simp⟩

theorem dwords_of_trace {α : Type} {x : HwM α} (h : ∀ s, (final (x s)).trace = s.trace) :
    Makes Dwords x := fun s => ⟨[], by rw [h s, List.append_nil], by simp⟩

variable (h : HwAccessor)

theorem dwords_rdPtr (offs : BitVec 32) : Makes Dwords (h.rdPtr 4 offs) :=
  Makes.bind (makes_memPtr h 4 offs) fun a => Makes.bind (dwords_emit false a) fun _ =>
    Makes.bind (dwords_of_trace fun _ => rfl) fun _ => Makes.pure _

theorem dwords_wr32 (offs : BitVec 32) (data : BitVec 32) : Makes Dwords (h.wr32 offs data) :=
  Makes.bind (makes_memPtr h 4 offs) fun a => Makes.bind (dwords_emit true a) fun _ =>
    dwords_of_trace fun _ => rfl

theorem dwords_rd32 (offs : BitVec 32) : Makes Dwords (h.rd32 offs) :=
  Makes.bind (dwords_rdPtr h offs) fun _ => Makes.pure _

section
variable {h} (hw : h.maxAccess = some .u32)
include hw

theorem dwords_rd64 (offs : BitVec 32) : Makes Dwords (h.rd64 offs) := by
  unfold rd64
  rw [hw]
  exact Makes.bind (dwords_rd32 h _) fun _ => Makes.bind (dwords_rd32 h _) fun _ => Makes.pure _

theorem dwords_wr64 (offs : BitVec 32) (data : BitVec 64) : Makes Dwords (h.wr64 offs data) := by
  unfold wr64
  rw [hw]
  exact Makes.bind (dwords_wr32 h _ _) fun _ => dwords_wr32 h _ _

end

section
variable (fuel : Nat) (offs : BitVec 32) (size : Nat)

theorem dwords_rdMem32 : Makes Dwords (h.rdMem32 fuel offs size) :=
  Makes.bind (Makes.forLoop (fun _ _ => dwords_rd32 h _) _ _ _) fun _ => Makes.pure _

theorem dwords_wrMem32 (mem : Nat → UInt8) : Makes Dwords (h.wrMem32 fuel offs mem size) :=
  Makes.bind (Makes.forLoop (fun _ _ => dwords_wr32 h _ _) _ _ _) fun _ => Makes.pure _

variable {h} (hw : h.maxAccess = some .u32)
include hw

theorem dwords_rdMem64 : Makes Dwords (h.rdMem64 fuel offs size) :=
  Makes.bind (Makes.forLoop (fun _ _ => dwords_rd64 hw _) _ _ _) fun _ => Makes.pure _

theorem dwords_wrMem64 (mem : Nat → UInt8) : Makes Dwords (h.wrMem64 fuel offs mem size) :=
  Makes.bind (Makes.forLoop (fun _ _ => dwords_wr64 hw _ _) _ _ _) fun _ => Makes.pure _

end

end HwAccessor

namespace Memcpy

/-- accesses of `w` bytes each, the last one shorter if need be -/
def ofWidth (w : Nat) : Memcpy where
  accesses a n := (List.range ((n + w - 1) / w)).map fun i =>
    (a + BitVec.ofNat 64 (i * w), min w (n - i * w))
  zero _ := by
    have h0 : (0 + w - 1) / w = 0 := Nat.div_eq_zero_iff.mpr (by omega)
    rw [h0]
    rfl

/-- a copy byte by byte accesses single bytes -/
theorem mem_spans_bytes (write : Bool) (a : BitVec 64) {n : Nat} (hn : 0 < n) :
    ∃ addr, ⟨write, addr, 1⟩ ∈ spans write ((ofWidth 1).accesses a n) := by
  have h0 : 0 ∈ List.range ((n + 1 - 1) / 1) := List.mem_range.mpr (by omega)
  have hmin : min 1 (n - 0 * 1) = 1 := by omega
  refine ⟨a + BitVec.ofNat 64 (0 * 1), ?_⟩
  have hmem := List.mem_map_of_mem (f := fun p : BitVec 64 × Nat => (⟨write, p.1, p.2⟩ : Access))
    (List.mem_map_of_mem (f := fun i => (a + BitVec.ofNat 64 (i * 1), min 1 (n - i * 1))) h0)
  rw [hmin] at hmem
  exact hmem

end Memcpy

namespace Op
open HwAccessor

variable {mc : Memcpy} {fuel : Nat} {h : HwAccessor}

theorem dwords_exec (hw : h.maxAccess = some .u32) (op : Op) (hc : op.copies = false) :
    Makes Dwords (op.exec mc fuel h) := by
  cases op with
  | rd32 offs => exact Makes.bind (dwords_rd32 h offs) fun _ => Makes.pure _
  | wr32 offs data => exact dwords_wr32 h offs data
  | rd64 offs => exact Makes.bind (dwords_rd64 hw offs) fun _ => Makes.pure _
  | wr64 offs data => exact dwords_wr64 hw offs data
  | rdMem32 offs size => exact Makes.bind (dwords_rdMem32 h fuel offs size) fun _ => Makes.pure _
  | rdMem64 offs size => exact Makes.bind (dwords_rdMem64 fuel offs size hw) fun _ => Makes.pure _
  | wrMem32 offs mem size => exact dwords_wrMem32 h fuel offs size mem
  | wrMem64 offs mem size => exact dwords_wrMem64 fuel offs size hw mem
  | rdReg offs sizeofC =>
    refine Makes.bind ?_ fun _ => Makes.pure _
    unfold HwAccessor.rdReg
    split
    · exact dwords_rdMem64 fuel offs _ hw
    · exact dwords_rdMem32 h fuel offs _
  | wrReg offs sizeofC value =>
    show Makes Dwords (h.wrReg fuel offs sizeofC value)
    unfold HwAccessor.wrReg
    split
    · exact dwords_wrMem64 fuel offs _ hw value
    · exact dwords_wrMem32 h fuel offs _ value
  | readBulk offs size =>
    have hs : size = 0 := by simpa [copies] using hc
    subst hs
    refine Makes.bind ?_ fun _ => Makes.pure _
    unfold HwAccessor.readBulk
    rw [hw]
    refine Makes.bind (makes_memPtr h 1 offs) fun a => Makes.bind (dwords_of_trace fun s => ?_)
      fun _ => Makes.bind (dwords_of_trace fun _ => rfl) fun _ => Makes.pure _
    show s.trace ++ spans false (mc.accesses a 0) = _
    rw [mc.zero]
    exact List.append_nil _
  | writeBulk offs data =>
    have hd : data = [] := by simpa [copies] using hc
    subst hd
    show Makes Dwords (h.writeBulk mc offs [])
    unfold HwAccessor.writeBulk
    rw [hw]
    refine Makes.bind (makes_memPtr h 1 offs) fun a => Makes.bind (dwords_of_trace fun s => ?_)
      fun _ => dwords_of_trace fun _ => rfl
    show s.trace ++ spans true (mc.accesses a 0) = _
    rw [mc.zero]
    exact List.append_nil _

theorem dwords_execAll (hw : h.maxAccess = some .u32) (ops : List Op)
    (hc : ∀ op ∈ ops, op.copies = false) : Makes Dwords (execAll mc fuel h ops) := by
  induction ops with
  | nil => exact Makes.pure _
  | cons op ops ih =>
    exact Makes.bind (dwords_exec hw op (hc op List.mem_cons_self)) fun _ =>
      ih fun o ho => hc o (List.mem_cons_of_mem _ ho)

/-- a bulk copy through the mapping leaves the accesses of `memcpy` in the trace -/
theorem trace_copies (mc : Memcpy) (fuel : Nat) (hw : h.maxAccess = some .u32) {op : Op}
    (hc : op.copies = true) (s : HwState) : ∃ write a n, n ≠ 0 ∧
      (final (execAll mc fuel h [op] s)).trace = s.trace ++ spans write (mc.accesses a n) := by
  obtain ⟨m, sz, rfl⟩ : ∃ m sz, h = .xdma m sz := by
    cases h with
    | xdma m sz => exact ⟨m, sz, rfl⟩
    | axi sz => cases hw
    | mock sz => cases hw
  cases op with
  | readBulk offs size =>
    refine ⟨false, offs.setWidth 64, size.toNat, ?_, rfl⟩
    intro h0
    have : size ≠ 0 := by simpa [copies] using hc
    exact this (BitVec.eq_of_toNat_eq h0)
  | writeBulk offs data =>
    refine ⟨true, offs.setWidth 64, data.length, ?_, rfl⟩
    intro h0
    simp [copies, List.length_eq_zero_iff.mp h0] at hc
  | _ => cases hc

/-- **7-series mode.**  The sequences made of the operations in `A` only make double-word accesses,
whatever `memcpy` does, exactly when no operation in `A` copies a byte in bulk. -/
theorem dword_only_iff (size : Nat) (A : Op → Prop) :
    (∀ ops : List Op, (∀ op ∈ ops, A op) → ∀ mc fuel,
        Makes Dwords (execAll mc fuel (hwAcc true size) ops)) ↔
      ∀ op, A op → op.copies = false := by
  constructor
  · intro hall op hA
    by_contra hc
    rw [Bool.not_eq_false] at hc
    have hone : ∀ o ∈ [op], A o := fun o ho => (List.mem_singleton.mp ho) ▸ hA
    obtain ⟨as, h1, h2⟩ := hall [op] hone (Memcpy.ofWidth 1) 0 ⟨fun _ => 0, []⟩
    obtain ⟨write, a, n, hn, h3⟩ := trace_copies (h := hwAcc true size) (Memcpy.ofWidth 1) 0 rfl hc
      ⟨fun _ => 0, []⟩
    rw [h3] at h1
    have h4 : spans write ((Memcpy.ofWidth 1).accesses a n) = as := h1
    obtain ⟨addr, hmem⟩ := Memcpy.mem_spans_bytes write a (Nat.pos_of_ne_zero hn)
    have := h2 _ (h4 ▸ hmem)
    cases this
  · intro hA ops hops mc fuel
    exact dwords_execAll rfl ops fun op ho => hA op (hops op ho)

/-- `read_bulk` of eight bytes by one `memcpy` access -/
theorem dword_only_broken : ¬ Makes Dwords
    (execAll (Memcpy.ofWidth 8) 0 (hwAcc true 4096) [.readBulk 0 8]) := by
  intro hd
  obtain ⟨as, h1, h2⟩ := hd ⟨fun _ => 0, []⟩
  have h3 : [⟨false, 0, 8⟩] = as := h1
  have := h2 ⟨false, 0, 8⟩ (by rw [← h3]; exact List.mem_cons_self)
  cases this

end Op

end Udmaio
