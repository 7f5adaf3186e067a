import Udmaio.Lib.Sim
import Udmaio.Sgdma.Read
import Udmaio.Sgdma.Views

/-!
# The scans, `read_buffers` and the drain loop on the bytes of descriptor memory

`Udmaio.Sgdma.Calls` has descriptor memory as an array of descriptors.  Here the same functions run
on bytes: every status is read and written back through `desc_statuses`, with the 32-bit accesses of
the accessor.

* `SgdmaMem`          the state, with the memory of the accessor in place of the array;
* `Rep`               the array is what the slots hold, and nothing but status words of the ring has
                      changed since the memory was `m0`;
* `statusRd_ok`, `statusWr_ok`   one access;
* `drain_refines`     **the drain loop on bytes does what the drain loop on the array does**,
                      exceptions included.
-/

namespace Udmaio
open Lib

/-! ## the programs -/

structure SgdmaMem (μ : Type) where
  o : UioMemSgdma
  hw : HwState
  mem : μ
  handed : List (List Nat × List UInt8)

namespace SgdmaMem
variable {μ : Type}

/-- the same state with the slots as an array -/
def abs (c : SgdmaMem μ) : Sgdma μ := ⟨c.o, descAt c.hw.mem, c.mem, c.handed⟩

def onHw {α : Type} (x : HwM α) : Prog (SgdmaMem μ) α := onPart hw (fun c s => { c with hw := s }) x

def onMem {α : Type} (x : Prog μ α) : Prog (SgdmaMem μ) α :=
  onPart mem (fun c m => { c with mem := m }) x

section
variable (h : HwAccessor) (fuel : Nat)

/-- `desc_statuses[i].rd()` -/
def statusRd (i : Nat) : Prog (SgdmaMem μ) S2mmDescStatus :=
  onHw (descStatuses.rd h fuel (BitVec.ofNat 32 i))

/-- `desc_statuses[i].wr(t)` -/
def statusWr (i : Nat) (t : S2mmDescStatus) : Prog (SgdmaMem μ) Unit :=
  onHw (descStatuses.wr h fuel (BitVec.ofNat 32 i) t.toBytes)

/-- the loop of a scan that reads the status with index `idx` in each iteration -/
def scanLoop {σ : Type} (idx : UioMemSgdma → σ → Nat)
    (body : UioMemSgdma → σ → S2mmDescStatus → Flow (UioMemSgdma × σ)) (done : σ → List Nat) :
    Nat → σ → Prog (SgdmaMem μ) (List Nat)
  | 0, l => return done l
  | k+1, l => do
    let s ← get
    let stat ← statusRd h fuel (idx s.o l)
    match body s.o l stat with
    | .cont (o', l') =>
      modify fun s => { s with o := o' }
      scanLoop idx body done k l'
    | .ret (o', _) r =>
      modify fun s => { s with o := o' }
      return r
    | .throw (o', _) msg =>
      modify fun s => { s with o := o' }
      throw (.exception msg)

def getFullBuffers : Prog (SgdmaMem μ) (List Nat) := do
  let s ← get
  scanLoop h fuel (fun o _ => o.nextReadableBuf) UioMemSgdma.fullBody FullScan.result s.o.nrCycDesc
    UioMemSgdma.fullInit

def getNextPacket : Prog (SgdmaMem μ) (List Nat) := do
  let s ← get
  scanLoop h fuel (fun _ l => l.n) UioMemSgdma.packetBody (fun _ => []) s.o.nrCycDesc s.o.packetInit

def readStats : List Nat → Prog (SgdmaMem μ) (List Stat)
  | [] => return []
  | i :: indices => do
    let st ← statusRd h fuel i
    let stats ← readStats indices
    return (i, st) :: stats

def copyLoop (buf : DmaBuffer μ) : List Stat → List UInt8 → Prog (SgdmaMem μ) (List UInt8)
  | [], result => return result
  | c :: stats, result => do
    let s ← get
    let result ← onMem
      (buf.appendFromBuf ⟨s.o.bufAddrs.getD c.1 0, c.2.numStoredBytes.toNat⟩ result)
    statusWr h fuel c.1 { c.2 with cmplt := false }
    copyLoop buf stats result

def readBuffers (buf : DmaBuffer μ) (indices : List Nat) : Prog (SgdmaMem μ) (List UInt8) := do
  let stats ← readStats h fuel indices
  copyLoop h fuel buf stats []

def drain (buf : DmaBuffer μ) (receivePackets : Bool) : Nat → Prog (SgdmaMem μ) Unit
  | 0 => throw .fuel
  | k+1 => do
    let fullBufs ← if receivePackets then getNextPacket h fuel else getFullBuffers h fuel
    if fullBufs.isEmpty then return
    else
      let bytes ← readBuffers h fuel buf fullBufs
      modify fun s => { s with handed := s.handed ++ [(fullBufs, bytes)] }
      drain buf receivePackets k

end

end SgdmaMem

/-! ## the relation -/

/-- the address is one of the bytes of the status in slot `i` -/
def InStatus (i : Nat) (x : BitVec 64) : Prop :=
  i * descAddrStep + statusOffs ≤ x.toNat ∧ x.toNat < i * descAddrStep + statusOffs + 4

theorem store_of_not_inStatus {i : Nat} (hi : i < 1024) {x : BitVec 64} (hx : ¬ InStatus i x)
    (m : BitVec 64 → UInt8) (t : S2mmDescStatus) :
    store m (BitVec.ofNat 64 (i * descAddrStep) + BitVec.ofNat 64 statusOffs) t.toBytes x
      = m x := by
  apply store_outside
  have e := toNat_slotAddr hi (k := statusOffs) (by decide)
  have hlt := x.isLt
  rw [BitVec.toNat_sub, e, t.toBytes_length]
  unfold InStatus at hx
  unfold descAddrStep statusOffs at *
  omega

/-- a stored status is `setStatus` on any array that shows the slots -/
theorem descAt_setStatus {m : BitVec 64 → UInt8} {descs : Nat → S2mmDesc}
    (hd : ∀ j < 1024, descAt m j = descs j) {i j : Nat} (t : S2mmDescStatus) (hi : i < 1024)
    (hj : j < 1024) :
    descAt (store m (BitVec.ofNat 64 (i * descAddrStep) + BitVec.ofNat 64 statusOffs) t.toBytes) j
      = setStatus descs i t j := by
  rw [descAt_store_status m t hi hj]
  by_cases hji : j = i
  · subst hji
    unfold setStatus
    rw [Function.update_self, Function.update_self, hd j hj]
  · rw [setStatus_of_ne _ t hji, setStatus_of_ne _ t hji]
    exact hd j hj

/-- the ring has `N` descriptors and the pointer is one of them -/
structure RingPtr (N : Nat) (o : UioMemSgdma) : Prop where
  size : o.nrCycDesc = N
  next : o.nextReadableBuf < N

structure Rep {μ : Type} (N : Nat) (m0 : BitVec 64 → UInt8) (c : SgdmaMem μ)
    (a : Sgdma μ) : Prop where
  o : c.o = a.o
  mem : c.mem = a.mem
  handed : c.handed = a.handed
  descs : ∀ j < 1024, descAt c.hw.mem j = a.descs j
  ring : RingPtr N a.o
  frame : ∀ x, (∀ j < N, ¬ InStatus j x) → c.hw.mem x = m0 x

theorem Rep.abs {μ : Type} {N : Nat} (c : SgdmaMem μ) (h : RingPtr N c.o) :
    Rep N c.hw.mem c c.abs :=
  ⟨rfl, rfl, rfl, fun _ _ => rfl, h, fun _ _ => rfl⟩

/-! ## one access -/

section
variable {μ : Type} {h : HwAccessor} {fuel N : Nat} (hf : slotSize < fuel) (hN : N ≤ 1024)
  (hreach : ∀ j < N, StatusSlot h j) {m0 : BitVec 64 → UInt8}
include hf hN hreach

theorem statusRd_ok {i : Nat} (hi : i < N) {c : SgdmaMem μ} {a : Sgdma μ} (hr : Rep N m0 c a) :
    ∃ c', SgdmaMem.statusRd h fuel i c = .ok (a.descs i).status c' ∧ c'.o = c.o ∧
      Rep N m0 c' a := by
  obtain ⟨s', hok, hm⟩ := rd_statusSlot hf (hreach i hi) (by omega) c.hw
  refine ⟨{ c with hw := s' }, ?_, rfl, ⟨hr.o, hr.mem, hr.handed, ?_, hr.ring, ?_⟩⟩
  · unfold SgdmaMem.statusRd SgdmaMem.onHw onPart
    rw [hok, hr.descs i (by omega)]
  · intro j hj
    show descAt s'.mem j = _
    rw [hm]
    exact hr.descs j hj
  · intro x hx
    show s'.mem x = _
    rw [hm]
    exact hr.frame x hx

/-- **A status that is written back is `setStatus` on the array.** -/
theorem statusWr_sim {i : Nat} (hi : i < N) (t : S2mmDescStatus) :
    Sim (Rep N m0 : SgdmaMem μ → Sgdma μ → Prop) (fun _ => True) (SgdmaMem.statusWr h fuel i t)
      (modify fun s => { s with descs := setStatus s.descs i t }) := by
  intro c a hr
  obtain ⟨s', hok, hm⟩ := wr_statusSlot hf (hreach i hi) (by omega) t c.hw
  have e : SgdmaMem.statusWr h fuel i t c = .ok () { c with hw := s' } := by
    unfold SgdmaMem.statusWr SgdmaMem.onHw onPart
    rw [hok]
  rw [e]
  refine Same.ok trivial ⟨hr.o, hr.mem, hr.handed, ?_, hr.ring, ?_⟩
  · intro j hj
    show descAt s'.mem j = setStatus a.descs i t j
    rw [hm]
    exact descAt_setStatus hr.descs t (by omega) hj
  · intro x hx
    show s'.mem x = m0 x
    rw [hm, store_of_not_inStatus (by omega) (hx i hi)]
    exact hr.frame x hx

/-! ## the scans -/

/-- an iteration that stays within the ring: `P` holds of the locals it goes on with -/
def Flow.Keeps {σ : Type} (N : Nat) (P : σ → Prop) : Flow (UioMemSgdma × σ) → Prop
  | .cont p => RingPtr N p.1 ∧ P p.2
  | .ret p r => RingPtr N p.1 ∧ ∀ i ∈ r, i < N
  | .throw p _ => RingPtr N p.1

theorem scanLoop_sim {σ : Type} {idx : UioMemSgdma → σ → Nat}
    {body : UioMemSgdma → σ → S2mmDescStatus → Flow (UioMemSgdma × σ)} {done : σ → List Nat}
    {P : σ → Prop} (hidx : ∀ o l, RingPtr N o → P l → idx o l < N)
    (hbody : ∀ o l st, RingPtr N o → P l → (body o l st).Keeps N P)
    (hdone : ∀ l, P l → ∀ i ∈ done l, i < N) (k : Nat) {l : σ} (hl : P l) :
    Sim (Rep N m0 : SgdmaMem μ → Sgdma μ → Prop) (fun r => ∀ i ∈ r, i < N)
      (SgdmaMem.scanLoop h fuel idx body done k l)
        (Sgdma.scanLoop (fun o descs l => body o l (descs (idx o l)).status) done k l) := by
  induction k generalizing l with
  | zero => exact Sim.pure (hdone l hl)
  | succ k ih =>
    intro c a hr
    obtain ⟨c', hrd, ho, hr'⟩ := statusRd_ok hf hN hreach (hidx a.o l hr.ring hl) hr
    have hkeeps := hbody a.o l (a.descs (idx a.o l)).status hr.ring hl
    -- the members move on in both states
    have hset : ∀ o', RingPtr N o' → Rep N m0 { c' with o := o' } { a with o := o' } :=
      fun o' hring => ⟨rfl, hr'.mem, hr'.handed, hr'.descs, hring, hr'.frame⟩
    rw [Sgdma.scanLoop_succ, SgdmaMem.scanLoop,
      bind_ok (show (get : Prog _ _) c = .ok c c from rfl), hr.o, bind_ok hrd]
    revert hkeeps
    generalize body a.o l (a.descs (idx a.o l)).status = f
    intro hkeeps
    cases f with
    | cont p => exact ih hkeeps.2 _ _ (hset p.1 hkeeps.1)
    | ret p r => exact .ok hkeeps.2 (hset p.1 hkeeps.1)
    | throw p msg => exact .error (hset p.1 hkeeps)

omit hf hN hreach in
theorem fullBody_keeps {o : UioMemSgdma} {l : FullScan} (st : S2mmDescStatus) (ho : RingPtr N o)
    (hl : ∀ i ∈ l.result, i < N) : (o.fullBody l st).Keeps N fun l => ∀ i ∈ l.result, i < N := by
  unfold UioMemSgdma.fullBody
  split_ifs
  · exact ⟨ho, hl⟩
  · exact ho
  · refine ⟨⟨ho.size, ?_⟩, fun i hi => ?_⟩
    · show (o.nextReadableBuf + 1) % o.nrCycDesc < N
      rw [ho.size]
      exact Nat.mod_lt _ (by have := ho.next; omega)
    · rcases List.mem_append.mp hi with hi | hi
      · exact hl i hi
      · rw [List.mem_singleton.mp hi]
        exact ho.next

omit hf hN hreach in
theorem packetBody_keeps {o : UioMemSgdma} {l : PacketScan} (st : S2mmDescStatus) (ho : RingPtr N o)
    (hl : l.n < N ∧ ∀ i ∈ l.result, i < N) :
    (o.packetBody l st).Keeps N fun l => l.n < N ∧ ∀ i ∈ l.result, i < N := by
  have hn : (l.n + 1) % o.nrCycDesc < N := by
    rw [ho.size]
    exact Nat.mod_lt _ (by have := ho.next; omega)
  have hres : ∀ i ∈ l.result ++ [l.n], i < N := by
    intro i hi
    rcases List.mem_append.mp hi with hi | hi
    · exact hl.2 i hi
    · rw [List.mem_singleton.mp hi]
      exact hl.1
  unfold UioMemSgdma.packetBody
  split_ifs
  · exact ⟨ho, fun i hi => absurd hi List.not_mem_nil⟩
  · exact ho
  · exact ⟨⟨ho.size, hn⟩, hn, hl.2⟩
  · exact ⟨⟨ho.size, hn⟩, hres⟩
  · exact ⟨ho, hn, hres⟩

theorem getFullBuffers_sim : Sim (Rep N m0 : SgdmaMem μ → Sgdma μ → Prop) (fun r => ∀ i ∈ r, i < N)
    (SgdmaMem.getFullBuffers h fuel) Sgdma.getFullBuffers := by
  refine Sim.get_bind fun c a hr => ?_
  rw [hr.o]
  refine scanLoop_sim hf hN hreach (P := fun l : FullScan => ∀ i ∈ l.result, i < N)
    (fun o _ ho _ => ho.next) (fun o l st ho hl => fullBody_keeps st ho hl)
      (fun l hl => hl) _ ?_ c a hr
  exact fun i hi => absurd hi List.not_mem_nil

theorem getNextPacket_sim : Sim (Rep N m0 : SgdmaMem μ → Sgdma μ → Prop) (fun r => ∀ i ∈ r, i < N)
    (SgdmaMem.getNextPacket h fuel) Sgdma.getNextPacket := by
  refine Sim.get_bind fun c a hr => ?_
  rw [hr.o]
  refine scanLoop_sim hf hN hreach (P := fun l : PacketScan => l.n < N ∧ ∀ i ∈ l.result, i < N)
    (fun _ _ _ hl => hl.1) (fun o l st ho hl => packetBody_keeps st ho hl)
    (fun _ _ i hi => absurd hi List.not_mem_nil) _ ?_ c a hr
  exact ⟨hr.ring.next, fun i hi => absurd hi List.not_mem_nil⟩

/-! ## `read_buffers` -/

theorem readStats_sim {indices : List Nat} (hi : ∀ i ∈ indices, i < N) :
    Sim (Rep N m0 : SgdmaMem μ → Sgdma μ → Prop) (fun r => ∀ c ∈ r, c.1 < N)
      (SgdmaMem.readStats h fuel indices) (Sgdma.readStats indices) := by
  induction indices with
  | nil => exact Sim.pure fun c hc => absurd hc List.not_mem_nil
  | cons i indices ih =>
    intro c a hr
    obtain ⟨c', hrd, -, hr'⟩ := statusRd_ok hf hN hreach (hi i List.mem_cons_self) hr
    rw [SgdmaMem.readStats, bind_ok hrd]
    refine Same.bind (ih (fun j hj => hi j (List.mem_cons_of_mem _ hj)) c' a hr') fun stats
      hstats => ?_
    refine Sim.pure fun x hx => ?_
    rcases List.mem_cons.mp hx with rfl | hx
    · exact hi i List.mem_cons_self
    · exact hstats x hx

omit hf hN hreach in
theorem onMem_sim {α : Type} (x : Prog μ α) :
    Sim (Rep N m0) (fun _ => True) (SgdmaMem.onMem x) (Sgdma.onMem x) := by
  have hput : ∀ (c : SgdmaMem μ) (a : Sgdma μ) (m : μ), Rep N m0 c a →
      Rep N m0 { c with mem := m } { a with mem := m } :=
    fun _ _ _ hr => ⟨hr.o, rfl, hr.handed, hr.descs, hr.ring, hr.frame⟩
  have e : Sgdma.onMem x = onPart Sgdma.mem (fun a m => { a with mem := m }) x := by
    funext a
    unfold Sgdma.onMem onPart
    cases x a.mem <;> rfl
  rw [e]
  exact Sim.lift x (fun _ _ hr => hr.mem) hput

theorem copyLoop_sim (buf : DmaBuffer μ) {stats : List Stat} (hs : ∀ c ∈ stats, c.1 < N)
    (result : List UInt8) :
    Sim (Rep N m0) (fun _ => True) (SgdmaMem.copyLoop h fuel buf stats result)
      (Sgdma.copyLoop buf stats result) := by
  induction stats generalizing result with
  | nil => exact Sim.pure trivial
  | cons st stats ih =>
    refine Sim.get_bind fun c a hr => ?_
    rw [hr.o]
    refine (onMem_sim _ c a hr).bind fun bytes _ => ?_
    refine (statusWr_sim hf hN hreach (hs st List.mem_cons_self) _).bind fun _ _ => ?_
    exact ih (fun x hx => hs x (List.mem_cons_of_mem _ hx)) bytes

theorem readBuffers_sim (buf : DmaBuffer μ) {indices : List Nat} (hi : ∀ i ∈ indices, i < N) :
    Sim (Rep N m0) (fun _ => True) (SgdmaMem.readBuffers h fuel buf indices)
      (Sgdma.readBuffers buf indices) :=
  (readStats_sim hf hN hreach hi).bind fun _ hstats => copyLoop_sim hf hN hreach buf hstats []

/-! ## the drain loop -/

theorem drain_sim (buf : DmaBuffer μ) (receivePackets : Bool) (k : Nat) :
    Sim (Rep N m0) (fun _ => True) (SgdmaMem.drain h fuel buf receivePackets k)
      (Sgdma.drain buf receivePackets k) := by
  induction k with
  | zero => exact Sim.throw _
  | succ k ih =>
    -- an iteration, once the scan has returned
    have hrest : ∀ fullBufs : List Nat, (∀ i ∈ fullBufs, i < N) →
        Sim (Rep N m0) (fun _ => True)
          (if fullBufs.isEmpty then pure ()
            else do
              let bytes ← SgdmaMem.readBuffers h fuel buf fullBufs
              modify fun s => { s with handed := s.handed ++ [(fullBufs, bytes)] }
              SgdmaMem.drain h fuel buf receivePackets k)
          (if fullBufs.isEmpty then pure ()
            else do
              let bytes ← Sgdma.readBuffers buf fullBufs
              modify fun s => { s with handed := s.handed ++ [(fullBufs, bytes)] }
              Sgdma.drain buf receivePackets k) := by
      intro fullBufs hi
      split
      · exact Sim.pure trivial
      · refine (readBuffers_sim hf hN hreach buf hi).bind fun bytes _ => ?_
        refine Sim.bind (Q := fun _ => True) (Sim.modify fun c a hr => ?_) fun _ _ => ih
        refine ⟨hr.o, hr.mem, ?_, hr.descs, hr.ring, hr.frame⟩
        show c.handed ++ _ = a.handed ++ _
        rw [hr.handed]
    rw [SgdmaMem.drain, Sgdma.drain]
    cases receivePackets with
    | false => exact (getFullBuffers_sim hf hN hreach).bind hrest
    | true => exact (getNextPacket_sim hf hN hreach).bind hrest

end

/-- a memory that differs in status words only: the slots differ in the field `status` only -/
theorem descAt_of_frame {N : Nat} {m m' : BitVec 64 → UInt8}
    (hm : ∀ x, (∀ j < N, ¬ InStatus j x) → m' x = m x) {j : Nat} (hj : j < 1024) :
    descAt m' j = { descAt m j with status := (descAt m' j).status } := by
  -- a field before or behind the status
  have hfield : ∀ {o n : Nat}, o + n ≤ slotSize → o + n ≤ 0x1c ∨ 0x20 ≤ o →
      bytesAt (load m' (BitVec.ofNat 64 (j * descAddrStep)) slotSize) o n
        = bytesAt (load m (BitVec.ofNat 64 (j * descAddrStep)) slotSize) o n := by
    intro o n hn hd
    rw [bytesAt_load _ _ hn, bytesAt_load _ _ hn]
    refine load_congr fun k hk => hm _ fun i _ hx => ?_
    have e := toNat_slotAddr hj (k := o + k) (by omega)
    rw [BitVec.ofNat_add, ← BitVec.add_assoc] at e
    unfold InStatus at hx
    rw [e] at hx
    unfold descAddrStep statusOffs slotSize at *
    omega
  have happ : ∀ k : Fin 5,
      bytesAt (load m' (BitVec.ofNat 64 (j * descAddrStep)) slotSize) (0x20 + 4 * k) 4
        = bytesAt (load m (BitVec.ofNat 64 (j * descAddrStep)) slotSize) (0x20 + 4 * k) 4 := by
    intro k
    apply hfield
    · unfold slotSize
      omega
    · omega
  unfold descAt S2mmDesc.ofBytes
  simp (disch := decide) only [happ, hfield]

section
variable {μ : Type} {h : HwAccessor} {fuel : Nat} (hf : slotSize < fuel) (buf : DmaBuffer μ)
  (receivePackets : Bool) (k : Nat) (c : SgdmaMem μ)
include hf

/-- **The drain loop on bytes refines the drain loop on the array**: it returns or throws as the
other one does, hands out the same vectors and leaves the same members, with the slots as the array;
on the way it changes no byte but those of the status words of the ring, so that all descriptors
keep their pointers, lengths and buffers. -/
theorem drain_refines (hp : c.o.nextReadableBuf < c.o.nrCycDesc) (hN : c.o.nrCycDesc ≤ 1024)
    (hmem : (c.o.nrCycDesc - 1) * 0x40 + 0x38 ≤ h.size) :
    Same (Rep c.o.nrCycDesc c.hw.mem) (fun _ => True) (SgdmaMem.drain h fuel buf receivePackets k c)
        (Sgdma.drain buf receivePackets k c.abs) ∧
      ∀ j < 1024, ∃ t, descAt (final (SgdmaMem.drain h fuel buf receivePackets k c)).hw.mem j
        = { descAt c.hw.mem j with status := t } := by
  have hreach : ∀ j < c.o.nrCycDesc, StatusSlot h j := by
    intro j hj
    refine (slot_of_le (by omega) ?_).status (by omega)
    unfold descAddrStep slotSize
    omega
  have hsame := drain_sim hf hN hreach buf receivePackets k c c.abs (Rep.abs c ⟨rfl, hp⟩)
  exact ⟨hsame, fun j hj => ⟨_, descAt_of_frame hsame.final.frame hj⟩⟩

end

/-- two descriptors, the first one complete with a packet of one byte -/
def memSample : SgdmaMem (BitVec 64 → UInt8) where
  o := ⟨0, 0x1000, 2, 0, [0x1000, 0x2000], 0x1000⟩
  hw := ⟨fun x => if x = 0x1c then 1 else if x = 0x1f then 0x8c else 0, []⟩
  mem _ := 7
  handed := []

theorem drain_refines_memSample :
    (final (SgdmaMem.drain (.mock 0x78) 57 (mappedBuf 0x1000) true 3 memSample)).handed
        = [([0], [7])] ∧
      Same (Rep 2 memSample.hw.mem) (fun _ => True)
        (SgdmaMem.drain (.mock 0x78) 57 (mappedBuf 0x1000) true 3 memSample)
        (Sgdma.drain (mappedBuf 0x1000) true 3 memSample.abs) :=
  ⟨by decide +kernel, (drain_refines (by decide) _ true 3 memSample (by decide) (by decide)
    (by decide)).1⟩

end Udmaio
