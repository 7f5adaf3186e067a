import Udmaio.Dma.Start
import Udmaio.Handler.Reads
import Udmaio.Sgdma.Mem

/-!
# The drain loop and the engine on the bytes of descriptor memory

`Udmaio.Sgdma.Drain` numbers the descriptors: the engine goes from `engPos` to the next number, and
both sides access an array.  Here descriptor memory is bytes.  The engine is at a physical address,
fetches the descriptor there, writes the four bytes of its status and goes on to its next-pointer;
the software reads and writes statuses through `desc_statuses`.

* `ByteSys`, `ByteSys.step`   the system;
* `ByteSys.init`              `DataHandlerPython::start`: `init_buffers`, then the controller is
                              started at the first descriptor;
* `Sees`                      what the bytes show of a state of `Drain`;
* `Sees.step`                 each step on bytes is the step of `Drain`, or none;
* `bytes_refine`              **every run on bytes is a run of `Drain`** from its start on;
* `bytes_delivery`            hence what is delivered is the stream, or its packets.
-/

namespace Udmaio
open Lib

/-! ## the system -/

/-- `cur` is the address of the engine's descriptor -/
structure ByteSys where
  o : UioMemSgdma
  hw : HwState
  phys : BitVec 64 → UInt8
  cur : BitVec 64
  engBuf : Option (List UInt8)
  pc : Pc
  stored : List Block
  delivered : List (List UInt8)

namespace ByteSys

/-- the descriptor that the engine fetches; descriptor memory starts at `hwAddr` -/
def fetch (s : ByteSys) : S2mmDesc := S2mmDesc.ofBytes (load s.hw.mem (s.cur - s.o.hwAddr) slotSize)

def engStore (s : ByteSys) (bytes : List UInt8) : ByteSys :=
  if s.engBuf = none ∧ s.fetch.status.cmplt = false ∧
      bytes.length ≤ s.fetch.control.bufferLen.toNat then
    { s with phys := store s.phys s.fetch.bufferAddr bytes, engBuf := some bytes }
  else s

def engComplete (s : ByteSys) (st : S2mmDescStatus) : ByteSys :=
  match s.engBuf with
  | some bytes =>
    if h : st.numStoredBytes.toNat = bytes.length ∧ st.cmplt = true then
      { s with
        hw := { s.hw with
          mem := store s.hw.mem (s.cur - s.o.hwAddr + BitVec.ofNat 64 statusOffs) st.toBytes }
        cur := s.fetch.nxtdesc
        engBuf := none
        stored := s.stored ++ [⟨bytes, st, h.2, h.1⟩] }
    else s
  | none => s

def scanned (s : ByteSys) (result : List Nat) : ByteSys :=
  if result.isEmpty then { s with pc := .out } else { s with pc := .stats result [] }

def scanFlow {σ : Type} (s : ByteSys) (pcOf : σ → Pc) : Flow (UioMemSgdma × σ) → ByteSys
  | .cont (o', l') => { s with o := o', pc := pcOf l' }
  | .ret (o', _) r => { s with o := o' }.scanned r
  | .throw (o', _) msg => { s with o := o', pc := .failed msg }

/-- how the software goes on after an access -/
def after {α : Type} (s : ByteSys) (k : ByteSys → α → ByteSys) :
    EStateM.Result Stop HwState α → ByteSys
  | .ok a hw => k { s with hw := hw } a
  | .error (.exception msg) hw => { s with hw := hw, pc := .failed msg }
  | .error .fuel hw => { s with hw := hw }

def region (s : ByteSys) (c : Stat) : UioRegion :=
  ⟨s.o.bufAddrs.getD c.1 0, c.2.numStoredBytes.toNat⟩

section
variable (h : HwAccessor) (fuel : Nat)

def swStep (s : ByteSys) : ByteSys :=
  match s.pc with
  | .out => s
  | .top => s
  | .full l =>
    if l.i < s.o.nrCycDesc then
      s.after (fun s st => s.scanFlow .full (s.o.fullBody l st))
        (descStatuses.rd h fuel (BitVec.ofNat 32 s.o.nextReadableBuf) s.hw)
    else s.scanned l.result
  | .packet l =>
    if l.i < s.o.nrCycDesc then
      s.after (fun s st => s.scanFlow .packet (s.o.packetBody l st))
        (descStatuses.rd h fuel (BitVec.ofNat 32 l.n) s.hw)
    else s.scanned []
  | .stats [] done => { s with pc := .copy done [] }
  | .stats (i :: todo) done =>
    s.after (fun s st => { s with pc := .stats todo (done ++ [(i, st)]) })
      (descStatuses.rd h fuel (BitVec.ofNat 32 i) s.hw)
  | .copy [] result => { s with pc := .process result }
  | .copy (c :: todo) result =>
    { s with pc := .wrBack c todo (appendFromBuf s.o.memAddr s.phys (s.region c) result) }
  | .wrBack c todo result =>
    s.after (fun s _ => { s with pc := .copy todo result })
      (descStatuses.wr h fuel (BitVec.ofNat 32 c.1) { c.2 with cmplt := false }.toBytes s.hw)
  | .process bytes => { s with delivered := s.delivered ++ [bytes], pc := .top }
  | .failed _ => s

def step (s : ByteSys) : Act → ByteSys
  | .store bytes => s.engStore bytes
  | .complete st => s.engComplete st
  | .enter => if s.pc = .out then { s with pc := .top } else s
  | .call receivePackets =>
    if s.pc = .top then
      { s with pc := if receivePackets then .packet s.o.packetInit else .full UioMemSgdma.fullInit }
    else s
  | .sw => s.swStep h fuel

/-- `DataHandlerPython::start(nr_pkts, pkt_size)` on descriptor memory `hw` and the registers `dma`;
the engine takes the first descriptor from CURDESC -/
def init (pad : Nat → BitVec 32) (tick : Nat → DmaHw → DmaHw) (o : UioMemSgdma)
    (memAddr : BitVec 64) (nrPkts pktSize : Nat) (phys : BitVec 64 → UInt8) (dma : DmaHw)
    (hw : HwState) : Option ByteSys :=
  match UioMemSgdma.initBuffersMem h fuel pad o memAddr nrPkts pktSize hw with
  | .ok o' hw' => some
    { o := o', hw := hw', phys := phys
      cur := (DmaHw.start tick o'.getFirstDescAddr dma).getCurrDesc
      engBuf := none, pc := .out, stored := [], delivered := [] }
  | .error _ _ => none

end

end ByteSys

/-! ## what the bytes show -/

/-- an iteration moves the pointer within the ring and no other member -/
theorem fullBody_state {N : Nat} {o : UioMemSgdma} (l : FullScan) (st : S2mmDescStatus)
    (ho : RingPtr N o) : ∃ k < N, (o.fullBody l st).state.1 = { o with nextReadableBuf := k } := by
  have hk := fullBody_keeps (l := ⟨0, []⟩) st ho fun i hi => absurd hi List.not_mem_nil
  unfold UioMemSgdma.fullBody at hk ⊢
  split_ifs at hk ⊢
  · exact ⟨_, ho.next, rfl⟩
  · exact ⟨_, ho.next, rfl⟩
  · exact ⟨_, hk.1.next, rfl⟩

theorem packetBody_state {N : Nat} {o : UioMemSgdma} (l : PacketScan) (st : S2mmDescStatus)
    (ho : RingPtr N o) : ∃ k < N, (o.packetBody l st).state.1
      = { o with nextReadableBuf := k } := by
  have hn : (l.n + 1) % o.nrCycDesc < N := by
    rw [ho.size]
    exact Nat.mod_lt _ (by have := ho.next; omega)
  unfold UioMemSgdma.packetBody
  split_ifs
  · exact ⟨_, ho.next, rfl⟩
  · exact ⟨_, ho.next, rfl⟩
  · exact ⟨_, hn, rfl⟩
  · exact ⟨_, hn, rfl⟩
  · exact ⟨_, ho.next, rfl⟩

/-- the software is at indices of a ring with `N` descriptors -/
def Pc.InRing (N : Nat) : Pc → Prop
  | .full l => ∀ i ∈ l.result, i < N
  | .packet l => l.n < N ∧ ∀ i ∈ l.result, i < N
  | .stats todo done => (∀ i ∈ todo, i < N) ∧ ∀ c ∈ done, c.1 < N
  | .copy todo _ => ∀ c ∈ todo, c.1 < N
  | .wrBack c todo _ => c.1 < N ∧ ∀ c ∈ todo, c.1 < N
  | _ => True

structure Sees (N : Nat) (s : ByteSys) (d : Drain) : Prop where
  o : s.o = d.o
  phys : s.phys = d.phys
  engBuf : s.engBuf = d.engBuf
  pc : s.pc = d.pc
  stored : s.stored = d.stored
  delivered : s.delivered = d.delivered
  descs : ∀ j < 1024, descAt s.hw.mem j = d.descs j
  cur : s.cur = d.o.descAddr d.engPos
  pos : d.engPos < N
  ring : RingPtr N d.o
  next : ∀ j < N, (d.descs j).nxtdesc = d.o.descAddr ((j + 1) % N)
  len : ∀ j < N, (d.descs j).control.bufferLen.toNat ≤ d.o.bufSize
  place : d.pc.InRing N

namespace Sees
variable {N : Nat} {s : ByteSys} {d : Drain}

/-- the software moves on; the memory may have been read -/
theorem goto (h : Sees N s d) {hw' : HwState} (hm : hw'.mem = s.hw.mem) {o' : UioMemSgdma}
    (ho : ∃ k < N, o' = { d.o with nextReadableBuf := k }) {pc' : Pc} (hpc : pc'.InRing N) :
    Sees N { s with o := o', hw := hw', pc := pc' } { d with o := o', pc := pc' } := by
  obtain ⟨k, hk, rfl⟩ := ho
  refine ⟨rfl, h.phys, h.engBuf, rfl, h.stored, h.delivered, fun j hj => ?_, h.cur, h.pos,
    ⟨h.ring.size, hk⟩, h.next, h.len, hpc⟩
  show descAt hw'.mem j = _
  rw [hm]
  exact h.descs j hj

/-- the engine fetches the descriptor with its number -/
theorem fetch (h : Sees N s d) (hN : N ≤ 1024) : s.fetch = d.descs d.engPos := by
  rw [← h.descs _ (by have := h.pos; omega)]
  unfold ByteSys.fetch descAt
  rw [h.cur, h.o]
  unfold UioMemSgdma.descAddr UioMemSgdma.getFirstDescAddr
  rw [BitVec.add_comm, BitVec.add_sub_cancel]

theorem engStore (h : Sees N s d) (hN : N ≤ 1024) (bytes : List UInt8) :
    Sees N (s.engStore bytes) d ∨ Sees N (s.engStore bytes) (d.engStore bytes) := by
  unfold ByteSys.engStore
  split
  · next hc =>
    right
    rw [h.fetch hN, h.engBuf] at hc
    have hlen := h.len _ h.pos
    unfold Drain.engStore
    rw [if_pos ⟨hc.1, hc.2.1, by omega⟩, h.fetch hN, h.phys]
    exact ⟨h.o, rfl, rfl, h.pc, h.stored, h.delivered, h.descs, h.cur, h.pos, h.ring, h.next, h.len,
      h.place⟩
  · exact Or.inl h

/-- a status replaced: the other fields stay -/
theorem status_frame (h : Sees N s d) (i : Nat) (t : S2mmDescStatus) :
    (∀ j < N, (setStatus d.descs i t j).nxtdesc = d.o.descAddr ((j + 1) % N)) ∧
      ∀ j < N, (setStatus d.descs i t j).control.bufferLen.toNat ≤ d.o.bufSize := by
  have hsame : ∀ j, (setStatus d.descs i t j).nxtdesc = (d.descs j).nxtdesc ∧
      (setStatus d.descs i t j).control = (d.descs j).control := by
    intro j
    by_cases hji : j = i
    · subst hji
      unfold setStatus
      rw [Function.update_self]
      exact ⟨rfl, rfl⟩
    · rw [setStatus_of_ne _ t hji]
      exact ⟨rfl, rfl⟩
  refine ⟨fun j hj => ?_, fun j hj => ?_⟩
  · rw [(hsame j).1]
    exact h.next j hj
  · rw [(hsame j).2]
    exact h.len j hj

theorem engComplete (h : Sees N s d) (hN : N ≤ 1024) (st : S2mmDescStatus) :
    Sees N (s.engComplete st) (d.engComplete st) := by
  unfold ByteSys.engComplete Drain.engComplete
  rw [h.engBuf]
  cases d.engBuf with
  | none => exact h
  | some bytes =>
    dsimp only
    by_cases hc : st.cmplt = true ∧ st.numStoredBytes.toNat = bytes.length
    · rw [dif_pos hc, dif_pos hc.symm]
      have haddr : s.cur - s.o.hwAddr = BitVec.ofNat 64 (d.engPos * descAddrStep) := by
        rw [h.cur, h.o]
        unfold UioMemSgdma.descAddr UioMemSgdma.getFirstDescAddr
        rw [BitVec.add_comm, BitVec.add_sub_cancel]
      obtain ⟨hnext, hlen⟩ := h.status_frame d.engPos st
      refine ⟨h.o, h.phys, rfl, h.pc, ?_, h.delivered, fun j hj => ?_, ?_, ?_, h.ring, hnext, hlen,
        h.place⟩
      · show s.stored ++ _ = d.stored ++ _
        rw [h.stored]
      · rw [haddr]
        exact descAt_setStatus h.descs st (by have := h.pos; omega) hj
      · show s.fetch.nxtdesc = d.o.descAddr ((d.engPos + 1) % d.o.nrCycDesc)
        rw [h.fetch hN, h.next _ h.pos, h.ring.size]
      · show (d.engPos + 1) % d.o.nrCycDesc < N
        rw [h.ring.size]
        exact Nat.mod_lt _ (by have := h.pos; omega)
    · rw [dif_neg hc, dif_neg fun e => hc e.symm]
      exact h

/-! ## the software -/

theorem scanned (h : Sees N s d) {hw' : HwState} (hm : hw'.mem = s.hw.mem) {o' : UioMemSgdma}
    (ho : ∃ k < N, o' = { d.o with nextReadableBuf := k }) {r : List Nat} (hr : ∀ i ∈ r, i < N) :
    Sees N (({ s with o := o', hw := hw' } : ByteSys).scanned r)
      (({ d with o := o' } : Drain).scanned r) := by
  unfold ByteSys.scanned Drain.scanned
  split
  · exact h.goto hm ho trivial
  · exact h.goto hm ho ⟨hr, fun c hc => absurd hc List.not_mem_nil⟩

theorem scanFlow {σ : Type} (h : Sees N s d) {hw' : HwState} (hm : hw'.mem = s.hw.mem)
    {pcOf : σ → Pc} {f : Flow (UioMemSgdma × σ)}
    (ho : ∃ k < N, f.state.1 = { d.o with nextReadableBuf := k })
    (hk : f.Keeps N fun l => (pcOf l).InRing N) :
    Sees N (({ s with hw := hw' } : ByteSys).scanFlow pcOf f) (d.scanFlow pcOf f) := by
  cases f with
  | cont p => exact h.goto hm ho hk.2
  | ret p r => exact h.scanned hm ho hk.2
  | throw p msg => exact h.goto hm ho trivial

variable {a : HwAccessor} {fuel : Nat} (hf : slotSize < fuel) (hN : N ≤ 1024)
  (hreach : ∀ j < N, StatusSlot a j)
include hf hN hreach

theorem rd (h : Sees N s d) {i : Nat} (hi : i < N) :
    ∃ hw', descStatuses.rd a fuel (BitVec.ofNat 32 i) s.hw = .ok (d.descs i).status hw' ∧
      hw'.mem = s.hw.mem := by
  obtain ⟨hw', hok, hm⟩ := rd_statusSlot hf (hreach i hi) (by omega) s.hw
  rw [h.descs i (by omega)] at hok
  exact ⟨hw', hok, hm⟩

theorem swStep (h : Sees N s d) : Sees N (s.swStep a fuel) d.swStep := by
  -- the two states have all members but the memory in common
  obtain ⟨o, hw, phys, cur, engBuf, pc, stored, delivered⟩ := s
  obtain ⟨o', descs, phys', engPos, engBuf', pc', stored', delivered'⟩ := d
  obtain rfl : o = o' := h.o
  obtain rfl : phys = phys' := h.phys
  obtain rfl : engBuf = engBuf' := h.engBuf
  obtain rfl : pc = pc' := h.pc
  obtain rfl : stored = stored' := h.stored
  obtain rfl : delivered = delivered' := h.delivered
  have hplace := h.place
  have hself : ∃ k < N, o = { o with nextReadableBuf := k } := ⟨_, h.ring.next, rfl⟩
  cases pc with
  | out => exact h
  | top => exact h
  | failed msg => exact h
  | full l =>
    show Sees N (if l.i < o.nrCycDesc then _ else _) (if l.i < o.nrCycDesc then _ else _)
    split
    · obtain ⟨hw', hok, hm⟩ := h.rd hf hN hreach h.ring.next
      rw [hok]
      exact h.scanFlow hm (fullBody_state _ _ h.ring) (fullBody_keeps _ h.ring hplace)
    · exact h.scanned rfl hself hplace
  | packet l =>
    show Sees N (if l.i < o.nrCycDesc then _ else _) (if l.i < o.nrCycDesc then _ else _)
    split
    · obtain ⟨hw', hok, hm⟩ := h.rd hf hN hreach hplace.1
      rw [hok]
      exact h.scanFlow hm (packetBody_state _ _ h.ring) (packetBody_keeps _ h.ring hplace)
    · exact h.scanned rfl hself fun i hi => absurd hi List.not_mem_nil
  | stats todo done =>
    cases todo with
    | nil => exact h.goto rfl hself hplace.2
    | cons i todo =>
      obtain ⟨hw', hok, hm⟩ := h.rd hf hN hreach (hplace.1 i List.mem_cons_self)
      unfold ByteSys.swStep
      dsimp only
      rw [hok]
      refine h.goto hm hself ⟨fun j hj => hplace.1 j (List.mem_cons_of_mem _ hj), fun c hc => ?_⟩
      rcases List.mem_append.mp hc with hc | hc
      · exact hplace.2 c hc
      · rw [List.mem_singleton.mp hc]
        exact hplace.1 i List.mem_cons_self
  | copy todo result =>
    cases todo with
    | nil => exact h.goto rfl hself trivial
    | cons c todo =>
      exact h.goto rfl hself
        ⟨hplace c List.mem_cons_self, fun x hx => hplace x (List.mem_cons_of_mem _ hx)⟩
  | wrBack c todo result =>
    have hc : c.1 < N := hplace.1
    obtain ⟨hw', hok, hm⟩ := wr_statusSlot hf (hreach c.1 hc) (by omega)
      { c.2 with cmplt := false } hw
    obtain ⟨hnext, hlen⟩ := h.status_frame c.1 { c.2 with cmplt := false }
    unfold ByteSys.swStep
    dsimp only
    rw [hok]
    refine ⟨rfl, rfl, rfl, rfl, rfl, rfl, fun j hj => ?_, h.cur, h.pos, h.ring, hnext, hlen,
      hplace.2⟩
    show descAt hw'.mem j = _
    rw [hm]
    exact descAt_setStatus h.descs _ (by omega) hj
  | process bytes =>
    exact ⟨rfl, rfl, rfl, rfl, rfl, rfl, h.descs, h.cur, h.pos, h.ring, h.next, h.len, trivial⟩

/-- **Each step on bytes is the step of the numbered system, or none.** -/
theorem step (h : Sees N s d) (b : Act) :
    Sees N (s.step a fuel b) d ∨ Sees N (s.step a fuel b) (d.step b) := by
  cases b with
  | store bytes => exact h.engStore hN bytes
  | complete st => exact Or.inr (h.engComplete hN st)
  | enter =>
    right
    unfold ByteSys.step Drain.step
    dsimp only
    rw [h.pc, h.o]
    split
    · exact h.goto rfl ⟨_, h.ring.next, rfl⟩ trivial
    · exact h
  | call receivePackets =>
    right
    unfold ByteSys.step Drain.step
    dsimp only
    rw [h.pc, h.o]
    split
    · refine h.goto rfl ⟨_, h.ring.next, rfl⟩ ?_
      cases receivePackets with
      | false => exact fun i hi => absurd hi List.not_mem_nil
      | true => exact ⟨h.ring.next, fun i hi => absurd hi List.not_mem_nil⟩
    · exact h
  | sw => exact Or.inr (h.swStep hf hN hreach)

end Sees

/-- the loop in one mode, along a run with a stream that the mode can take -/
theorem Drain.Inv.mode_run {rp : Bool} {d : Drain} (hd : Drain.Inv (Drain.modeDelivery rp) d)
    {acts : List Act} (hmode : ∀ m, Act.call m ∈ acts → m = rp)
    (hok : (Lib.run Drain.step d acts).StreamOk rp) :
    Drain.Inv (Drain.modeDelivery rp) (Lib.run Drain.step d acts) := by
  refine run_inv (P := fun d : Drain => d.StreamOk rp → Drain.Inv (Drain.modeDelivery rp) d) ?_
    (Along.of_forall Drain.step acts (Q := fun b => ∀ m, b = .call m → m = rp)
      (fun b hb m e => hmode m (e ▸ hb)) _) (fun _ => hd) hok
  exact fun d b hb hd hok => (hd hok.of_step).mode_step hok.of_step b hb

/-! ## the start -/

/-- the descriptor pointer that the engine starts with, if the reset is done right after its
request -/
theorem DmaHw.getCurrDesc_of_start (rst : DmaRegs) {sched : Nat → Bool} (h1 : sched 1 = true)
    {sd : BitVec 64} (ha : sd.toNat % 64 = 0) (dma : DmaHw) :
    (DmaHw.start (DmaHw.tick rst sched) sd dma).getCurrDesc = sd := by
  obtain ⟨-, hcase⟩ := DmaHw.program_cases rst sched sd dma
  rw [if_pos h1] at hcase
  obtain ⟨hidle, hptr, hmsb⟩ := hcase
  obtain ⟨-, -, -, -, hcur, hcurMsb, -⟩ := DmaHw.go_of_idle rst sched sd hidle
  rw [DmaHw.start_eq, getCurrDesc_eq_iff _ ha, hcur, hcurMsb]
  exact ⟨hptr, hmsb⟩

section
variable {a : HwAccessor} {fuel : Nat} (hf : slotSize < fuel) {pad : Nat → BitVec 32}
  {rst : DmaRegs} {sched : Nat → Bool} (h1 : sched 1 = true) {o : UioMemSgdma}
  (ha : o.getFirstDescAddr.toNat % 64 = 0) {memAddr : BitVec 64} {n bufSize : Nat} (hn : 0 < n)
  (hn' : n ≤ 1024) {phys : BitVec 64 → UInt8} {dma : DmaHw} {hw : HwState} {s : ByteSys}
  (hinit : ByteSys.init a fuel pad (DmaHw.tick rst sched) o memAddr n bufSize phys dma hw = some s)
include hf h1 ha hn hn' hinit

theorem Sees.init : Sees n s (Drain.start o (descAt hw.mem) phys memAddr n bufSize) ∧
    ∀ j < n, StatusSlot a j := by
  unfold ByteSys.init at hinit
  cases hok : UioMemSgdma.initBuffersMem a fuel pad o memAddr n bufSize hw with
  | error e hw' =>
    rw [hok] at hinit
    cases hinit
  | ok o' hw' =>
    rw [hok] at hinit
    obtain rfl := Option.some.inj hinit
    obtain ⟨ho, hd, -⟩ := UioMemSgdma.of_initBuffersMem_ok hf hn' hok
    have hslots := UioMemSgdma.slots_of_initBuffersMem hn' hok
    have hfirst : o'.getFirstDescAddr = o.getFirstDescAddr := by rw [ho]; rfl
    refine ⟨⟨ho, rfl, rfl, rfl, rfl, rfl, hd, ?_, hn, ?_, ?_, ?_, trivial⟩,
      fun j hj => (hslots j hj).status (by omega)⟩
    · show (DmaHw.start _ o'.getFirstDescAddr dma).getCurrDesc = _
      rw [hfirst, DmaHw.getCurrDesc_of_start rst h1 ha]
      show _ = o.getFirstDescAddr + BitVec.ofNat 64 (0 * descAddrStep)
      rw [Nat.zero_mul]
      exact (BitVec.add_zero _).symm
    · exact ⟨UioMemSgdma.initBuffers_nrCycDesc o _ memAddr n bufSize, hn⟩
    · exact fun j hj => UioMemSgdma.initBuffers_nxtdesc o _ memAddr n bufSize hj
    · intro j hj
      show ((UioMemSgdma.initBuffers o _ memAddr n bufSize).2 j).control.bufferLen.toNat ≤ bufSize
      rw [UioMemSgdma.initBuffers_bufferLen o _ memAddr bufSize hj]
      exact Nat.mod_le _ _

/-- **The system on bytes refines the numbered one.**  Whatever the engine, which follows the
next-pointers in descriptor memory, and the software, which reads and writes status words, do after
`start`, their steps are a run of `Drain`, with the same logs. -/
theorem bytes_refine (acts : List Act) :
    ∃ bs : List Act, bs.Sublist acts ∧ Sees n (Lib.run (ByteSys.step a fuel) s acts)
      (Lib.run Drain.step (Drain.start o (descAt hw.mem) phys memAddr n bufSize) bs) := by
  obtain ⟨hs, hreach⟩ := Sees.init hf h1 ha hn hn' hinit
  exact run_sim (fun _ _ b h => h.step hf hn' hreach b) hs acts

/-- **Delivery on bytes.** -/
theorem bytes_delivery (fit : n * bufSize ≤ 2^64) (receivePackets : Bool) (acts : List Act)
    (hmode : ∀ m, Act.call m ∈ acts → m = receivePackets)
    (hframed : receivePackets = true → WellFramed n (Lib.run (ByteSys.step a fuel) s acts).stored) :
    let s' := Lib.run (ByteSys.step a fuel) s acts
    (receivePackets = false → s'.delivered.flatten <+: blockBytes s'.stored) ∧
      (receivePackets = true → s'.delivered <+: (framing s'.stored).packets) := by
  intro s'
  obtain ⟨hs, hreach⟩ := Sees.init hf h1 ha hn hn' hinit
  obtain ⟨bs, hbs, hsees⟩ := run_sim (fun _ _ b h => h.step hf hn' hreach b) hs acts
  have hd : Drain.Inv (Drain.modeDelivery receivePackets)
      (Lib.run Drain.step (Drain.start o (descAt hw.mem) phys memAddr n bufSize) bs) := by
    refine Drain.Inv.mode_run (Drain.Inv.start _ o _ phys memAddr hn fit) ?_ ?_
    · exact fun m hm => hmode m (hbs.subset hm)
    · intro hrp
      rw [hsees.ring.size, ← hsees.stored]
      exact hframed hrp
  show (_ → s'.delivered.flatten <+: blockBytes s'.stored) ∧ (_ → s'.delivered <+: _)
  rw [hsees.delivered, hsees.stored]
  constructor
  · rintro rfl
    exact hd.delivered_prefix_stream
  · rintro rfl
    exact hd.delivered_prefix_packets

end

/-- a ring of two buffers of four bytes, in a memory full of ones -/
def byteStart : Option ByteSys :=
  ByteSys.init (.mock 0x78) 57 (fun _ => 0) (DmaHw.tick DmaHw.resetRegs (fun k => k == 1))
    (DmaHw.descMem 0xa0000000) 0x80000000 2 4 (fun _ => 0) ⟨DmaHw.resetRegs, false, []⟩
    ⟨fun _ => 0xff, []⟩

theorem byteStart_run : byteStart.map (fun s =>
    let s' := Lib.run (ByteSys.step (.mock 0x78) 57) s Drain.packetRun
    (s'.delivered, decide (WellFramed 2 s'.stored))) = some ([[1, 2, 3]], true) := by
  decide +kernel

theorem bytes_refine_byteStart : ∃ s bs, byteStart = some s ∧ bs.Sublist Drain.packetRun ∧
    Sees 2 (Lib.run (ByteSys.step (.mock 0x78) 57) s Drain.packetRun)
      (Lib.run Drain.step (Drain.start (DmaHw.descMem 0xa0000000) (descAt fun _ => 0xff)
        (fun _ => 0)
        0x80000000 2 4) bs) := by
  obtain ⟨s, hs, -⟩ := Option.map_eq_some_iff.mp byteStart_run
  obtain ⟨bs, hbs, h⟩ := bytes_refine (by decide) rfl (by decide) (by decide) (by decide) hs
    Drain.packetRun
  exact ⟨s, bs, hs, hbs, h⟩

theorem bytes_delivery_byteStart : ∃ s, byteStart = some s ∧
    (Lib.run (ByteSys.step (.mock 0x78) 57) s Drain.packetRun).delivered = [[1, 2, 3]] ∧
    (Lib.run (ByteSys.step (.mock 0x78) 57) s Drain.packetRun).delivered <+:
      (framing (Lib.run (ByteSys.step (.mock 0x78) 57) s Drain.packetRun).stored).packets := by
  obtain ⟨s, hs, e⟩ := Option.map_eq_some_iff.mp byteStart_run
  obtain ⟨hdel, hframed⟩ := Prod.mk.inj e
  refine ⟨s, hs, hdel, ?_⟩
  exact (bytes_delivery (by decide) rfl (by decide) (by decide) (by decide) hs (by decide) true
    Drain.packetRun (by decide) (fun _ => of_decide_eq_true hframed)).2 rfl

end Udmaio
