import Udmaio.Lib.Run
import Udmaio.Sgdma.Desc

/-!
# The drain loop and the engine, step by step

`DataHandlerAbstract::_handle_input` drains the ring in a loop: `get_next_packet` (packet mode) or
`get_full_buffers` (stream mode), then `read_buffers` on the result and `process_data`.  The engine
shares the status words and the buffers with it.  Here both are one system, in which every access
to shared memory is a step of its own:

* `fullBody`, `packetBody`   one iteration of the loops of `get_full_buffers` and
                             `get_next_packet`, given the status it has read;
* `Pc`                       where the software is, with the locals of the function it is in;
* `Drain`                    the state: members, descriptor memory, buffer memory, engine, and the
                             two logs `stored` (blocks completed by the engine, in order) and
                             `delivered` (vectors passed to `process_data`);
* `Act`, `Drain.step`        the actions.  An action that is not enabled changes nothing.

The engine stores the bytes of a block first (`Act.store`, only while `cmplt` of its descriptor is
`0`) and writes the status afterwards (`Act.complete`).
-/

namespace Udmaio
open Lib

/-! ## the loops of the two scans -/

/-- how an iteration ends: go on, return a result, throw -/
inductive Flow (σ : Type) where
  | cont (s : σ)
  | ret (s : σ) (r : List Nat)
  | throw (s : σ) (msg : String)

def Flow.state {σ : Type} : Flow σ → σ
  | .cont s => s
  | .ret s _ => s
  | .throw s _ => s

/-- locals of `get_full_buffers` -/
structure FullScan where
  i : Nat
  result : List Nat
deriving DecidableEq, Repr

/-- locals of `get_next_packet` -/
structure PacketScan where
  i : Nat
  n : Nat
  hasSof : Bool
  result : List Nat
deriving DecidableEq, Repr

def zeroLengthMsg (n : Nat) : String := s!"Descriptor #{n} yields zero buffer length"

namespace UioMemSgdma

def fullInit : FullScan := ⟨0, []⟩

/-- one iteration of `get_full_buffers`; `stat` is `desc_statuses[_next_readable_buf].rd()` -/
def fullBody (o : UioMemSgdma) (l : FullScan) (stat : S2mmDescStatus) :
    Flow (UioMemSgdma × FullScan) :=
  if !stat.cmplt then .ret (o, l) l.result
  else if stat.numStoredBytes = 0 then .throw (o, l) (zeroLengthMsg o.nextReadableBuf)
  else
    .cont ({ o with nextReadableBuf := (o.nextReadableBuf + 1) % o.nrCycDesc },
      { i := l.i + 1, result := l.result ++ [o.nextReadableBuf] })

def packetInit (o : UioMemSgdma) : PacketScan := ⟨0, o.nextReadableBuf, false, []⟩

/-- one iteration of `get_next_packet`; `stat` is `desc_statuses[n].rd()` -/
def packetBody (o : UioMemSgdma) (l : PacketScan) (stat : S2mmDescStatus) :
    Flow (UioMemSgdma × PacketScan) :=
  if !stat.cmplt then .ret (o, l) []
  else if stat.numStoredBytes = 0 then .throw (o, l) (zeroLengthMsg l.n)
  else
    let n := (l.n + 1) % o.nrCycDesc
    if !l.hasSof && !stat.rxsof then
      -- "buffer has no SOF, skipping"
      .cont ({ o with nextReadableBuf := n }, { l with i := l.i + 1, n := n })
    else
      let hasSof := l.hasSof || stat.rxsof
      let result := l.result ++ [l.n]
      if stat.rxeof then .ret ({ o with nextReadableBuf := n }, l) result
      else .cont (o, { i := l.i + 1, n := n, hasSof := hasSof, result := result })

theorem fullBody_nrCycDesc (o : UioMemSgdma) (l : FullScan) (stat : S2mmDescStatus) :
    (o.fullBody l stat).state.1.nrCycDesc = o.nrCycDesc := by
  unfold fullBody
  split_ifs <;> rfl

theorem packetBody_nrCycDesc (o : UioMemSgdma) (l : PacketScan) (stat : S2mmDescStatus) :
    (o.packetBody l stat).state.1.nrCycDesc = o.nrCycDesc := by
  unfold packetBody
  split_ifs <;> rfl

end UioMemSgdma

/-! ## the system -/

/-- a status that `read_buffers` has read, with the index it belongs to -/
abbrev Stat := Nat × S2mmDescStatus

/-- where the software is: outside the drain loop, at its `while (true)`, in one of the scans, in
the first loop of `read_buffers` (indices still to be read, statuses read), in its second loop
before the next copy or before the write-back that follows it, before `process_data` -/
inductive Pc where
  | out
  | top
  | full (l : FullScan)
  | packet (l : PacketScan)
  | stats (todo : List Nat) (done : List Stat)
  | copy (todo : List Stat) (result : List UInt8)
  | wrBack (cur : Stat) (todo : List Stat) (result : List UInt8)
  | process (bytes : List UInt8)
  | failed (msg : String)
deriving DecidableEq, Repr

/-- one completed descriptor: the bytes stored in its buffer and the status written -/
structure Block where
  bytes : List UInt8
  status : S2mmDescStatus
  cmplt : status.cmplt = true
  length : status.numStoredBytes.toNat = bytes.length
deriving DecidableEq, Repr

/-- the state; the engine works on descriptor `engPos` and has stored the bytes `engBuf` there while
the status is not yet written -/
structure Drain where
  o : UioMemSgdma
  descs : Nat → S2mmDesc
  phys : BitVec 64 → UInt8
  engPos : Nat
  engBuf : Option (List UInt8)
  pc : Pc
  stored : List Block
  delivered : List (List UInt8)

/-- `call receivePackets` is the next iteration of the drain loop, `sw` the next step of the
function the software is in -/
inductive Act where
  | store (bytes : List UInt8)
  | complete (status : S2mmDescStatus)
  | enter
  | call (receivePackets : Bool)
  | sw
deriving DecidableEq, Repr

/-- `desc_statuses[i].wr(st)` -/
def setStatus (descs : Nat → S2mmDesc) (i : Nat) (st : S2mmDescStatus) : Nat → S2mmDesc :=
  Function.update descs i { descs i with status := st }

theorem setStatus_self (descs : Nat → S2mmDesc) (i : Nat) (st : S2mmDescStatus) :
    (setStatus descs i st i).status = st := by
  simp [setStatus]

theorem setStatus_of_ne (descs : Nat → S2mmDesc) {i j : Nat} (st : S2mmDescStatus) (h : j ≠ i) :
    setStatus descs i st j = descs j := Function.update_of_ne h _ _

theorem setStatus_bufferAddr (descs : Nat → S2mmDesc) (i j : Nat) (st : S2mmDescStatus) :
    (setStatus descs i st j).bufferAddr = (descs j).bufferAddr := by
  by_cases h : j = i
  · subst h; simp [setStatus]
  · rw [setStatus_of_ne _ _ h]

namespace Drain

/-- the engine stores a block in the buffer of its descriptor -/
def engStore (s : Drain) (bytes : List UInt8) : Drain :=
  if s.engBuf = none ∧ (s.descs s.engPos).status.cmplt = false ∧ bytes.length ≤ s.o.bufSize then
    { s with phys := store s.phys (s.descs s.engPos).bufferAddr bytes, engBuf := some bytes }
  else s

/-- the engine writes the status of its descriptor and moves on to the next one -/
def engComplete (s : Drain) (st : S2mmDescStatus) : Drain :=
  match s.engBuf with
  | some bytes =>
    if h : st.cmplt = true ∧ st.numStoredBytes.toNat = bytes.length then
      { s with
        descs := setStatus s.descs s.engPos st
        engPos := (s.engPos + 1) % s.o.nrCycDesc
        engBuf := none
        stored := s.stored ++ [⟨bytes, st, h.1, h.2⟩] }
    else s
  | none => s

/-- a scan has returned `result`: leave the loop, or go on with `read_buffers` -/
def scanned (s : Drain) (result : List Nat) : Drain :=
  if result.isEmpty then { s with pc := .out } else { s with pc := .stats result [] }

def scanFlow {σ : Type} (s : Drain) (pcOf : σ → Pc) : Flow (UioMemSgdma × σ) → Drain
  | .cont (o', l') => { s with o := o', pc := pcOf l' }
  | .ret (o', _) r => { s with o := o' }.scanned r
  | .throw (o', _) msg => { s with o := o', pc := .failed msg }

def fullStep (s : Drain) (l : FullScan) : Drain :=
  if l.i < s.o.nrCycDesc then
    s.scanFlow .full (s.o.fullBody l (s.descs s.o.nextReadableBuf).status)
  else s.scanned l.result

def packetStep (s : Drain) (l : PacketScan) : Drain :=
  if l.i < s.o.nrCycDesc then s.scanFlow .packet (s.o.packetBody l (s.descs l.n).status)
  else s.scanned []

/-- the region that `read_buffers` copies for a status it has read -/
def region (s : Drain) (c : Stat) : UioRegion :=
  ⟨s.o.bufAddrs.getD c.1 0, c.2.numStoredBytes.toNat⟩

def swStep (s : Drain) : Drain :=
  match s.pc with
  | .out => s
  | .top => s
  | .full l => s.fullStep l
  | .packet l => s.packetStep l
  | .stats [] done => { s with pc := .copy done [] }
  | .stats (i :: todo) done => { s with pc := .stats todo (done ++ [(i, (s.descs i).status)]) }
  | .copy [] result => { s with pc := .process result }
  | .copy (c :: todo) result =>
    { s with pc := .wrBack c todo (appendFromBuf s.o.memAddr s.phys (s.region c) result) }
  | .wrBack c todo result =>
    -- clear the complete flag after having read the data
    { s with descs := setStatus s.descs c.1 { c.2 with cmplt := false }, pc := .copy todo result }
  | .process bytes => { s with delivered := s.delivered ++ [bytes], pc := .top }
  | .failed _ => s

def step (s : Drain) : Act → Drain
  | .store bytes => s.engStore bytes
  | .complete st => s.engComplete st
  | .enter => if s.pc = .out then { s with pc := .top } else s
  | .call receivePackets =>
    if s.pc = .top then
      { s with pc := if receivePackets then .packet s.o.packetInit else .full UioMemSgdma.fullInit }
    else s
  | .sw => s.swStep

/-- the state after `init_buffers(mem, n, bufSize)`, before the engine is started -/
def start (o : UioMemSgdma) (descs : Nat → S2mmDesc) (phys : BitVec 64 → UInt8)
    (memAddr : BitVec 64) (n bufSize : Nat) : Drain :=
  let r := o.initBuffers descs memAddr n bufSize
  { o := r.1, descs := r.2, phys := phys, engPos := 0, engBuf := none, pc := .out, stored := []
    delivered := [] }

/-! ## what a step cannot change -/

/-- a store changes the buffer memory only -/
theorem engStore_cases (s : Drain) (bytes : List UInt8) :
    ∃ phys buf, s.engStore bytes = { s with phys := phys, engBuf := buf } := by
  unfold engStore
  split
  · exact ⟨_, _, rfl⟩
  · exact ⟨s.phys, s.engBuf, rfl⟩

theorem scanned_frame (s : Drain) (r : List Nat) :
    (s.scanned r).stored = s.stored ∧ (s.scanned r).o = s.o := by
  unfold scanned
  split <;> exact ⟨rfl, rfl⟩

theorem scanFlow_frame {σ : Type} (s : Drain) (pcOf : σ → Pc) (f : Flow (UioMemSgdma × σ)) :
    (s.scanFlow pcOf f).stored = s.stored ∧ (s.scanFlow pcOf f).o = f.state.1 := by
  cases f with
  | cont p => exact ⟨rfl, rfl⟩
  | ret p r => exact scanned_frame _ r
  | throw p msg => exact ⟨rfl, rfl⟩

/-- the software writes no log of the engine and does not resize the ring -/
theorem swStep_frame (s : Drain) :
    s.swStep.stored = s.stored ∧ s.swStep.o.nrCycDesc = s.o.nrCycDesc := by
  unfold swStep
  split
  case h_3 l _ =>
    unfold fullStep
    split
    · rw [(scanFlow_frame s _ _).1, (scanFlow_frame s _ _).2, UioMemSgdma.fullBody_nrCycDesc]
      exact ⟨rfl, rfl⟩
    · rw [(scanned_frame s _).1, (scanned_frame s _).2]
      exact ⟨rfl, rfl⟩
  case h_4 l _ =>
    unfold packetStep
    split
    · rw [(scanFlow_frame s _ _).1, (scanFlow_frame s _ _).2, UioMemSgdma.packetBody_nrCycDesc]
      exact ⟨rfl, rfl⟩
    · rw [(scanned_frame s _).1, (scanned_frame s _).2]
      exact ⟨rfl, rfl⟩
  all_goals exact ⟨rfl, rfl⟩

/-- no call is in progress -/
def idle (s : Drain) : Bool :=
  match s.pc with
  | .out => true
  | .top => true
  | .process _ => true
  | _ => false

/-- the step takes the branch of `get_next_packet` that skips a buffer without SOF -/
def skips (s : Drain) (a : Act) : Bool :=
  match a, s.pc with
  | .sw, .packet l =>
    let stat := (s.descs l.n).status
    decide (l.i < s.o.nrCycDesc) && stat.cmplt && decide (stat.numStoredBytes ≠ 0) &&
      (!l.hasSof && !stat.rxsof)
  | _, _ => false

theorem skips_packet {s : Drain} {l : PacketScan} (hpc : s.pc = .packet l) :
    s.skips .sw = true ↔ l.i < s.o.nrCycDesc ∧ (s.descs l.n).status.cmplt = true ∧
      (s.descs l.n).status.numStoredBytes ≠ 0 ∧ l.hasSof = false ∧
      (s.descs l.n).status.rxsof = false := by
  unfold skips
  rw [hpc]
  simp only [Bool.and_eq_true, decide_eq_true_eq, Bool.not_eq_true', and_assoc]

theorem packet_of_skips {s : Drain} {a : Act} (h : s.skips a = true) :
    a = .sw ∧ ∃ l, s.pc = .packet l := by
  unfold skips at h
  split at h
  · rename_i l hpc
    exact ⟨rfl, l, hpc⟩
  · cases h

end Drain

end Udmaio
