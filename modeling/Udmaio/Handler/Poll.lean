import Udmaio.Handler.Reads

/-!
# `DataHandlerPython::numpy_read_nb`

The polling interface: no I/O thread and no queue, every call checks the status register, scans the
ring once and copies what the scan has found, while the engine goes on.

* `Poll`, `Poll.step`    the caller and the engine.  `PollRet` is what a call gives back, with the
                         blocks that were complete and the status register when it was made;
* `Covers`               some vectors contain everything that a list of blocks has to deliver;
* `Inv.sw_failed`        a scan throws only at an empty block;
* `read_nb_in_order`     **the vectors returned are the stream, or its packets, in order**, and a
                         call throws exactly if the status register shows an error;
* `read_nb_empty`        **a call that returns nothing has missed nothing** of what was complete
                         when it was made.
-/

namespace Udmaio
open Lib

/-! ## the system -/

/-- the blocks that are complete when a call is made, and the status register that it reads -/
structure PollCall where
  since : List Block
  sr : S2mmDmasr

structure PollRet extends PollCall where
  value : Except String (List UInt8)

/-- what the caller gets if the call returns some data -/
def PollRet.data? (r : PollRet) : Option (List UInt8) :=
  match r.value with
  | .ok bytes => if bytes.isEmpty then none else some bytes
  | .error _ => none

/-- `call`: the call in progress -/
structure Poll where
  receivePackets : Bool
  d : Drain
  sr : S2mmDmasr
  call : Option PollCall
  results : List PollRet

inductive PollAct where
  | store (bytes : List UInt8)
  | complete (status : S2mmDescStatus)
  | reg (sr : S2mmDmasr)
  | call
  | sw

def dmaErrorMsg : String := "DMA has experienced an error"

/-- the data returned by the calls, in order -/
def gotData (results : List PollRet) : List (List UInt8) := results.filterMap PollRet.data?

namespace Poll

/-- the call returns -/
def ret (p : Poll) (c : PollCall) (value : Except String (List UInt8)) : Poll :=
  { p with call := none, results := p.results ++ [⟨c, value⟩] }

def begin (p : Poll) : Poll :=
  if checkForErrors p.sr then p.ret ⟨p.d.stored, p.sr⟩ (.error dmaErrorMsg)
  else
    { p with
      d := (p.d.step .enter).step (.call p.receivePackets)
      call := some ⟨p.d.stored, p.sr⟩ }

def swStep (p : Poll) (c : PollCall) : Poll :=
  match p.d.pc with
  -- the scan has found nothing, and `read_buffers` on no index is the empty vector
  | .out => p.ret c (.ok [])
  | .process bytes => { p with d := p.d.step .sw }.ret c (.ok bytes)
  | .failed msg => { p with d := { p.d with pc := .out } }.ret c (.error msg)
  | _ => { p with d := p.d.step .sw }

def step (p : Poll) : PollAct → Poll
  | .store bytes => { p with d := p.d.engStore bytes }
  | .complete st => { p with d := p.d.engComplete st }
  | .reg sr => { p with sr := sr }
  | .call =>
    match p.call with
    | none => p.begin
    | some _ => p
  | .sw =>
    match p.call with
    | none => p
    | some c => p.swStep c

/-- after `start(nr_pkts, pkt_size, init_only = true)` -/
def start (receivePackets : Bool) (d : Drain) : Poll :=
  { receivePackets := receivePackets, d := d, sr := {}, call := none, results := [] }

end Poll

/-! ## an engine that stores no empty block -/

theorem Block.numStoredBytes_ne {b : Block} (h : b.bytes ≠ []) : b.status.numStoredBytes ≠ 0 := by
  intro e
  have hlen := b.length
  rw [e] at hlen
  exact h (List.length_eq_zero_iff.mp hlen.symm)

namespace Drain

/-- a complete descriptor is not the one that the engine works on -/
theorem Ring.filled_engComplete {s : Drain} {R : Nat} (h : Ring s R) (st : S2mmDescStatus) {i : Nat}
    (hf : (s.descs i).status.filled = true) :
    ((s.engComplete st).descs i).status.filled = true := by
  rcases engComplete_cases s st with e | ⟨b, -, hbuf, e⟩
  · rw [e]
    exact hf
  · have hroom := (h.engBuf _ hbuf).1
    have hfree : s.Free s.engPos := by
      refine h.holds.rest _ (fun j hj hj' e' => ?_) h.engPos_lt
      rw [h.engPos] at e'
      exact h.holds.slot_ne hroom hj hj' e'
    have hne : i ≠ s.engPos := by
      rintro rfl
      exact Bool.noConfusion ((filled_iff.mp hf).1.symm.trans hfree)
    rw [e]
    show (setStatus s.descs s.engPos _ i).status.filled = true
    rw [setStatus_of_ne _ _ hne]
    exact hf

theorem NonEmpty.engStore {s : Drain} (h : s.NonEmpty) (bs : List UInt8) :
    (s.engStore bs).NonEmpty := by
  obtain ⟨phys, buf, e⟩ := engStore_cases s bs
  rw [e]
  exact ⟨h.delivered, h.pc⟩

theorem NonEmpty.engComplete {s : Drain} {R : Nat} (h : s.NonEmpty) (hr : Ring s R)
    (st : S2mmDescStatus) : (s.engComplete st).NonEmpty := by
  have hpc := h.pc.mono fun i hf => hr.filled_engComplete st (i := i) hf
  rcases engComplete_cases s st with e | ⟨b, -, -, e⟩
  · rw [e]
    exact h
  · rw [e] at hpc ⊢
    exact ⟨h.delivered, hpc⟩

theorem scanned_failed {s : Drain} {r : List Nat} (msg : String) :
    (s.scanned r).pc ≠ .failed msg := by
  unfold scanned
  split <;> exact Pc.noConfusion

theorem scanFlow_failed {σ : Type} {s : Drain} {pcOf : σ → Pc} {f : Flow (UioMemSgdma × σ)}
    {msg : String} (hpc : ∀ l, pcOf l ≠ .failed msg) (hf : ∀ p m, f ≠ .throw p m) :
    (s.scanFlow pcOf f).pc ≠ .failed msg := by
  cases f with
  | cont p => exact hpc p.2
  | ret p r => exact scanned_failed msg
  | throw p m => exact absurd rfl (hf p m)

theorem fullBody_ne_throw {o : UioMemSgdma} {l : FullScan} {st : S2mmDescStatus}
    (h : st.cmplt = true → st.numStoredBytes ≠ 0) (p : UioMemSgdma × FullScan) (m : String) :
    o.fullBody l st ≠ .throw p m := by
  intro e
  unfold UioMemSgdma.fullBody at e
  split_ifs at e with h1 h2
  exact h (by simpa using h1) h2

theorem packetBody_ne_throw {o : UioMemSgdma} {l : PacketScan} {st : S2mmDescStatus}
    (h : st.cmplt = true → st.numStoredBytes ≠ 0) (p : UioMemSgdma × PacketScan) (m : String) :
    o.packetBody l st ≠ .throw p m := by
  intro e
  unfold UioMemSgdma.packetBody at e
  split_ifs at e with h1 h2
  exact h (by simpa using h1) h2

/-- **A scan throws only at an empty block.** -/
theorem Inv.sw_failed {D : Delivery} {s : Drain} (h : Inv D s) (hne : ∀ b ∈ s.stored, b.bytes ≠ [])
    (hpc : ∀ msg, s.pc ≠ .failed msg) (msg : String) : s.swStep.pc ≠ .failed msg := by
  obtain ⟨taken, dn, td, hr, hp, -, ht⟩ := h
  -- a complete descriptor of the window holds a block of the log
  have hblock : ∀ {p : List Block} {i : Nat},
      p <+: s.stored → p.length = taken.length + dn.length + i →
      i < s.o.nrCycDesc →
      (s.descs ((taken.length + dn.length + i) % s.o.nrCycDesc)).status.cmplt = true →
      (s.descs ((taken.length + dn.length + i) % s.o.nrCycDesc)).status.numStoredBytes ≠ 0 := by
    intro p i hp hlen hi hc
    obtain ⟨b, hb, hst⟩ := hr.next_block hp hlen hi hc
    rw [hst]
    exact Block.numStoredBytes_ne (hne b (hb.subset (by simp)))
  unfold Thread at ht
  unfold swStep
  cases hs : s.pc with
  | full l =>
    rw [hs] at ht
    obtain ⟨-, rfl, rfl, hn⟩ := ht
    dsimp only
    unfold fullStep
    split
    · next hi =>
      refine scanFlow_failed (fun _ => Pc.noConfusion) (fullBody_ne_throw fun hc => ?_)
      rw [hn] at hc ⊢
      exact hblock hp (by simp) hi hc
    · exact scanned_failed msg
  | packet l =>
    rw [hs] at ht
    obtain ⟨-, -, rfl, rfl, hn⟩ := ht
    dsimp only
    unfold packetStep
    split
    · next hi =>
      refine scanFlow_failed (fun _ => Pc.noConfusion) (packetBody_ne_throw fun hc => ?_)
      exact hblock hp (by simp) hi hc
    · exact scanned_failed msg
  | stats todo done => cases todo <;> exact Pc.noConfusion
  | copy todo result => cases todo <;> exact Pc.noConfusion
  | failed m => exact absurd hs (hpc m)
  | out => dsimp only; rw [hs]; exact Pc.noConfusion
  | top => dsimp only; rw [hs]; exact Pc.noConfusion
  | wrBack c todo result => exact Pc.noConfusion
  | process bytes => exact Pc.noConfusion

end Drain

/-! ## what the calls have returned -/

def Covers (receivePackets : Bool) (got : List (List UInt8)) (bs : List Block) : Prop :=
  if receivePackets then (framing bs).packets <+: got else blockBytes bs <+: got.flatten

/-- outside the drain loop a drained ring has delivered every block -/
theorem Drain.Inv.covers {s : Drain} {rp : Bool} (h : Drain.Inv (Drain.modeDelivery rp) s)
    (hpc : s.pc = .out) (hd : s.Drained rp) {bs : List Block} (hbs : bs <+: s.stored) :
    Covers rp s.delivered bs := by
  obtain ⟨taken, td, hst, hlog, htd⟩ := h.drained hpc hd
  obtain ⟨more, hmore⟩ := hbs
  unfold Covers
  cases rp with
  | false =>
    have hlog' : s.delivered.flatten = blockBytes taken := hlog
    rcases htd with rfl | ⟨hrp, -⟩
    · rw [List.append_nil] at hst
      rw [if_neg Bool.false_ne_true, hlog', ← hst, ← hmore, blockBytes_append]
      exact List.prefix_append _ _
    · cases hrp
  | true =>
    have hlog' : s.delivered = (framing taken).packets := hlog.1
    have hopen : ∀ b ∈ td, b.status.rxeof = false := by
      rcases htd with rfl | ⟨-, h⟩
      · exact fun b hb => absurd hb List.not_mem_nil
      · exact h
    have hall : (framing s.stored).packets = (framing taken).packets := by
      rw [hst, framing_append, Framing.foldl_add_open td hopen]
    rw [if_pos rfl, hlog', ← hall, ← hmore, framing_append]
    exact Framing.foldl_add_packets _ _

theorem gotData_snoc (results : List PollRet) (r : PollRet) :
    gotData (results ++ [r]) = gotData results ++ r.data?.toList := by
  unfold gotData
  rw [List.filterMap_append]
  cases h : r.data? <;> simp [h]

/-- a call that the status register forbids throws, and no other call does -/
def PollRet.Checked (r : PollRet) : Prop :=
  (checkForErrors r.sr = true → r.value = .error dmaErrorMsg) ∧
    ∀ msg, r.value = .error msg → msg = dmaErrorMsg ∧ checkForErrors r.sr = true

namespace Poll

/-- the stream is one that the mode can take, and no block is empty -/
def Good (p : Poll) : Prop :=
  p.d.StreamOk p.receivePackets ∧ ∀ b ∈ p.d.stored, b.bytes ≠ []

structure Inv (p : Poll) : Prop where
  drain : Drain.Inv (Drain.modeDelivery p.receivePackets) p.d
  chunks : p.d.NonEmpty
  live : ∀ msg, p.d.pc ≠ .failed msg
  log : p.d.delivered = gotData p.results
  call : ∀ c, p.call = some c → checkForErrors c.sr = false ∧ c.since <+: p.d.stored ∧
    (p.d.pc = .out → Covers p.receivePackets p.d.delivered c.since)
  empties : ∀ rs r rs', p.results = rs ++ r :: rs' → r.value = .ok [] →
    Covers p.receivePackets (gotData rs) r.since
  checked : ∀ r ∈ p.results, r.Checked

/-- a step changes the ring by steps of the drain loop, or puts a scan that has thrown aside -/
theorem step_frame (p : Poll) (a : PollAct) :
    p.d.stored <+: (p.step a).d.stored ∧ (p.step a).d.o.nrCycDesc = p.d.o.nrCycDesc ∧
      (p.step a).receivePackets = p.receivePackets := by
  have hsame : p.d.stored <+: p.d.stored ∧ p.d.o.nrCycDesc = p.d.o.nrCycDesc ∧
      p.receivePackets = p.receivePackets := ⟨List.prefix_refl _, rfl, rfl⟩
  have hstep : ∀ b, p.d.stored <+: (p.d.step b).stored ∧
      (p.d.step b).o.nrCycDesc = p.d.o.nrCycDesc := fun b => p.d.step_frame b
  unfold step
  cases a with
  | store bytes => exact ⟨(hstep (.store bytes)).1, (hstep (.store bytes)).2, rfl⟩
  | complete st => exact ⟨(hstep (.complete st)).1, (hstep (.complete st)).2, rfl⟩
  | reg sr => exact hsame
  | call =>
    dsimp only
    split
    · unfold begin
      split
      · exact hsame
      · have h2 := (p.d.step .enter).step_frame (.call p.receivePackets)
        exact ⟨(hstep .enter).1.trans h2.1, h2.2.trans (hstep .enter).2, rfl⟩
    · exact hsame
  | sw =>
    dsimp only
    split
    · exact hsame
    · unfold swStep
      split
      · exact hsame
      · exact ⟨(hstep .sw).1, (hstep .sw).2, rfl⟩
      · exact hsame
      · exact ⟨(hstep .sw).1, (hstep .sw).2, rfl⟩

theorem Good.of_step {p : Poll} {a : PollAct} (h : (p.step a).Good) : p.Good := by
  obtain ⟨hpre, hN, hrp⟩ := p.step_frame a
  refine ⟨fun e => ?_, fun b hb => h.2 b (hpre.subset hb)⟩
  have hw := h.1 (hrp.trans e)
  rw [hN] at hw
  exact hw.of_prefix hpre

variable {p : Poll}

/-- a step of the engine -/
theorem Inv.engine (h : p.Inv) {d' : Drain}
    (hdrain : Drain.Inv (Drain.modeDelivery p.receivePackets) d') (hne : d'.NonEmpty)
    (hpc : d'.pc = p.d.pc) (hdel : d'.delivered = p.d.delivered) (hst : p.d.stored <+: d'.stored) :
    ({ p with d := d' } : Poll).Inv where
  drain := hdrain
  chunks := hne
  live msg := by
    show d'.pc ≠ _
    rw [hpc]
    exact h.live msg
  log := hdel.trans h.log
  call c hc := by
    obtain ⟨h1, h2, h3⟩ := h.call c hc
    refine ⟨h1, h2.trans hst, fun hout => ?_⟩
    show Covers p.receivePackets d'.delivered c.since
    rw [hdel]
    exact h3 (hpc.symm.trans hout)
  empties := h.empties
  checked := h.checked

/-- a call that returns with `value`, from a ring that has moved on to `d'` -/
theorem Inv.ret (h : p.Inv) (d' : Drain) {c : PollCall} {value : Except String (List UInt8)}
    (hdrain : Drain.Inv (Drain.modeDelivery p.receivePackets) d') (hne : d'.NonEmpty)
    (hlive : ∀ msg, d'.pc ≠ .failed msg)
    (hlog : d'.delivered = p.d.delivered ++ (PollRet.data? ⟨c, value⟩).toList)
    (hempty : value = .ok [] → Covers p.receivePackets p.d.delivered c.since)
    (hchecked : PollRet.Checked ⟨c, value⟩) :
    (({ p with d := d' } : Poll).ret c value).Inv where
  drain := hdrain
  chunks := hne
  live := hlive
  log := by
    show d'.delivered = gotData (p.results ++ [_])
    rw [hlog, gotData_snoc, h.log]
  call c' hc := by cases hc
  empties rs r rs' e hv := by
    have e' : p.results ++ [⟨c, value⟩] = rs ++ r :: rs' := e
    rcases List.eq_nil_or_concat rs' with rfl | ⟨rs'', r', rfl⟩
    · obtain ⟨e1, e2⟩ := List.append_inj' e' rfl
      obtain rfl := (List.cons.inj e2).1
      show Covers p.receivePackets (gotData rs) c.since
      rw [← e1, ← h.log]
      exact hempty hv
    · have e2 : p.results ++ [⟨c, value⟩] = (rs ++ r :: rs'') ++ [r'] := by simpa using e'
      obtain ⟨e3, -⟩ := List.append_inj' e2 rfl
      exact h.empties rs r rs'' e3 hv
  checked r hr := by
    rcases List.mem_append.mp hr with hr | hr
    · exact h.checked r hr
    · rw [List.mem_singleton.mp hr]
      exact hchecked

/-- the call of a scan does not leave the loop, throws nothing and delivers nothing -/
theorem call_frame (d : Drain) (rp : Bool) :
    ((d.step .enter).step (.call rp)).pc ≠ .out ∧
      ((∀ msg, d.pc ≠ .failed msg) → ∀ msg, ((d.step .enter).step (.call rp)).pc ≠ .failed msg) ∧
      ((d.step .enter).step (.call rp)).delivered = d.delivered := by
  have hscan : ∀ msg, (if rp = true then Pc.packet d.o.packetInit else Pc.full UioMemSgdma.fullInit)
      ≠ .failed msg := by
    intro msg
    split <;> exact Pc.noConfusion
  have hout : (if rp = true then Pc.packet d.o.packetInit else Pc.full UioMemSgdma.fullInit)
      ≠ .out := by
    split <;> exact Pc.noConfusion
  by_cases h1 : d.pc = .out
  · simp only [Drain.step, h1, if_true]
    exact ⟨hout, fun _ => hscan, trivial⟩
  · by_cases h2 : d.pc = .top
    · simp only [Drain.step, h2, if_true, if_neg (show Pc.top ≠ Pc.out from Pc.noConfusion)]
      exact ⟨hout, fun _ => hscan, trivial⟩
    · simp only [Drain.step, if_neg h1, if_neg h2]
      exact ⟨h1, fun h => h, trivial⟩

theorem Inv.begin (h : p.Inv) (hg : p.Good) : p.begin.Inv := by
  unfold Poll.begin
  split
  · next herr =>
    refine h.ret p.d h.drain h.chunks h.live ?_ (fun e => by cases e)
      ⟨fun _ => rfl, fun msg e => ?_⟩
    · exact (List.append_nil _).symm
    · injection e with e
      exact ⟨e.symm, herr⟩
  · next herr =>
    obtain ⟨hout, hfail, hdel⟩ := call_frame p.d p.receivePackets
    have hd1 := h.drain.mode_step hg.1 .enter fun m e => by cases e
    have hg1 : (p.d.step .enter).StreamOk p.receivePackets := by
      obtain ⟨hrp, hst⟩ : (p.d.step .enter).o = p.d.o ∧ (p.d.step .enter).stored = p.d.stored := by
        unfold Drain.step
        dsimp only
        split <;> exact ⟨rfl, rfl⟩
      unfold Drain.StreamOk
      rw [hrp, hst]
      exact hg.1
    have hd2 := hd1.mode_step hg1 (.call p.receivePackets) fun m e => by
      injection e with e
      exact e.symm
    refine ⟨hd2, h.chunks.enter.call _, hfail h.live, ?_, ?_, h.empties, h.checked⟩
    · exact hdel.trans h.log
    · intro c hc
      obtain rfl := Option.some.inj hc
      refine ⟨Bool.eq_false_iff.mpr herr, ?_, fun e => absurd e hout⟩
      exact (p.d.step_frame .enter).1.trans ((p.d.step .enter).step_frame _).1

/-- a call that has passed the check returns some value -/
theorem checked_ok {c : PollCall} (h : checkForErrors c.sr = false) (bytes : List UInt8) :
    PollRet.Checked ⟨c, .ok bytes⟩ := by
  refine ⟨fun he => ?_, fun msg e => by cases e⟩
  rw [h] at he
  cases he

theorem Inv.swStep (h : p.Inv) (hg : p.Good) {c : PollCall} (hc : p.call = some c) :
    (p.swStep c).Inv := by
  obtain ⟨hsr, hbs, hout⟩ := h.call c hc
  have hd := h.drain.mode_step hg.1 .sw fun m e => by cases e
  have hlive := h.drain.sw_failed hg.2 h.live
  unfold Poll.swStep
  split
  · next hpc =>
    refine h.ret p.d h.drain h.chunks h.live ?_ (fun _ => hout hpc) (checked_ok hsr [])
    exact (List.append_nil _).symm
  · next bytes hpc =>
    have hne : bytes ≠ [] := by
      have := h.chunks.pc
      rw [hpc] at this
      exact this
    have hdata : (PollRet.data? ⟨c, .ok bytes⟩).toList = [bytes] := by
      simp [PollRet.data?, hne]
    refine h.ret _ hd h.chunks.swStep hlive ?_ (fun e => ?_) (checked_ok hsr bytes)
    · rw [hdata]
      simp only [Drain.step, Drain.swStep, hpc]
    · injection e with e
      exact absurd e hne
  · next msg hpc => exact absurd hpc (h.live msg)
  · next hne hproc _ =>
    have hdel : (p.d.step .sw).delivered = p.d.delivered := p.d.swStep_delivered hproc
    refine ⟨hd, h.chunks.swStep, hlive, hdel.trans h.log, fun c' hc' => ?_, h.empties, h.checked⟩
    rw [hc] at hc'
    obtain rfl := Option.some.inj hc'
    have hpre : c.since <+: (p.d.step .sw).stored := hbs.trans (p.d.step_frame .sw).1
    exact ⟨hsr, hpre, fun he => hd.covers he (h.drain.sw_out hne he) hpre⟩

theorem Inv.step (h : p.Inv) (hg : p.Good) (a : PollAct) : (p.step a).Inv := by
  obtain ⟨taken, dn, td, hr, -⟩ := h.drain
  unfold Poll.step
  cases a with
  | store bytes =>
    refine h.engine (h.drain.store bytes) (h.chunks.engStore bytes) (p.d.pc_engStore bytes) ?_ ?_
    · obtain ⟨phys, buf, e⟩ := Drain.engStore_cases p.d bytes
      rw [e]
    · exact (p.d.step_frame (.store bytes)).1
  | complete st =>
    refine h.engine (h.drain.complete st) (h.chunks.engComplete hr st) (p.d.pc_engComplete st) ?_ ?_
    · rcases Drain.engComplete_cases p.d st with e | ⟨b, -, -, e⟩ <;> rw [e]
    · exact (p.d.step_frame (.complete st)).1
  | reg sr => exact ⟨h.drain, h.chunks, h.live, h.log, h.call, h.empties, h.checked⟩
  | call =>
    dsimp only
    split
    · exact h.begin hg
    · exact h
  | sw =>
    dsimp only
    split
    · exact h
    · next c hc => exact h.swStep hg hc

section
variable (receivePackets : Bool) (o : UioMemSgdma) (descs : Nat → S2mmDesc)
  (phys : BitVec 64 → UInt8) (memAddr : BitVec 64) {n bufSize : Nat} (acts : List PollAct)

theorem Inv.start (hn : 0 < n) (fit : n * bufSize ≤ 2^64) :
    (start receivePackets (Drain.start o descs phys memAddr n bufSize)).Inv where
  drain := Drain.Inv.start _ o descs phys memAddr hn fit
  chunks := ⟨fun v hv => absurd hv List.not_mem_nil, trivial⟩
  live _ := Pc.noConfusion
  log := rfl
  call _ e := by cases e
  empties rs r rs' e := by simp [Poll.start] at e
  checked _ hr := absurd hr List.not_mem_nil

theorem run_inv_of_good (hn : 0 < n) (fit : n * bufSize ≤ 2^64)
    (hf : receivePackets = true → WellFramed n (Lib.run step (start receivePackets
      (Drain.start o descs phys memAddr n bufSize)) acts).d.stored)
    (hne : ∀ b ∈ (Lib.run step (start receivePackets
      (Drain.start o descs phys memAddr n bufSize)) acts).d.stored, b.bytes ≠ []) :
    let p := Lib.run step (start receivePackets (Drain.start o descs phys memAddr n bufSize)) acts
    p.receivePackets = receivePackets ∧ p.Inv := by
  intro p
  have hframe : p.receivePackets = receivePackets ∧ p.d.o.nrCycDesc = n := by
    refine run_inv' (P := fun q : Poll => q.receivePackets = receivePackets ∧ q.d.o.nrCycDesc = n)
      (fun q a hq => ?_) acts ⟨rfl, UioMemSgdma.initBuffers_nrCycDesc o descs memAddr n bufSize⟩
    obtain ⟨-, hN, hrp⟩ := q.step_frame a
    exact ⟨hrp.trans hq.1, hN.trans hq.2⟩
  have hinv : p.Good → p.Inv :=
    run_inv' (P := fun q : Poll => q.Good → q.Inv)
      (fun q a hq hg => (hq hg.of_step).step hg.of_step a) acts
      (fun _ => Inv.start receivePackets o descs phys memAddr hn fit)
  refine ⟨hframe.1, hinv ⟨fun e => ?_, hne⟩⟩
  rw [hframe.2]
  exact hf (hframe.1.symm.trans e)

/-- one call while a packet is complete, one while none is, one while the register shows an error -/
def pollRun : List PollAct :=
  .store [1, 2] :: .complete (Drain.engStatus 2 true true) :: .call ::
    (List.replicate 7 .sw ++ [.store [3], .call, .sw, .complete (Drain.engStatus 1 true false), .sw,
      .reg { dmaSlvErr := true }, .call])

/-- **`numpy_read_nb` returns the stream in order**, one packet a call in packet mode, however the
calls and the engine interleave; and it throws if and only if the status register shows an error. -/
theorem read_nb_in_order (hn : 0 < n) (fit : n * bufSize ≤ 2^64)
    (hf : receivePackets = true → WellFramed n (Lib.run step (start receivePackets
      (Drain.start o descs phys memAddr n bufSize)) acts).d.stored)
    (hne : ∀ b ∈ (Lib.run step (start receivePackets
      (Drain.start o descs phys memAddr n bufSize)) acts).d.stored, b.bytes ≠ []) :
    let p := Lib.run step (start receivePackets (Drain.start o descs phys memAddr n bufSize)) acts
    (receivePackets = false → (gotData p.results).flatten <+: blockBytes p.d.stored) ∧
      (receivePackets = true → gotData p.results <+: (framing p.d.stored).packets) ∧
      ∀ r ∈ p.results, (checkForErrors r.sr = true → r.value = .error dmaErrorMsg) ∧
        ∀ msg, r.value = .error msg → msg = dmaErrorMsg ∧ checkForErrors r.sr = true := by
  intro p
  obtain ⟨hrp, hi⟩ := run_inv_of_good receivePackets o descs phys memAddr acts hn fit hf hne
  have hlog : p.d.delivered = gotData p.results := hi.log
  have hd := hi.drain
  rw [hrp] at hd
  refine ⟨?_, ?_, hi.checked⟩
  · rintro rfl
    rw [← hlog]
    exact hd.delivered_prefix_stream
  · rintro rfl
    rw [← hlog]
    exact hd.delivered_prefix_packets

/-- the packet is returned, and the last call throws -/
theorem read_nb_in_order_pollRun :
    let p := Lib.run step (start true (Drain.sample 2 4)) pollRun
    gotData p.results = [[1, 2]] ∧ gotData p.results <+: (framing p.d.stored).packets ∧
      ∃ r, p.results.getLast? = some r ∧ checkForErrors r.sr = true ∧
        r.value = .error dmaErrorMsg := by
  intro p
  obtain ⟨-, hpackets, hthrow⟩ := @read_nb_in_order true ⟨0xa0000000, 0, 0, 0, [], 0⟩ noDescs
    (fun _ => 0) 0x80000000 2 4 pollRun (by decide) (by decide) (by decide +kernel)
      (by decide +kernel)
  have hlast : p.results.getLast?
      = some ⟨⟨p.d.stored, { dmaSlvErr := true }⟩, .error dmaErrorMsg⟩ :=
    rfl
  have hmem := List.mem_of_getLast? hlast
  exact ⟨by decide +kernel, hpackets rfl, _, hlast, rfl, (hthrow _ hmem).1 rfl⟩

/-- **A call of `numpy_read_nb` that returns nothing has missed nothing**: the calls before it have
returned everything that was complete when it was made. -/
theorem read_nb_empty (hn : 0 < n) (fit : n * bufSize ≤ 2^64)
    (hf : receivePackets = true → WellFramed n (Lib.run step (start receivePackets
      (Drain.start o descs phys memAddr n bufSize)) acts).d.stored)
    (hne : ∀ b ∈ (Lib.run step (start receivePackets
      (Drain.start o descs phys memAddr n bufSize)) acts).d.stored, b.bytes ≠ []) :
    let p := Lib.run step (start receivePackets (Drain.start o descs phys memAddr n bufSize)) acts
    ∀ rs r rs', p.results = rs ++ r :: rs' → r.value = .ok [] →
      Covers receivePackets (gotData rs) r.since := by
  intro p rs r rs' e hv
  obtain ⟨hrp, hi⟩ := run_inv_of_good receivePackets o descs phys memAddr acts hn fit hf hne
  have h := hi.empties rs r rs' e hv
  rw [hrp] at h
  exact h

theorem read_nb_empty_pollRun :
    ∃ r1 r2 r3, (Lib.run step (start true (Drain.sample 2 4)) pollRun).results = [r1, r2, r3] ∧
      r2.value = .ok [] ∧ gotData [r1] = [[1, 2]] ∧ Covers true (gotData [r1]) r2.since := by
  refine ⟨_, _, _, rfl, rfl, rfl, ?_⟩
  exact @read_nb_empty true ⟨0xa0000000, 0, 0, 0, [], 0⟩ noDescs (fun _ => 0) 0x80000000 2 4 pollRun
    (by decide) (by decide) (by decide +kernel) (by decide +kernel) [_] _ [_] rfl rfl

end

end Poll

end Udmaio
