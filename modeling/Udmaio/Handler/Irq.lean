import Udmaio.Dma.Regs
import Udmaio.Sgdma.Packet

/-!
# The interrupt path of `DataHandlerAbstract`

`_start_read` arms the interrupt and waits; `_handle_input` reads the DMA status register, clears
the bits it has read as 1, drains the ring if `ioc_irq` was one of them, and starts over.  The
engine sets `ioc_irq` some time after it has written the status of a descriptor: for every
descriptor in stream mode, for descriptors with `rxeof` in packet mode.

* `Handler`, `Handler.step`   the drain loop of `Udmaio.Sgdma.Drain` inside the handler, with the
                              status register `sr` and the number `owed` of interrupts that the
                              engine has not raised yet;
* `Drained`                   nothing to deliver is left in the ring;
* `Inv.sw_out`                a scan that comes back empty leaves the ring drained, at the moment of
                              its last status read;
* `no_lost_interrupt`         **while the handler waits with `ioc_irq` clear and none owed, no data
                              is waiting.**
-/

namespace Udmaio
open Lib

/-! ## the system -/

inductive HPc where
  | wait
  | rdSr
  | wrSr (stat : S2mmDmasr)
  | check (stat : S2mmDmasr)
  | drain
  | rearm
  | failed (msg : String)
deriving DecidableEq, Repr

structure Handler where
  receivePackets : Bool
  d : Drain
  sr : S2mmDmasr
  owed : Nat
  pc : HPc

inductive HAct where
  | store (bytes : List UInt8)
  | complete (status : S2mmDescStatus)
  | raise
  | sw
deriving DecidableEq, Repr

namespace Handler

/-- the interrupts that a completion with status `st` calls for -/
def iocDue (h : Handler) (st : S2mmDescStatus) : Nat :=
  if !h.receivePackets || st.rxeof then 1 else 0

/-- the engine completes its descriptor; the interrupt comes later -/
def complete (h : Handler) (st : S2mmDescStatus) : Handler :=
  let d' := h.d.engComplete st
  if h.d.stored.length < d'.stored.length then { h with d := d', owed := h.owed + h.iocDue st }
  else h

def raise (h : Handler) : Handler :=
  if 0 < h.owed then { h with sr := { h.sr with iocIrq := true }, owed := h.owed - 1 } else h

/-- after the error check of `_handle_input` -/
def checked (h : Handler) (stat : S2mmDmasr) : Handler :=
  if stat.iocIrq then { h with d := h.d.step .enter, pc := .drain } else { h with pc := .rearm }

/-- the drain loop: its next step, until the `break` -/
def drainStep (h : Handler) : Handler :=
  match h.d.pc with
  | .out => { h with pc := .rearm }
  | .top => { h with d := h.d.step (.call h.receivePackets) }
  | .failed msg => { h with pc := .failed msg }
  | _ => { h with d := h.d.step .sw }

def swStep (h : Handler) : Handler :=
  match h.pc with
  | .wait => if h.sr.iocIrq || h.sr.errIrq then { h with pc := .rdSr } else h
  | .rdSr => { h with pc := .wrSr h.sr }
  | .wrSr stat =>
    let h' := { h with sr := h.sr.w1c (clearIntValue stat) }
    if stat.errIrq then { h' with pc := .check stat } else h'.checked stat
  | .check stat =>
    if checkForErrors h.sr then { h with pc := .failed "DMA engine error raised" }
    else h.checked stat
  | .drain => h.drainStep
  | .rearm => { h with pc := .wait }
  | .failed _ => h

def step (h : Handler) : HAct → Handler
  | .store bytes => { h with d := h.d.engStore bytes }
  | .complete st => h.complete st
  | .raise => h.raise
  | .sw => h.swStep

/-- the handler at its first `_start_read` -/
def start (receivePackets : Bool) (d : Drain) : Handler :=
  { receivePackets := receivePackets, d := d, sr := {}, owed := 0, pc := .rearm }

theorem complete_cases (h : Handler) (st : S2mmDescStatus) : h.complete st = h ∨
    h.complete st = { h with d := h.d.engComplete st, owed := h.owed + h.iocDue st } := by
  unfold complete
  dsimp only
  split
  · exact Or.inr rfl
  · exact Or.inl rfl

theorem raise_cases (h : Handler) : h.raise = h ∨
    h.raise = { h with sr := { h.sr with iocIrq := true }, owed := h.owed - 1 } := by
  unfold raise
  split
  · exact Or.inr rfl
  · exact Or.inl rfl

end Handler

/-! ## a drained ring -/

namespace Drain

/-- data is waiting at `_next_readable_buf`: a complete descriptor, or a complete packet -/
def DataWaiting (s : Drain) : Bool → Prop
  | false => (s.descs s.o.nextReadableBuf).status.cmplt = true
  | true => ∃ m < s.o.nrCycDesc,
      (∀ j ≤ m, (s.descs ((s.o.nextReadableBuf + j) % s.o.nrCycDesc)).status.cmplt = true) ∧
      (s.descs s.o.nextReadableBuf).status.rxsof = true ∧
      (s.descs ((s.o.nextReadableBuf + m) % s.o.nrCycDesc)).status.rxeof = true

/-- nothing is left to deliver: no block, or no block that ends a packet -/
def Drained (s : Drain) (receivePackets : Bool) : Prop :=
  ∃ taken td, Ring s taken.length ∧ s.stored = taken ++ td ∧
    s.o.nextReadableBuf = taken.length % s.o.nrCycDesc ∧
    (td = [] ∨ receivePackets = true ∧ ∀ b ∈ td, b.status.rxeof = false)

theorem Drained.no_data {s : Drain} {rp : Bool} (h : s.Drained rp) : ¬ s.DataWaiting rp := by
  obtain ⟨taken, td, hr, hst, hn, htd⟩ := h
  have hlen : s.stored.length = taken.length + td.length := by rw [hst, List.length_append]
  cases rp with
  | false =>
    intro hc
    rcases htd with rfl | ⟨hrp, -⟩
    · have hlt := hr.holds.lt_of_not_free (i := 0) hr.pos (by
        rw [Nat.add_zero, ← hn]
        exact fun hf => Bool.noConfusion (hc.symm.trans hf))
      rw [List.length_nil] at hlen
      omega
    · cases hrp
  | true =>
    rintro ⟨m, hm, hall, -, heof⟩
    rw [hn, Nat.mod_add_mod] at heof
    have hc := hall m (Nat.le_refl m)
    rw [hn, Nat.mod_add_mod] at hc
    have hlt := hr.holds.lt_of_not_free hm (fun hf => Bool.noConfusion (hc.symm.trans hf))
    have hm' : m < td.length := by omega
    have hf := hr.holds.entry _ hlt (Nat.le_add_right _ _)
    rw [hf.status] at heof
    have hmem : s.stored[taken.length + m] ∈ td := by
      simp only [hst]
      rw [List.getElem_append_right (Nat.le_add_right _ _)]
      exact List.getElem_mem _
    rcases htd with rfl | ⟨-, hno⟩
    · cases hm'
    · rw [hno _ hmem] at heof
      cases heof

/-- a descriptor of the window with `cmplt = 0` is at its end -/
theorem Ring.end_of_free {s : Drain} {R : Nat} (h : Ring s R) {p : List Block} {i : Nat}
    (hp : p <+: s.stored) (hlen : p.length = R + i)
    (hc : (s.descs ((R + i) % s.o.nrCycDesc)).status.cmplt = false) : s.stored = p := by
  by_contra hne
  have hlt : p.length < s.stored.length := by
    refine Nat.lt_of_le_of_ne hp.length_le (fun e => hne (hp.eq_of_length e).symm)
  rw [← hlen] at hc
  exact (h.holds.entry _ hlt (by omega)).not_free hc

/-! ### a scan that comes back empty -/

theorem scanned_out {s : Drain} {r : List Nat} (h : (s.scanned r).pc = .out) : r = [] := by
  unfold scanned at h
  cases r with
  | nil => rfl
  | cons i r => cases h

theorem scanFlow_out {σ : Type} {s : Drain} {pcOf : σ → Pc} {f : Flow (UioMemSgdma × σ)}
    (hpc : ∀ l, pcOf l ≠ .out) (h : (s.scanFlow pcOf f).pc = .out) : ∃ p, f = .ret p [] := by
  cases f with
  | cont p => exact absurd h (hpc p.2)
  | ret p r => exact ⟨p, by rw [scanned_out h]⟩
  | throw p msg => cases h

theorem fullBody_ret_nil {o : UioMemSgdma} {l : FullScan} {st : S2mmDescStatus}
    {p : UioMemSgdma × FullScan} (h : o.fullBody l st = .ret p []) :
    st.cmplt = false ∧ l.result = [] ∧ p.1 = o := by
  unfold UioMemSgdma.fullBody at h
  split_ifs at h with h1
  injection h with h2 h3
  exact ⟨by simpa using h1, h3, by rw [← h2]⟩

theorem packetBody_ret_nil {o : UioMemSgdma} {l : PacketScan} {st : S2mmDescStatus}
    {p : UioMemSgdma × PacketScan} (h : o.packetBody l st = .ret p []) :
    st.cmplt = false ∧ p.1 = o := by
  unfold UioMemSgdma.packetBody at h
  split_ifs at h with h1 h2 h3 h4
  · injection h with h5
    exact ⟨by simpa using h1, by rw [← h5]⟩
  · injection h with h5 h6
    exact absurd h6 (by simp)

def modeDelivery : Bool → Delivery
  | true => packetDelivery
  | false => streamDelivery

theorem modeDelivery_allows {rp m : Bool} : (modeDelivery rp).allows m ↔ m = rp := by
  cases rp <;> exact Iff.rfl

section
variable {s : Drain} {taken td : List Block} {rp : Bool}

theorem Ring.full_out (hr : Ring s taken.length) (hp : taken ++ td <+: s.stored)
    (hn : s.o.nextReadableBuf = (taken.length + td.length) % s.o.nrCycDesc)
    (hout : (s.fullStep ⟨td.length, cycSeq s.o.nrCycDesc taken.length td.length⟩).pc = .out) :
    (s.fullStep ⟨td.length, cycSeq s.o.nrCycDesc taken.length td.length⟩).Drained rp := by
  unfold fullStep at hout ⊢
  by_cases hi : td.length < s.o.nrCycDesc
  · rw [if_pos hi] at hout ⊢
    obtain ⟨p, hret⟩ := scanFlow_out (fun _ => Pc.noConfusion) hout
    obtain ⟨hc, htd, ho⟩ := fullBody_ret_nil hret
    rw [hret]
    have htd' : td = [] := by
      rw [← List.length_eq_zero_iff, ← cycSeq_eq_nil]
      exact htd
    subst htd'
    rw [List.append_nil] at hp
    rw [hn] at hc
    have hst := hr.end_of_free (i := 0) hp rfl hc
    show (Drain.scanned ({ s with o := p.1 } : Drain) []).Drained rp
    rw [ho]
    exact ⟨taken, [], hr.setPc _ _ _, by rwa [List.append_nil], hn, Or.inl rfl⟩
  · rw [if_neg hi] at hout
    have htd := scanned_out hout
    rw [cycSeq_eq_nil] at htd
    have := hr.pos
    omega

theorem Ring.packet_out {hasSof : Bool} (hr : Ring s taken.length) (hp : taken ++ td <+: s.stored)
    (hn : s.o.nextReadableBuf = taken.length % s.o.nrCycDesc)
    (hscan : ∀ b ∈ td, b.status.rxeof = false)
    (hout : (s.packetStep ⟨td.length, (taken.length + td.length) % s.o.nrCycDesc, hasSof,
      cycSeq s.o.nrCycDesc taken.length td.length⟩).pc = .out) :
    (s.packetStep ⟨td.length, (taken.length + td.length) % s.o.nrCycDesc, hasSof,
      cycSeq s.o.nrCycDesc taken.length td.length⟩).Drained true := by
  unfold packetStep at hout ⊢
  by_cases hi : td.length < s.o.nrCycDesc
  · rw [if_pos hi] at hout ⊢
    obtain ⟨p, hret⟩ := scanFlow_out (fun _ => Pc.noConfusion) hout
    obtain ⟨hc, ho⟩ := packetBody_ret_nil hret
    rw [hret]
    have hst := hr.end_of_free hp List.length_append hc
    show (Drain.scanned ({ s with o := p.1 } : Drain) []).Drained true
    rw [ho]
    exact ⟨taken, td, hr.setPc _ _ _, hst, hn, Or.inr ⟨rfl, hscan⟩⟩
  · -- all `N` descriptors are complete and none of them ends a packet
    rw [if_neg hi]
    have hst : s.stored = taken ++ td := by
      refine (hp.eq_of_length_le ?_).symm
      rw [List.length_append]
      have := hr.holds.le_size
      omega
    exact ⟨taken, td, hr.setPc _ _ _, hst, hn, Or.inr ⟨rfl, hscan⟩⟩

/-- **A scan that comes back empty leaves the ring drained**: everything in front of the descriptor
that it has read as not complete has been looked at. -/
theorem Inv.sw_out (h : Inv (modeDelivery rp) s) (hpc : s.pc ≠ .out)
    (hout : s.swStep.pc = .out) : s.swStep.Drained rp := by
  obtain ⟨taken, dn, td, hr, hp, -, ht⟩ := h
  unfold Thread at ht
  unfold swStep at hout ⊢
  cases hs : s.pc with
  | out => exact absurd hs hpc
  | full l =>
    rw [hs] at ht
    simp only [hs] at hout ⊢
    obtain ⟨-, rfl, rfl, hn⟩ := ht
    rw [List.append_nil] at hp
    exact Ring.full_out hr hp hn hout
  | packet l =>
    rw [hs] at ht
    simp only [hs] at hout ⊢
    obtain ⟨ha, hscan, rfl, rfl, hn⟩ := ht
    rw [List.append_nil] at hp
    have hrp : true = rp := modeDelivery_allows.mp ha
    subst hrp
    exact Ring.packet_out hr hp hn hscan hout
  | top => simp only [hs] at hout; cases hout
  | stats todo done => cases todo <;> simp only [hs] at hout <;> cases hout
  | copy todo result => cases todo <;> simp only [hs] at hout <;> cases hout
  | wrBack c todo result => simp only [hs] at hout; cases hout
  | process bytes => simp only [hs] at hout; cases hout
  | failed msg => simp only [hs] at hout; cases hout

end

end Drain

/-! ## the handler -/

/-- the engine's stream is one that the mode can take -/
def Drain.StreamOk (s : Drain) (receivePackets : Bool) : Prop :=
  receivePackets = true → WellFramed s.o.nrCycDesc s.stored

theorem Drain.StreamOk.of_step {s : Drain} {rp : Bool} {a : Act} (h : (s.step a).StreamOk rp) :
    s.StreamOk rp := by
  obtain ⟨hpre, hN⟩ := Drain.step_frame s a
  intro hrp
  have hw := h hrp
  rw [hN] at hw
  exact hw.of_prefix hpre

theorem Drain.Inv.mode_step {rp : Bool} {s : Drain} (h : Drain.Inv (Drain.modeDelivery rp) s)
    (hok : s.StreamOk rp) (a : Act) (hcall : ∀ m, a = .call m → m = rp) :
    Drain.Inv (Drain.modeDelivery rp) (s.step a) := by
  refine h.step a ?_ (fun m e => Drain.modeDelivery_allows.mpr (hcall m e))
  cases rp with
  | false => exact h.not_skips a
  | true => exact h.not_skips_packet (hok rfl) a

namespace Handler

/-- an interrupt is pending or owed, or the ring is drained -/
def Quiet (h : Handler) : Prop := h.sr.iocIrq = false → h.owed = 0 → h.d.Drained h.receivePackets

def Place (h : Handler) : Prop :=
  match h.pc with
  | .wait => h.d.pc = .out ∧ h.Quiet
  | .rdSr => h.d.pc = .out ∧ h.sr.iocIrq = true
  | .wrSr stat => h.d.pc = .out ∧ stat.iocIrq = true ∧ stat.errIrq = false
  | .check _ => False
  | .drain => h.d.pc = .out → h.Quiet
  | .rearm => h.d.pc = .out ∧ h.Quiet
  | .failed _ => True

structure Inv (h : Handler) : Prop where
  drain : Drain.Inv (Drain.modeDelivery h.receivePackets) h.d
  err : h.sr.errIrq = false
  place : h.Place

/-- a step of the loop in the handler's mode, or none -/
def Refines (h h' : Handler) : Prop :=
  h'.receivePackets = h.receivePackets ∧
    (h'.d = h.d ∨ ∃ b, (∀ m, b = Act.call m → m = h.receivePackets) ∧ h'.d = h.d.step b)

theorem Refines.stays {h h' : Handler} (hrp : h'.receivePackets = h.receivePackets)
    (hd : h'.d = h.d) : Refines h h' := ⟨hrp, Or.inl hd⟩

theorem refines_checked (h g : Handler) (stat : S2mmDmasr)
    (hrp : g.receivePackets = h.receivePackets) (hd : g.d = h.d) : Refines h (g.checked stat) := by
  unfold checked
  split
  · exact ⟨hrp, Or.inr ⟨.enter, fun _ e => (by cases e), congrArg (Drain.step · .enter) hd⟩⟩
  · exact .stays hrp hd

theorem refines_drainStep (h : Handler) : Refines h h.drainStep := by
  unfold drainStep
  split
  · exact .stays rfl rfl
  · refine ⟨rfl, Or.inr ⟨.call h.receivePackets, fun m e => ?_, rfl⟩⟩
    injection e with e
    exact e.symm
  · exact .stays rfl rfl
  · exact ⟨rfl, Or.inr ⟨.sw, fun _ e => (by cases e), rfl⟩⟩

/-- **The handler refines the drain loop**: each of its steps is a step of the loop in the handler's
mode, or leaves the loop alone. -/
theorem refines_step (h : Handler) (a : HAct) : Refines h (h.step a) := by
  cases a with
  | store bs => exact ⟨rfl, Or.inr ⟨.store bs, fun _ e => (by cases e), rfl⟩⟩
  | complete st =>
    show Refines h (h.complete st)
    rcases h.complete_cases st with e | e
    · rw [e]
      exact .stays rfl rfl
    · rw [e]
      exact ⟨rfl, Or.inr ⟨.complete st, fun _ e => (by cases e), rfl⟩⟩
  | raise =>
    show Refines h h.raise
    rcases h.raise_cases with e | e <;> rw [e] <;> exact .stays rfl rfl
  | sw =>
    show Refines h h.swStep
    unfold swStep
    cases hpc : h.pc with
    | wait =>
      dsimp only
      split <;> exact .stays rfl rfl
    | rdSr => exact .stays rfl rfl
    | wrSr stat =>
      dsimp only
      split
      · exact .stays rfl rfl
      · exact refines_checked h _ stat rfl rfl
    | check stat =>
      dsimp only
      split
      · exact .stays rfl rfl
      · exact refines_checked h h stat rfl rfl
    | drain => exact refines_drainStep h
    | rearm => exact .stays rfl rfl
    | failed msg => exact .stays rfl rfl

theorem streamOk_of_step {h : Handler} {a : HAct}
    (hok : (h.step a).d.StreamOk (h.step a).receivePackets) : h.d.StreamOk h.receivePackets := by
  obtain ⟨hrp, hd | ⟨b, -, hd⟩⟩ := refines_step h a
  · rwa [hrp, hd] at hok
  · rw [hrp, hd] at hok
    exact hok.of_step

theorem Inv.drain_step {h : Handler} (hi : h.Inv) (a : HAct)
    (hok : h.d.StreamOk h.receivePackets) :
    Drain.Inv (Drain.modeDelivery (h.step a).receivePackets) (h.step a).d := by
  obtain ⟨hrp, hd | ⟨b, hb, hd⟩⟩ := refines_step h a
  · rw [hrp, hd]
    exact hi.drain
  · rw [hrp, hd]
    exact hi.drain.mode_step hok b hb

end Handler

/-! ### the engine -/

namespace Drain

theorem Drained.engStore {s : Drain} {rp : Bool} (h : s.Drained rp) (bs : List UInt8) :
    (s.engStore bs).Drained rp := by
  obtain ⟨taken, td, hr, hst, hn, htd⟩ := h
  have hr' := hr.engStore bs
  obtain ⟨phys, buf, e⟩ := engStore_cases s bs
  rw [e] at hr' ⊢
  exact ⟨taken, td, hr', hst, hn, htd⟩

/-- a block that ends no packet leaves the ring drained in packet mode -/
theorem Drained.engComplete {s : Drain} (h : s.Drained true) {st : S2mmDescStatus}
    (hst : st.rxeof = false) : (s.engComplete st).Drained true := by
  obtain ⟨taken, td, hr, hs, hn, htd⟩ := h
  have hr' := hr.engComplete st
  rcases engComplete_cases s st with e | ⟨b, hb, -, e⟩
  · rw [e]
    exact ⟨taken, td, hr, hs, hn, htd⟩
  · rw [e] at hr' ⊢
    refine ⟨taken, td ++ [b], hr', by rw [hs, List.append_assoc], hn, Or.inr ⟨rfl, ?_⟩⟩
    intro c hc
    rcases List.mem_append.mp hc with hc | hc
    · rcases htd with rfl | ⟨-, hno⟩
      · cases hc
      · exact hno c hc
    · rw [List.mem_singleton.mp hc, hb]
      exact hst

theorem pc_engStore (s : Drain) (bs : List UInt8) : (s.engStore bs).pc = s.pc := by
  obtain ⟨phys, buf, e⟩ := engStore_cases s bs
  rw [e]

theorem pc_engComplete (s : Drain) (st : S2mmDescStatus) : (s.engComplete st).pc = s.pc := by
  rcases engComplete_cases s st with e | ⟨b, -, -, e⟩ <;> rw [e]

end Drain

namespace Handler

/-- a completion that matters to the mode leaves an interrupt owed -/
theorem Quiet.complete {h : Handler} (hq : h.Quiet) (st : S2mmDescStatus) :
    (h.complete st).Quiet := by
  rcases h.complete_cases st with e | e
  · rw [e]
    exact hq
  · rw [e]
    intro hioc howed
    have howed' : h.owed + h.iocDue st = 0 := howed
    have hdue : h.iocDue st = 0 := by omega
    unfold iocDue at hdue
    split at hdue
    · cases hdue
    · next hrp =>
      simp only [Bool.or_eq_true, Bool.not_eq_true', not_or, Bool.not_eq_false,
        Bool.not_eq_true] at hrp
      have hdr := hq hioc (by omega)
      show Drain.Drained _ h.receivePackets
      rw [hrp.1] at hdr ⊢
      exact hdr.engComplete hrp.2

/-- an engine step does not move the software, sets no error and takes back no interrupt -/
theorem Place.engine {h h' : Handler} (hp : h.Place) (hpc : h'.pc = h.pc) (hd : h'.d.pc = h.d.pc)
    (hioc : h.sr.iocIrq = true → h'.sr.iocIrq = true) (hq : h.Quiet → h'.Quiet) : h'.Place := by
  unfold Place at hp ⊢
  rw [hpc]
  cases e : h.pc with
  | wait => rw [e] at hp; exact ⟨hd.trans hp.1, hq hp.2⟩
  | rdSr => rw [e] at hp; exact ⟨hd.trans hp.1, hioc hp.2⟩
  | wrSr stat => rw [e] at hp; exact ⟨hd.trans hp.1, hp.2⟩
  | check stat => rw [e] at hp; exact hp
  | drain => rw [e] at hp; exact fun hout => hq (hp (hd.symm.trans hout))
  | rearm => rw [e] at hp; exact ⟨hd.trans hp.1, hq hp.2⟩
  | failed msg => rw [e] at hp; exact hp

theorem Place.store {h : Handler} (hp : h.Place) (bs : List UInt8) : (h.step (.store bs)).Place :=
  hp.engine rfl (Drain.pc_engStore h.d bs) id fun hq h1 h2 => (hq h1 h2).engStore bs

theorem Place.complete {h : Handler} (hp : h.Place) (st : S2mmDescStatus) :
    (h.step (.complete st)).Place := by
  have hq : h.Quiet → (h.complete st).Quiet := fun hq => hq.complete st
  show (h.complete st).Place
  rcases h.complete_cases st with e | e
  · rw [e]
    exact hp
  · rw [e] at hq ⊢
    exact hp.engine rfl (Drain.pc_engComplete h.d st) id hq

theorem Place.raise {h : Handler} (hp : h.Place) : (h.step .raise).Place := by
  show h.raise.Place
  rcases h.raise_cases with e | e
  · rw [e]
    exact hp
  · rw [e]
    exact hp.engine rfl rfl (fun _ => rfl) fun _ h1 => Bool.noConfusion h1

/-! ### the software -/

theorem Place.drainStep {h : Handler} (hi : h.Inv) (hpc : h.pc = .drain) : h.drainStep.Place := by
  have hp : h.d.pc = .out → h.Quiet := by
    have := hi.place
    unfold Place at this
    rwa [hpc] at this
  unfold Handler.drainStep
  split
  · next e => exact ⟨e, hp e⟩
  · next e =>
    unfold Place
    rw [hpc]
    intro hout
    simp only [Drain.step, e, if_true] at hout
    split at hout <;> cases hout
  · exact trivial
  · next e _ _ =>
    unfold Place
    rw [hpc]
    intro hout _ _
    exact hi.drain.sw_out e hout

theorem Place.sw {h : Handler} (hi : h.Inv) : (h.step .sw).Place := by
  have hp := hi.place
  show h.swStep.Place
  unfold Handler.swStep
  unfold Place at hp
  cases hpc : h.pc with
  | wait =>
    rw [hpc] at hp
    dsimp only
    split
    · next hl =>
      rw [hi.err, Bool.or_false] at hl
      exact ⟨hp.1, hl⟩
    · unfold Place
      rw [hpc]
      exact hp
  | rdSr =>
    rw [hpc] at hp
    exact ⟨hp.1, hp.2, hi.err⟩
  | wrSr stat =>
    rw [hpc] at hp
    obtain ⟨hout, hioc, herr⟩ := hp
    dsimp only
    unfold Handler.checked
    rw [if_neg (by rw [herr]; exact Bool.noConfusion), if_pos hioc]
    intro h0
    simp only [Drain.step, hout, if_true] at h0
    cases h0
  | check stat =>
    rw [hpc] at hp
    exact hp.elim
  | drain => exact Place.drainStep hi hpc
  | rearm =>
    rw [hpc] at hp
    exact hp
  | failed msg =>
    unfold Place
    rw [hpc]
    exact trivial

/-! ### runs -/

theorem checked_sr (h : Handler) (stat : S2mmDmasr) : (h.checked stat).sr = h.sr := by
  unfold checked
  split <;> rfl

theorem drainStep_sr (h : Handler) : h.drainStep.sr = h.sr := by
  unfold drainStep
  split <;> rfl

theorem err_step {h : Handler} (he : h.sr.errIrq = false) (a : HAct) :
    (h.step a).sr.errIrq = false := by
  cases a with
  | store bs => exact he
  | complete st =>
    show (h.complete st).sr.errIrq = false
    rcases h.complete_cases st with e | e <;> rw [e] <;> exact he
  | raise =>
    show h.raise.sr.errIrq = false
    rcases h.raise_cases with e | e <;> rw [e] <;> exact he
  | sw =>
    show h.swStep.sr.errIrq = false
    unfold swStep
    cases hpc : h.pc with
    | wait =>
      dsimp only
      split <;> exact he
    | rdSr => exact he
    | wrSr stat =>
      have hw : (h.sr.w1c (clearIntValue stat)).errIrq = false := by
        rw [w1c_clearIntValue, he]
        rfl
      dsimp only
      split
      · exact hw
      · rw [checked_sr]
        exact hw
    | check stat =>
      dsimp only
      split
      · exact he
      · rw [checked_sr]
        exact he
    | drain =>
      dsimp only
      rw [drainStep_sr]
      exact he
    | rearm => exact he
    | failed msg => exact he

theorem Inv.step {h : Handler} (hi : h.Inv) (hok : h.d.StreamOk h.receivePackets) (a : HAct) :
    (h.step a).Inv where
  drain := hi.drain_step a hok
  err := err_step hi.err a
  place := by
    cases a with
    | store bs => exact hi.place.store bs
    | complete st => exact hi.place.complete st
    | raise => exact hi.place.raise
    | sw => exact Place.sw hi

section
variable (receivePackets : Bool) (o : UioMemSgdma) (descs : Nat → S2mmDesc)
  (phys : BitVec 64 → UInt8) (memAddr : BitVec 64) {n bufSize : Nat} (acts : List HAct)

theorem Inv.start (hn : 0 < n) (fit : n * bufSize ≤ 2^64) :
    (start receivePackets (Drain.start o descs phys memAddr n bufSize)).Inv where
  drain := Drain.Inv.start _ o descs phys memAddr hn fit
  err := rfl
  place := by
    refine ⟨rfl, fun _ _ => ⟨[], [], Drain.Ring.start o descs phys memAddr hn fit, rfl, ?_,
      Or.inl rfl⟩⟩
    exact (Nat.zero_mod _).symm

theorem run_frame (h : Handler) : (Lib.run step h acts).receivePackets = h.receivePackets ∧
    (Lib.run step h acts).d.o.nrCycDesc = h.d.o.nrCycDesc := by
  refine run_inv' (P := fun g : Handler => g.receivePackets = h.receivePackets ∧
    g.d.o.nrCycDesc = h.d.o.nrCycDesc) (fun g a hg => ?_) acts ⟨rfl, rfl⟩
  obtain ⟨hrp, hd | ⟨b, -, hd⟩⟩ := refines_step g a
  · rw [hrp, hd]
    exact hg
  · rw [hrp, hd, (Drain.step_frame g.d b).2]
    exact hg

/-- **No lost interrupt.**  Whenever the handler waits, `ioc_irq` is clear and the engine owes none,
no data is waiting in the ring. -/
theorem no_lost_interrupt (hn : 0 < n) (fit : n * bufSize ≤ 2^64)
    (hf : receivePackets = true → WellFramed n (Lib.run step (start receivePackets
      (Drain.start o descs phys memAddr n bufSize)) acts).d.stored) :
    let h := Lib.run step (start receivePackets (Drain.start o descs phys memAddr n bufSize)) acts
    h.pc = .wait → h.sr.iocIrq = false → h.owed = 0 → ¬ h.d.DataWaiting receivePackets := by
  intro h hpc hioc howed
  obtain ⟨hrp, hN⟩ := run_frame acts
    (start receivePackets (Drain.start o descs phys memAddr n bufSize))
  have hN' : h.d.o.nrCycDesc = n :=
    hN.trans (UioMemSgdma.initBuffers_nrCycDesc o descs memAddr n bufSize)
  have hinv : h.d.StreamOk h.receivePackets → h.Inv :=
    run_inv' (P := fun h : Handler => h.d.StreamOk h.receivePackets → h.Inv)
      (fun g a hg hok => (hg (streamOk_of_step hok)).step (streamOk_of_step hok) a) acts
      (fun _ => Inv.start receivePackets o descs phys memAddr hn fit)
  have hi : h.Inv := by
    refine hinv (fun e => ?_)
    rw [hN']
    exact hf (hrp.symm.trans e)
  have hp := hi.place
  unfold Place at hp
  rw [hpc] at hp
  have hdr := hp.2 hioc howed
  rw [show h.receivePackets = receivePackets from hrp] at hdr
  exact hdr.no_data

/-- packet mode: the second packet ends between the status read and its clearing write; its
interrupt comes after the write and leads to an empty scan -/
def irqRun : List HAct :=
  [.sw, .store [1], .complete (Drain.engStatus 1 true true), .raise, .sw, .sw, .store [2],
    .complete (Drain.engStatus 1 true true), .sw, .raise] ++ List.replicate 28 .sw

theorem no_lost_interrupt_irqRun :
    (Lib.run step (start true (Drain.sample 2 4)) irqRun).pc = .wait ∧
      (Lib.run step (start true (Drain.sample 2 4)) irqRun).d.delivered = [[1], [2]] ∧
      ¬ (Lib.run step (start true (Drain.sample 2 4)) irqRun).d.DataWaiting true :=
  ⟨by decide, by decide, no_lost_interrupt true _ _ _ _ irqRun (by decide) (by decide) (by decide)
    (by decide) (by decide) (by decide)⟩

end

end Handler

end Udmaio
