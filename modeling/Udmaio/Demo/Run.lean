import Udmaio.Demo.Check
import Udmaio.Handler.Reads

/-!
# The demo as a whole: engine, interrupt handler and data check

`DataHandlerPrint` overrides `process_data` of the handler of `Udmaio.Handler.Irq`, in packet mode.
Its `stop`, and the one of the user, keep the event loop from calling the handler again; a call that
has begun still drains the ring.

* `DemoSys.step`        the engine, the I/O thread and the user, in any order;
* `Linked`              the check has seen the packets that the drain loop has delivered, in their
                        order;
* `demo_run`            **the verdict on a whole run**: no false alarm at any time, and once the
                        handler is quiet, a verdict on every packet that the engine has completed.
-/

namespace Udmaio
open Lib DataHandlerPrint

/-- `p` is `none` after a call that does not return as it should -/
structure DemoSys where
  h : Handler
  p : Option DataHandlerPrint
  userStop : Bool

inductive DemoAct where
  | dev (a : HAct)
  | stop
deriving DecidableEq, Repr

namespace DemoSys

/-- the event loop returns instead of calling the handler -/
def stopped (s : DemoSys) : Bool :=
  s.userStop || match s.p with
    | some p => p.stopped
    | none => true

/-- the next step of the I/O thread -/
def ioStep (s : DemoSys) : DemoSys :=
  match s.h.pc, s.h.d.pc with
  | .wait, _ => if s.stopped then s else { s with h := s.h.step .sw }
  | .drain, .process bytes => { s with h := s.h.step .sw, p := s.p.bind (·.processData bytes) }
  | _, _ => { s with h := s.h.step .sw }

def step (s : DemoSys) : DemoAct → DemoSys
  | .dev .sw => s.ioStep
  | .dev a => { s with h := s.h.step a }
  | .stop => { s with userStop := true }

/-- the handler is constructed before the DMA is started -/
def start (numBytesPerBeat : BitVec 32) (numBytesExpected : BitVec 64) (d : Drain) : DemoSys :=
  ⟨Handler.start true d, some (DataHandlerPrint.init numBytesPerBeat numBytesExpected), false⟩

/-- the demo after the steps `acts` -/
def after (numBytesPerBeat : BitVec 32) (numBytesExpected : BitVec 64) (d : Drain)
    (acts : List DemoAct) :
    DemoSys :=
  Lib.run step (start numBytesPerBeat numBytesExpected d) acts

end DemoSys

/-! ## The check sees what is delivered -/

theorem DataHandlerPrint.processAll_append (s : DataHandlerPrint) (xs : List (List UInt8))
    (bytes : List UInt8) :
    s.processAll (xs ++ [bytes]) = (s.processAll xs).bind (·.processData bytes) := by
  induction xs generalizing s with
  | nil =>
    show s.processAll [bytes] = s.processData bytes
    rw [processAll]
    cases s.processData bytes with
    | none => rfl
    | some s' => rfl
  | cons x xs ih =>
    rw [List.cons_append, processAll, processAll]
    cases s.processData x with
    | none => rfl
    | some s' => exact ih s'

namespace DemoSys
variable {perBeat : BitVec 32} {e : BitVec 64} {s : DemoSys}

/-- the check has been called on the packets delivered -/
def Linked (perBeat : BitVec 32) (e : BitVec 64) (s : DemoSys) : Prop :=
  s.p = (DataHandlerPrint.init perBeat e).processAll s.h.d.delivered

theorem ioStep_handler (s : DemoSys) : s.ioStep.h = s.h ∨ s.ioStep.h = s.h.step .sw := by
  unfold ioStep
  split
  · split
    · exact .inl rfl
    · exact .inr rfl
  · exact .inr rfl
  · exact .inr rfl

theorem step_handler (s : DemoSys) (a : DemoAct) :
    (s.step a).h = s.h ∨ ∃ b, (s.step a).h = s.h.step b := by
  cases a with
  | stop => exact .inl rfl
  | dev b =>
    cases b with
    | store bytes => exact .inr ⟨.store bytes, rfl⟩
    | complete st => exact .inr ⟨.complete st, rfl⟩
    | raise => exact .inr ⟨.raise, rfl⟩
    | sw =>
      rcases s.ioStep_handler with h | h
      · exact .inl h
      · exact .inr ⟨.sw, h⟩

theorem Linked.ioStep (h : Linked perBeat e s) : Linked perBeat e s.ioStep := by
  have hsame : (∀ bytes, s.h.pc = .drain → s.h.d.pc ≠ .process bytes) →
      Linked perBeat e { s with h := s.h.step .sw } := by
    intro hne
    show s.p = _
    rw [show (s.h.step .sw).d.delivered = s.h.d.delivered from s.h.swStep_delivered hne]
    exact h
  unfold DemoSys.ioStep
  split
  · next hpc =>
    split
    · exact h
    · exact hsame fun bytes hd => by rw [hpc] at hd; cases hd
  · next bytes hpc hdpc =>
    have hdel : (s.h.step .sw).d.delivered = s.h.d.delivered ++ [bytes] := by
      show s.h.swStep.d.delivered = _
      simp only [Handler.swStep, hpc, Handler.drainStep, hdpc, Drain.step, Drain.swStep]
    show s.p.bind _ = _
    rw [hdel, DataHandlerPrint.processAll_append, ← h]
  · next hw hne => exact hsame hne

theorem Linked.step (h : Linked perBeat e s) (a : DemoAct) : Linked perBeat e (s.step a) := by
  cases a with
  | stop => exact h
  | dev b =>
    have hengine : b ≠ .sw → Linked perBeat e { s with h := s.h.step b } := by
      intro hb
      show s.p = _
      rw [(s.h.step_pc_of_engine hb).2]
      exact h
    cases b with
    | store bytes => exact hengine nofun
    | complete st => exact hengine nofun
    | raise => exact hengine nofun
    | sw => exact h.ioStep

/-! ## Runs -/

theorem step_sound {n : Nat} (h : s.h.Sound true n) (a : DemoAct) : (s.step a).h.Sound true n := by
  rcases s.step_handler a with e | ⟨b, e⟩
  · rw [e]
    exact h
  · rw [e]
    exact h.step b

section
variable (o : UioMemSgdma) (descs : Nat → S2mmDesc) (phys : BitVec 64 → UInt8) (memAddr : BitVec 64)
  {n bufSize : Nat} {m : Nat} (e : BitVec 64) (acts : List DemoAct)

/-- **The verdict of the demo**, for any order of the steps of the engine, the handler and the
user.  While the packets of the engine are the generator's, the counters agree at any time; without
a mismatch the check stops the loop only after the bytes expected; and once the handler waits with
no interrupt to come, the counters agree exactly if the packets are the generator's, and then they
have counted all of them. -/
theorem demo_run (hper : perBeat.toNat = 2 * m) (hm : 0 < m) (hn : 0 < n) (fit : n * bufSize ≤ 2^64)
    (hframed : WellFramed n
      (after perBeat e (Drain.start o descs phys memAddr n bufSize) acts).h.d.stored) :
    let s := after perBeat e (Drain.start o descs phys memAddr n bufSize) acts
    let packets := (framing s.h.d.stored).packets
    (∀ pkt ∈ packets, WholeBeats m pkt) → packets.flatten.length < 2^64 →
    ∃ p, s.p = some p ∧
      ((∃ seed k, packets.flatten = lfsrBytes m seed k) → p.counterOk = p.counterTotal) ∧
      (p.stopped = true → p.counterOk = p.counterTotal → e.toNat ≤ 2 * p.counterTotal.toNat) ∧
      (s.h.pc = .wait → s.h.sr.iocIrq = false → s.h.owed = 0 →
        (p.counterOk = p.counterTotal ↔ ∃ seed k, packets.flatten = lfsrBytes m seed k) ∧
        (p.counterOk = p.counterTotal → p.counterTotal.toNat = packets.flatten.length / 2)) := by
  intro s packets hwhole hfit
  have hlinked : Linked perBeat e s :=
    run_inv' (P := Linked perBeat e) (fun _ a h => h.step a) acts rfl
  have hsound : s.h.Sound true n :=
    run_inv' (P := fun s : DemoSys => s.h.Sound true n) (fun _ a h => step_sound h a) acts
      (.start true o descs phys memAddr hn fit)
  obtain ⟨hrp, hi⟩ := hsound.framed fun _ => hframed
  have hd := hi.drain
  rw [hrp] at hd
  obtain ⟨rest, hrest⟩ : s.h.d.delivered <+: packets := hd.delivered_prefix_packets
  have hwhole' : ∀ pkt ∈ s.h.d.delivered, WholeBeats m pkt := fun pkt hp =>
    hwhole pkt (hrest ▸ List.mem_append_left rest hp)
  have heven : 2 ∣ s.h.d.delivered.flatten.length :=
    dvd_flatten_length fun pkt hp => (hwhole' pkt hp).even
  have hfit' : s.h.d.delivered.flatten.length < 2^64 := by
    rw [← hrest, List.flatten_append, List.length_append] at hfit
    omega
  obtain ⟨p, hp, ht⟩ := processAll_tally hper hm e s.h.d.delivered hwhole' hfit'
  have hlt := two_mul_vals_lt hfit'
  refine ⟨p, hlinked.trans hp, ?_, ?_, ?_⟩
  · intro hgen
    rw [← isLfsr_vals_iff m (dvd_flatten_length fun pkt hp => (hwhole pkt hp).even), ← hrest,
      List.flatten_append, vals_append _ _ heven] at hgen
    obtain ⟨v, k, hgen⟩ := hgen
    -- what has been delivered is cut off at a beat
    obtain ⟨a, ha⟩ := ht.beats
    obtain ⟨-, -, hcut, -⟩ := lfsrWords_split hm ha hgen
    exact (ht.ok_iff hlt).mpr ⟨v, a, hcut⟩
  · intro hstop hok
    rw [ht.total hlt hok]
    exact (((ht.stopped_iff hlt).mp hstop).resolve_left (not_not_intro hok)).2
  · intro hpc hioc howed
    have hall : s.h.d.delivered = packets := (hi.delivered_all hrp hpc hioc howed).2 rfl
    rw [← hall]
    refine ⟨?_, fun hok => ?_⟩
    · rw [ht.ok_iff hlt, isLfsr_vals_iff m heven]
    · rw [ht.total hlt hok, vals_length]

/-- two packets of one beat each -/
def demoDev : List HAct :=
  [.store [0x00, 0x00], .complete (Drain.engStatus 2 true true), .raise, .store [0x00, 0x80],
    .complete (Drain.engStatus 2 true true)] ++ List.replicate 40 .sw ++ .raise ::
      List.replicate 20 .sw

/-- the user stops the loop at the end -/
def demoActs : List DemoAct := demoDev.map .dev ++ [.stop]

theorem demo_run_demoActs : ∃ p, (after 2#32 0#64 (Drain.sample 2 4) demoActs).p = some p ∧
    p.counterOk = p.counterTotal ∧ p.counterTotal.toNat = 2 := by
  obtain ⟨p, hp, hok, -, htot⟩ := demo_run ⟨0xa0000000, 0, 0, 0, [], 0⟩ noDescs
    (fun _ => 0) 0x80000000
    0#64 demoActs (show (2#32).toNat = 2 * 1 from rfl) Nat.one_pos (show 0 < 2 by decide)
      (show 2 * 4 ≤ 2^64 by decide)
    (by decide +kernel) (by decide +kernel) (by decide +kernel)
  have heq : p.counterOk = p.counterTotal := hok ⟨0x0000#16, 2, by decide +kernel⟩
  refine ⟨p, hp, heq, ?_⟩
  rw [(htot (by decide +kernel) (by decide +kernel) (by decide +kernel)).2 heq]
  decide +kernel

end

end DemoSys

end Udmaio
