import Udmaio.Sgdma.Loop

/-!
# The calls are runs of the step system

The functions of `Udmaio.Sgdma.Calls` and the steps of `Udmaio.Sgdma.Drain` are two descriptions of
one program.  Between two steps of the engine they agree:

* `Sgdma.atPc`     a state of the calls as a state of the step system, the software at `pc`;
* `scan_reaches`   the steps of a scan lead to the result of the call;
* `read_reaches`   the steps of `read_buffers` lead to `process_data` with the bytes of the call;
* `drain_reaches`  **the steps of the drain loop lead where the function `drain` ends.**
-/

namespace Udmaio
open Lib

/-- a step of the software in the given mode -/
def Act.software (receivePackets : Bool) (a : Act) : Prop := a = .sw ∨ a = .call receivePackets

namespace Sgdma

/-- the state of the step system; the engine's part is taken from `d` -/
def atPc (s : Sgdma (BitVec 64 → UInt8)) (d : Drain) (pc : Pc) : Drain :=
  { d with o := s.o, descs := s.descs, phys := s.mem, pc := pc, delivered := s.handed.map Prod.snd }

section
variable (rp : Bool) (d : Drain)

/-- the step system after a scan -/
def scanEnd : EStateM.Result Stop (Sgdma (BitVec 64 → UInt8)) (List Nat) → Drain
  | .ok r s => s.atPc d (if r.isEmpty then .out else .stats r [])
  | .error (.exception msg) s => s.atPc d (.failed msg)
  | .error .fuel s => s.atPc d .top

theorem scanned_atPc (s : Sgdma (BitVec 64 → UInt8)) (pc : Pc) (r : List Nat) :
    (s.atPc d pc).scanned r = s.atPc d (if r.isEmpty then .out else .stats r []) := by
  unfold Drain.scanned
  split <;> rfl

/-- a scan with `k` iterations to go, for a loop whose steps are those of the function -/
theorem scanLoop_reaches {σ : Type}
    {body : UioMemSgdma → (Nat → S2mmDesc) → σ → Flow (UioMemSgdma × σ)} {done : σ → List Nat}
    {pcOf : σ → Pc} (idx : σ → Nat)
    (hstep : ∀ s l, (atPc s d (pcOf l)).swStep = if idx l < s.o.nrCycDesc
      then (atPc s d (pcOf l)).scanFlow pcOf (body s.o s.descs l)
      else (atPc s d (pcOf l)).scanned (done l))
    (hcont : ∀ o descs l p, body o descs l = .cont p →
      idx p.2 = idx l + 1 ∧ p.1.nrCycDesc = o.nrCycDesc)
    (k : Nat) (l : σ) (s : Sgdma (BitVec 64 → UInt8)) (hk : idx l + k = s.o.nrCycDesc) :
    Reaches Drain.step (Act.software rp) (s.atPc d (pcOf l))
      (scanEnd d (scanLoop body done k l s)) := by
  induction k generalizing l s with
  | zero =>
    refine Reaches.head (Or.inl rfl) ?_
    show Reaches _ _ (s.atPc d (pcOf l)).swStep _
    rw [hstep, if_neg (by omega), scanned_atPc]
    exact Reaches.refl _
  | succ k ih =>
    refine Reaches.head (Or.inl rfl) ?_
    show Reaches _ _ (s.atPc d (pcOf l)).swStep _
    rw [hstep, if_pos (by omega), scanLoop_succ]
    cases hb : body s.o s.descs l with
    | cont p =>
      obtain ⟨hi, hN⟩ := hcont _ _ _ _ hb
      exact ih p.2 { s with o := p.1 } (by show idx p.2 + k = p.1.nrCycDesc; omega)
    | ret p r =>
      show Reaches _ _ ((atPc { s with o := p.1 } d (pcOf l)).scanned r) _
      rw [scanned_atPc]
      exact Reaches.refl _
    | throw p msg => exact Reaches.refl _

theorem full_reaches (s : Sgdma (BitVec 64 → UInt8)) :
    Reaches Drain.step (Act.software rp) (s.atPc d (.full UioMemSgdma.fullInit))
      (scanEnd d (getFullBuffers s)) := by
  refine scanLoop_reaches rp d FullScan.i (fun _ _ => rfl) (fun o descs l p hb => ?_) _ _ s
    (Nat.zero_add _)
  have hN := o.fullBody_nrCycDesc l (descs o.nextReadableBuf).status
  rw [hb] at hN
  refine ⟨?_, hN⟩
  unfold UioMemSgdma.fullBody at hb
  split_ifs at hb
  obtain rfl := Flow.cont.inj hb
  rfl

theorem packet_reaches (s : Sgdma (BitVec 64 → UInt8)) :
    Reaches Drain.step (Act.software rp) (s.atPc d (.packet s.o.packetInit))
      (scanEnd d (getNextPacket s)) := by
  refine scanLoop_reaches rp d PacketScan.i (fun _ _ => rfl) (fun o descs l p hb => ?_) _ _ s
    (Nat.zero_add _)
  have hN := o.packetBody_nrCycDesc l (descs l.n).status
  rw [hb] at hN
  refine ⟨?_, hN⟩
  unfold UioMemSgdma.packetBody at hb
  split_ifs at hb
  · obtain rfl := Flow.cont.inj hb
    rfl
  · obtain rfl := Flow.cont.inj hb
    rfl

/-- from the head of the loop -/
theorem scan_reaches (s : Sgdma (BitVec 64 → UInt8)) :
    Reaches Drain.step (Act.software rp) (s.atPc d .top) (scanEnd d (scan rp s)) := by
  refine Reaches.head (Or.inr rfl) ?_
  cases rp with
  | true => exact packet_reaches _ d s
  | false => exact full_reaches _ d s

/-! ## `read_buffers` -/

theorem stats_reaches (s : Sgdma (BitVec 64 → UInt8)) (todo : List Nat) (done : List Stat) :
    Reaches Drain.step (Act.software rp) (s.atPc d (.stats todo done))
      (s.atPc d (.copy (done ++ todo.map fun i => (i, (s.descs i).status)) [])) := by
  induction todo generalizing done with
  | nil =>
    rw [List.map_nil, List.append_nil]
    exact Reaches.head (Or.inl rfl) (Reaches.refl _)
  | cons i todo ih =>
    refine Reaches.head (Or.inl rfl) ?_
    have := ih (done ++ [(i, (s.descs i).status)])
    rw [List.append_assoc, List.singleton_append] at this
    exact this

/-- the second loop, one copy and one write-back after the other -/
theorem copy_reaches (memAddr : BitVec 64) (stats : List Stat) (result : List UInt8)
    (s : Sgdma (BitVec 64 → UInt8)) (hm : s.o.memAddr = memAddr) :
    ∃ bytes s', copyLoop (mappedBuf memAddr) stats result s = .ok bytes s' ∧
      Reaches Drain.step (Act.software rp) (s.atPc d (.copy stats result))
        (s'.atPc d (.process bytes)) := by
  induction stats generalizing result s with
  | nil => exact ⟨result, s, rfl, Reaches.head (Or.inl rfl) (Reaches.refl _)⟩
  | cons c stats ih =>
    obtain ⟨bytes, s', hloop, hr⟩ := ih
      (appendFromBuf memAddr s.mem ⟨s.o.bufAddrs.getD c.1 0, c.2.numStoredBytes.toNat⟩ result)
      { s with descs := setStatus s.descs c.1 { c.2 with cmplt := false } } hm
    refine ⟨bytes, s', hloop, Reaches.head (Or.inl rfl) (Reaches.head (Or.inl rfl) ?_)⟩
    rw [← hm] at hr
    exact hr

theorem read_reaches (memAddr : BitVec 64) (r : List Nat) (s : Sgdma (BitVec 64 → UInt8))
    (hm : s.o.memAddr = memAddr) :
    ∃ bytes s', readBuffers (mappedBuf memAddr) r s = .ok bytes s' ∧
      Reaches Drain.step (Act.software rp) (s.atPc d (.stats r []))
        (s'.atPc d (.process bytes)) := by
  obtain ⟨bytes, s', hloop, hr⟩ := copy_reaches rp d memAddr
    (r.map fun i => (i, (s.descs i).status)) [] s hm
  refine ⟨bytes, s', ?_, (stats_reaches rp d s r []).trans hr⟩
  unfold readBuffers
  rw [bind_ok (readStats_eq r s)]
  exact hloop

/-! ## the loop -/

/-- the step system after the drain loop -/
def drainEnd : EStateM.Result Stop (Sgdma (BitVec 64 → UInt8)) Unit → Drain
  | .ok _ s => s.atPc d .out
  | .error (.exception msg) s => s.atPc d (.failed msg)
  | .error .fuel s => s.atPc d .top

/-- a scan moves the pointer only -/
theorem scan_memAddr (s : Sgdma (BitVec 64 → UInt8)) :
    (final (scan rp s)).o.memAddr = s.o.memAddr := by
  cases rp with
  | true =>
    show (final (getNextPacket s)).o.memAddr = _
    rcases s.getNextPacket_cases with ⟨m, -, e⟩ | ⟨m, -, e⟩ | e <;> rw [e] <;> rfl
  | false =>
    show (final (getFullBuffers s)).o.memAddr = _
    rw [s.getFullBuffers_eq]
    split <;> rfl

/-- **The drain loop, step by step**, ends where the function does. -/
theorem drain_reaches (memAddr : BitVec 64) (fuel : Nat) (s : Sgdma (BitVec 64 → UInt8))
    (hm : s.o.memAddr = memAddr) :
    Reaches Drain.step (Act.software rp) (s.atPc d .top)
      (drainEnd d (drain (mappedBuf memAddr) rp fuel s)) := by
  induction fuel generalizing s with
  | zero => exact Reaches.refl _
  | succ fuel ih =>
    have hscan := scan_reaches rp d s
    have hmem := scan_memAddr rp s
    cases e : scan rp s with
    | error err s1 =>
      rw [drain_error fuel e]
      rw [e] at hscan
      cases err with
      | exception msg => exact hscan
      | fuel => exact hscan
    | ok r s1 =>
      rw [e] at hscan hmem
      by_cases hr : r = []
      · subst hr
        rw [drain_empty fuel e]
        exact hscan
      · have hne : ¬ r.isEmpty = true := fun he => hr (List.isEmpty_iff.mp he)
        have hstats : scanEnd d (.ok r s1) = s1.atPc d (.stats r []) := by
          show s1.atPc d (if r.isEmpty then .out else .stats r []) = _
          rw [if_neg hne]
        obtain ⟨bytes, s2, hread, hreach⟩ := read_reaches rp d memAddr r s1 (hmem.trans hm)
        have ho : s2.o = s1.o := by
          rw [readBuffers_eq (mappedBuf_copies memAddr)] at hread
          injection hread with _ h2
          rw [← h2]
        have hprocess : (s2.atPc d (.process bytes)).step .sw
            = atPc { s2 with handed := s2.handed ++ [(r, bytes)] } d .top := by
          unfold atPc
          rw [List.map_append]
          rfl
        rw [drain_succ, bind_ok e, if_neg hne, bind_ok hread]
        refine (hscan.trans (hstats ▸ hreach)).trans (Reaches.head (Or.inl rfl) ?_)
        rw [hprocess]
        exact ih { s2 with handed := s2.handed ++ [(r, bytes)] }
          ((congrArg UioMemSgdma.memAddr ho).trans (hmem.trans hm))

end

end Sgdma

end Udmaio
