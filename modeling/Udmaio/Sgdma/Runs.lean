import Udmaio.Sgdma.Thread

/-!
# Runs of the drain loop: ownership of the ring, stream mode

A run interleaves the steps of the engine and of the software in any order (`Lib.run Drain.step`).

* `cmplt_run_of_no_skip`    in a run that never skips a buffer without SOF the complete descriptors
                            form one cyclic run from `_next_readable_buf` on whenever no call is in
                            progress.  The skip branch of `get_next_packet` breaks this
                            (`cmplt_run_broken`): it moves the pointer and does not hand the
                            descriptor back;
* `stream_delivery`         stream mode delivers every byte once and in order.
-/

namespace Udmaio
open Lib

namespace Drain

/-! ## the invariant along a run -/

theorem step_frame (s : Drain) (a : Act) :
    s.stored <+: (s.step a).stored ∧ (s.step a).o.nrCycDesc = s.o.nrCycDesc := by
  cases a with
  | store bs =>
    show s.stored <+: (s.engStore bs).stored ∧ (s.engStore bs).o.nrCycDesc = _
    obtain ⟨phys, buf, e⟩ := engStore_cases s bs
    rw [e]
    exact ⟨List.prefix_refl _, rfl⟩
  | complete st =>
    show s.stored <+: (s.engComplete st).stored ∧ (s.engComplete st).o.nrCycDesc = _
    rcases engComplete_cases s st with e | ⟨b, -, -, e⟩
    · rw [e]
      exact ⟨List.prefix_refl _, rfl⟩
    · rw [e]
      exact ⟨List.prefix_append _ _, rfl⟩
  | enter =>
    show s.stored <+: (if _ then _ else s).stored ∧ (if _ then _ else s).o.nrCycDesc = _
    split <;> exact ⟨List.prefix_refl _, rfl⟩
  | call m =>
    show s.stored <+: (if _ then _ else s).stored ∧ (if _ then _ else s).o.nrCycDesc = _
    split <;> exact ⟨List.prefix_refl _, rfl⟩
  | sw =>
    obtain ⟨h1, h2⟩ := swStep_frame s
    exact ⟨h1 ▸ List.prefix_refl _, h2⟩

/-- a small ring for the concrete runs below: `n` buffers of `bufSize` bytes at `0x80000000` -/
def sample (n bufSize : Nat) : Drain :=
  start ⟨0xa0000000, 0, 0, 0, [], 0⟩ noDescs (fun _ => 0) 0x80000000 n bufSize

def engStatus (len : Nat) (rxsof rxeof : Bool) : S2mmDescStatus :=
  ⟨BitVec.ofNat 26 len, rxeof, rxsof, false, false, false, true⟩

/-! ## ownership of the ring -/

/-- the complete descriptors form one cyclic run from `_next_readable_buf` on -/
def CmpltRun (s : Drain) : Prop :=
  ∃ m ≤ s.o.nrCycDesc, ∀ d < s.o.nrCycDesc, (s.descs d).status.cmplt = true ↔
    ∃ j < m, d = (s.o.nextReadableBuf + j) % s.o.nrCycDesc

instance (s : Drain) : Decidable s.CmpltRun :=
  inferInstanceAs (Decidable (∃ m ≤ s.o.nrCycDesc, ∀ d < s.o.nrCycDesc,
    (s.descs d).status.cmplt = true ↔ ∃ j < m, d = (s.o.nextReadableBuf + j) % s.o.nrCycDesc))

/-- between calls the pointer is at the oldest descriptor that is not handed back -/
theorem Inv.idle {D : Delivery} {s : Drain} (h : Inv D s) (hi : s.idle = true) :
    ∃ taken dn, Ring s (taken.length + dn.length) ∧ taken ++ dn <+: s.stored ∧
      D.log taken s.delivered ∧
      s.o.nextReadableBuf = (taken.length + dn.length) % s.o.nrCycDesc ∧
      (s.pc = .out ∨ s.pc = .top → dn = []) := by
  obtain ⟨taken, dn, td, hr, hp, hd, ht⟩ := h
  refine ⟨taken, dn, hr, (List.prefix_append _ _).trans hp, hd, ?_⟩
  unfold Thread at ht
  unfold Drain.idle at hi
  cases hpc : s.pc with
  | out =>
    rw [hpc] at ht
    obtain ⟨rfl, -, hn⟩ := ht
    exact ⟨hn, fun _ => rfl⟩
  | top =>
    rw [hpc] at ht
    obtain ⟨rfl, -, hn⟩ := ht
    exact ⟨hn, fun _ => rfl⟩
  | process bytes =>
    rw [hpc] at ht
    refine ⟨ht.2.2.2, fun hc => ?_⟩
    rcases hc with hc | hc <;> cases hc
  | full l => rw [hpc] at hi; cases hi
  | packet l => rw [hpc] at hi; cases hi
  | stats todo done => rw [hpc] at hi; cases hi
  | copy todo result => rw [hpc] at hi; cases hi
  | wrBack c todo result => rw [hpc] at hi; cases hi
  | failed msg => rw [hpc] at hi; cases hi

theorem Ring.cmpltRun {s : Drain} {R : Nat} (h : Ring s R)
    (hn : s.o.nextReadableBuf = R % s.o.nrCycDesc) : s.CmpltRun := by
  refine ⟨s.stored.length - R, by have := h.holds.le_size; omega, fun d hd => ?_⟩
  rw [hn]
  constructor
  · intro hc
    obtain ⟨i, hi, rfl⟩ := exists_window hd R
    have hlt := h.holds.lt_of_not_free hi (fun hf => Bool.noConfusion (hc.symm.trans hf))
    exact ⟨i, by omega, by rw [Nat.mod_add_mod]⟩
  · rintro ⟨j, hj, rfl⟩
    rw [Nat.mod_add_mod]
    have hf := h.holds.entry (R + j) (by omega) (by omega)
    rw [hf.status, Block.cmplt]

/-- the discipline that only watches the ring: any scan, any chunk -/
def anyDelivery : Delivery where
  allows _ := True
  scan _ := True
  chunk _ := True
  log _ _ := True
  scan_nil := trivial
  scan_snoc _ _ _ _ := trivial
  chunk_packet _ _ _ _ := trivial
  chunk_full _ _ := trivial
  log_nil := trivial
  log_chunk _ _ _ _ _ := trivial

section
variable (o : UioMemSgdma) (descs : Nat → S2mmDesc) (phys : BitVec 64 → UInt8)
  (memAddr : BitVec 64) {n bufSize : Nat} (acts : List Act)

/-- **Ring ownership.**  In every run whose steps never skip a buffer without SOF, whichever scan
each iteration calls, the complete descriptors form one cyclic run from `_next_readable_buf` on
whenever no call is in progress. -/
theorem cmplt_run_of_no_skip (hn : 0 < n) (fit : n * bufSize ≤ 2^64)
    (hskip : Along step (fun s a => s.skips a = false) (start o descs phys memAddr n bufSize) acts)
    (hidle : (Lib.run step (start o descs phys memAddr n bufSize) acts).idle = true) :
    (Lib.run step (start o descs phys memAddr n bufSize) acts).CmpltRun := by
  have h : Inv anyDelivery (Lib.run step (start o descs phys memAddr n bufSize) acts) :=
    run_inv (P := Inv anyDelivery) (fun _ a hok hs => hs.step a hok (fun _ _ => trivial)) hskip
      (Inv.start _ o descs phys memAddr hn fit)
  obtain ⟨taken, dn, hr, -, -, hnext, -⟩ := h.idle hidle
  exact hr.cmpltRun hnext

/-- a run in which no scan meets a buffer without SOF -/
def packetRun : List Act :=
  [.store [1, 2], .complete (engStatus 2 true false), .store [3],
    .complete (engStatus 1 false true), .enter, .call true, .sw, .sw, .sw, .sw, .sw, .sw, .sw,
    .store [4], .sw, .sw, .sw, .sw, .complete (engStatus 1 true true)]

theorem cmplt_run_packetRun :
    (Lib.run step (sample 2 4) packetRun).o.nextReadableBuf = 0 ∧
      (Lib.run step (sample 2 4) packetRun).CmpltRun :=
  ⟨by decide, cmplt_run_of_no_skip _ _ _ _ packetRun (by decide) (by decide) (by decide)
    (by decide)⟩

/-- **The skip branch breaks ownership.**  The engine completes descriptor `0` of a ring of two
without SOF; `get_next_packet` moves the pointer past it and returns, the flag stays set. -/
theorem cmplt_run_broken :
    let s := Lib.run step (sample 2 4)
      [.store [1], .complete (engStatus 1 false false), .enter, .call true, .sw, .sw]
    (∀ b ∈ s.stored, b.bytes ≠ []) ∧ s.idle = true ∧ ¬ s.CmpltRun := by
  decide

/-- the discipline of stream mode: the delivered bytes are those of the blocks taken -/
def streamDelivery : Delivery where
  allows m := m = false
  scan _ := True
  chunk _ := True
  log taken dl := dl.flatten = blockBytes taken
  scan_nil := trivial
  scan_snoc _ _ _ _ := trivial
  chunk_packet _ _ _ _ := trivial
  chunk_full _ _ := trivial
  log_nil := rfl
  log_chunk taken dl c h _ := by
    rw [List.flatten_append, h, blockBytes_append, List.flatten_singleton]

theorem Inv.not_skips {s : Drain} (h : Inv streamDelivery s) (a : Act) : s.skips a = false := by
  by_contra hs
  obtain ⟨-, l, hpc⟩ := packet_of_skips (by simpa using hs)
  obtain ⟨taken, dn, td, -, -, -, ht⟩ := h
  unfold Thread at ht
  rw [hpc] at ht
  exact Bool.noConfusion ht.1

theorem Ring.all_taken {s : Drain} {R : Nat} (h : Ring s R)
    (hfree : ∀ d < s.o.nrCycDesc, (s.descs d).status.cmplt = false) : s.stored.length ≤ R := by
  by_contra hc
  have hf := h.holds.entry R (by omega) (Nat.le_refl R)
  exact hf.not_free (hfree _ (Nat.mod_lt _ h.pos))

/-- **Stream mode delivers every byte once and in order.**  In every state of every run the
delivered bytes are a prefix of the bytes stored by the engine, and they are all of them when the
drain loop has ended and no complete descriptor is left. -/
theorem stream_delivery (hn : 0 < n) (fit : n * bufSize ≤ 2^64)
    (hmode : ∀ m, Act.call m ∈ acts → m = false) :
    let s := Lib.run step (start o descs phys memAddr n bufSize) acts
    s.delivered.flatten <+: blockBytes s.stored ∧
      (s.pc = .out → (∀ d < s.o.nrCycDesc, (s.descs d).status.cmplt = false) →
        s.delivered.flatten = blockBytes s.stored) := by
  intro s
  have h : Inv streamDelivery s :=
    run_inv (P := Inv streamDelivery) (fun _ a hok hs => hs.step a (hs.not_skips a) hok)
      (Along.of_forall step acts (Q := fun a => ∀ m, a = .call m → m = false)
        (fun a ha m e => hmode m (e ▸ ha)) _)
      (Inv.start _ o descs phys memAddr hn fit)
  constructor
  · obtain ⟨taken, dn, td, -, ⟨rest, hp⟩, hlog, -⟩ := h
    rw [show s.delivered.flatten = blockBytes taken from hlog, ← hp, List.append_assoc,
      List.append_assoc, blockBytes_append]
    exact List.prefix_append _ _
  · intro hpc hfree
    obtain ⟨taken, dn, hr, ⟨rest, hp⟩, hlog, -, hdn⟩ := h.idle (by unfold Drain.idle; rw [hpc])
    have hlen := hr.all_taken hfree
    rw [hdn (Or.inl hpc), List.append_nil] at hp
    rw [hdn (Or.inl hpc), ← hp, List.length_append, List.length_nil] at hlen
    have hrest : rest = [] := List.length_eq_zero_iff.mp (by omega)
    rw [show s.delivered.flatten = blockBytes taken from hlog, ← hp, hrest, List.append_nil]

/-- two completions with the second one while the first is copied, drained in two calls -/
def streamRun : List Act :=
  [.store [1, 2], .complete (engStatus 2 true false), .enter, .call false, .sw, .sw, .sw,
    .store [3], .sw, .complete (engStatus 1 false true), .sw, .sw, .sw, .sw, .call false,
    .sw, .sw, .sw, .sw, .sw, .sw, .sw, .sw, .call false, .sw]

theorem stream_delivery_streamRun :
    (Lib.run step (sample 2 4) streamRun).delivered = [[1, 2], [3]] ∧
      (Lib.run step (sample 2 4) streamRun).delivered.flatten
        = blockBytes (Lib.run step (sample 2 4) streamRun).stored :=
  ⟨by decide, (stream_delivery _ _ _ _ streamRun (by decide) (by decide)
    (by decide)).2 (by decide) (by decide)⟩

end

end Drain

end Udmaio
