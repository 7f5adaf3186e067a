import Udmaio.Sgdma.Owner

/-!
# The software side of the drain loop

The log `stored` is `taken ++ dn ++ td ++ ..`:

* `taken`   blocks of the vectors already passed to `process_data`;
* `dn`      blocks of the present call that are copied and handed back;
* `td`      blocks of the present call that are not (found by the scan, or still to be copied).

`Drain.Thread` says what the locals of the software are at each place, given these three lists.
What a call may hand out is left open: `Delivery` is the discipline (which scans are called, what
is known of the blocks of one call, what `delivered` says about `taken`).

`Inv.step`: **every step keeps the invariant**, if it does not skip a buffer without SOF.  A scan
that throws at an empty block leaves the ring and the logs as they are.
-/

namespace Udmaio
open Lib

/-- a delivery discipline: the scans that may be called (packet: `true`), what is known of the
blocks that a packet scan has seen and of the blocks of one call, and of the vectors delivered for
the blocks taken -/
structure Delivery where
  allows : Bool → Prop
  scan : List Block → Prop
  chunk : List Block → Prop
  log : List Block → List (List UInt8) → Prop
  scan_nil : scan []
  scan_snoc : ∀ td b, scan td → b.status.rxeof = false → scan (td ++ [b])
  chunk_packet : ∀ td b, scan td → b.status.rxeof = true → chunk (td ++ [b])
  chunk_full : allows false → ∀ td, chunk td
  log_nil : log [] []
  log_chunk : ∀ taken dl c, log taken dl → chunk c → log (taken ++ c) (dl ++ [blockBytes c])

namespace Drain

def Thread (D : Delivery) (s : Drain) (taken dn td : List Block) : Prop :=
  let N := s.o.nrCycDesc
  match s.pc with
  | .out => dn = [] ∧ td = [] ∧ s.o.nextReadableBuf = taken.length % N
  | .top => dn = [] ∧ td = [] ∧ s.o.nextReadableBuf = taken.length % N
  | .full l => D.allows false ∧ dn = [] ∧ l = ⟨td.length, cycSeq N taken.length td.length⟩ ∧
      s.o.nextReadableBuf = (taken.length + td.length) % N
  | .packet l => D.allows true ∧ D.scan td ∧ dn = [] ∧
      l = ⟨td.length, (taken.length + td.length) % N, !td.isEmpty,
        cycSeq N taken.length td.length⟩ ∧
      s.o.nextReadableBuf = taken.length % N
  | .stats todo done => D.chunk td ∧ dn = [] ∧
      s.o.nextReadableBuf = (taken.length + td.length) % N ∧
      ∃ a b, td = a ++ b ∧ done = entries N taken.length a ∧
        todo = cycSeq N (taken.length + a.length) b.length
  | .copy todo result => D.chunk (dn ++ td) ∧ result = blockBytes dn ∧
      s.o.nextReadableBuf = (taken.length + dn.length + td.length) % N ∧
      todo = entries N (taken.length + dn.length) td
  | .wrBack c todo result => D.chunk (dn ++ td) ∧
      s.o.nextReadableBuf = (taken.length + dn.length + td.length) % N ∧
      c :: todo = entries N (taken.length + dn.length) td ∧
      ∃ b rest, td = b :: rest ∧ result = blockBytes (dn ++ [b])
  | .process bytes => D.chunk dn ∧ td = [] ∧ bytes = blockBytes dn ∧
      s.o.nextReadableBuf = (taken.length + dn.length) % N
  | .failed _ => True

def Inv (D : Delivery) (s : Drain) : Prop :=
  ∃ taken dn td, Ring s (taken.length + dn.length) ∧ taken ++ dn ++ td <+: s.stored ∧
    D.log taken s.delivered ∧ Thread D s taken dn td

section
variable {D : Delivery} {s : Drain} {taken dn td : List Block}

/-- a step of the engine keeps the invariant: the software does not move and the log grows -/
theorem Inv.engine {s' : Drain} (h : Inv D s) (ho : s'.o = s.o) (hpc : s'.pc = s.pc)
    (hdel : s'.delivered = s.delivered) (hlog : s.stored <+: s'.stored)
    (hring : ∀ R, Ring s R → Ring s' R) : Inv D s' := by
  obtain ⟨taken, dn, td, hr, hp, hd, ht⟩ := h
  refine ⟨taken, dn, td, hring _ hr, hp.trans hlog, hdel ▸ hd, ?_⟩
  unfold Thread at ht ⊢
  rw [ho, hpc]
  exact ht

theorem Inv.store (h : Inv D s) (bs : List UInt8) : Inv D (s.engStore bs) := by
  obtain ⟨phys, buf, e⟩ := engStore_cases s bs
  refine h.engine ?_ ?_ ?_ ?_ (fun R hr => hr.engStore bs) <;> rw [e]

theorem Inv.complete (h : Inv D s) (st : S2mmDescStatus) : Inv D (s.engComplete st) := by
  rcases engComplete_cases s st with e | ⟨b, -, -, e⟩
  · rw [e]; exact h
  · refine h.engine ?_ ?_ ?_ ?_ (fun R hr => hr.engComplete st) <;> rw [e]
    exact List.prefix_append _ _

theorem Inv.scanned (hr : Ring s taken.length) (hp : taken ++ td <+: s.stored)
    (hd : D.log taken s.delivered) (hc : D.chunk td)
    (hn : s.o.nextReadableBuf = (taken.length + td.length) % s.o.nrCycDesc) :
    Inv D (s.scanned (cycSeq s.o.nrCycDesc taken.length td.length)) := by
  unfold Drain.scanned
  by_cases ht : td = []
  · subst ht
    exact ⟨taken, [], [], hr.setPc _ _ _, by rwa [List.append_nil], hd, rfl, rfl, hn⟩
  · rw [if_neg (by simpa [cycSeq_eq_nil] using ht)]
    exact ⟨taken, [], td, hr.setPc _ _ _, by rwa [List.append_nil], hd, hc, rfl, hn, [], td, rfl,
      rfl, rfl⟩

theorem Inv.scanned_nil (hr : Ring s taken.length) (hp : taken <+: s.stored)
    (hd : D.log taken s.delivered) (hn : s.o.nextReadableBuf = taken.length % s.o.nrCycDesc) :
    Inv D (s.scanned []) :=
  ⟨taken, [], [], hr.setPc _ _ _, by rwa [List.append_nil, List.append_nil], hd, rfl, rfl, hn⟩

/-- a scan that has thrown keeps the invariant -/
theorem Inv.failed (hr : Ring s taken.length) (hp : taken <+: s.stored)
    (hd : D.log taken s.delivered) (msg : String) : Inv D { s with pc := .failed msg } :=
  ⟨taken, [], [], hr.setPc _ _ _, by rwa [List.append_nil, List.append_nil], hd, trivial⟩

/-! ## the scans -/

theorem Inv.full (hr : Ring s taken.length) (hp : taken ++ td <+: s.stored)
    (hd : D.log taken s.delivered) (ha : D.allows false)
    (hn : s.o.nextReadableBuf = (taken.length + td.length) % s.o.nrCycDesc) :
    Inv D (s.fullStep ⟨td.length, cycSeq s.o.nrCycDesc taken.length td.length⟩) := by
  unfold fullStep
  by_cases hi : td.length < s.o.nrCycDesc
  · rw [if_pos hi, hn]
    cases hc : (s.descs ((taken.length + td.length) % s.o.nrCycDesc)).status.cmplt with
    | false =>
      simp only [UioMemSgdma.fullBody, scanFlow, hc, Bool.not_false, if_true]
      exact Inv.scanned hr hp hd (D.chunk_full ha td) hn
    | true =>
      obtain ⟨b, hb, hst⟩ := hr.next_block hp List.length_append hi hc
      simp only [UioMemSgdma.fullBody, hst, b.cmplt, Bool.not_true, Bool.false_eq_true, if_false]
      by_cases hz : b.status.numStoredBytes = 0
      · rw [if_pos hz]
        exact Inv.failed hr ((List.prefix_append _ _).trans hp) hd _
      · rw [if_neg hz]
        simp only [scanFlow]
        refine ⟨taken, [], td ++ [b], hr.setPc _ _ _, by simpa using hb, hd, ha, rfl, ?_, ?_⟩
        · show FullScan.mk _ _ = FullScan.mk _ _
          rw [hn, List.length_append, List.length_singleton, cycSeq_succ]
        · show (s.o.nextReadableBuf + 1) % _ = _
          rw [hn, succ_mod, List.length_append, List.length_singleton]
  · rw [if_neg hi]
    exact Inv.scanned hr hp hd (D.chunk_full ha td) hn

/-- a step of `get_next_packet` that does not skip -/
theorem Inv.packet (hr : Ring s taken.length) (hp : taken ++ td <+: s.stored)
    (hd : D.log taken s.delivered) (ha : D.allows true) (hs : D.scan td)
    (hn : s.o.nextReadableBuf = taken.length % s.o.nrCycDesc)
    (hskip : td = [] → (s.descs (taken.length % s.o.nrCycDesc)).status.cmplt = true →
      (s.descs (taken.length % s.o.nrCycDesc)).status.numStoredBytes ≠ 0 →
      (s.descs (taken.length % s.o.nrCycDesc)).status.rxsof = true) :
    Inv D (s.packetStep ⟨td.length, (taken.length + td.length) % s.o.nrCycDesc, !td.isEmpty,
      cycSeq s.o.nrCycDesc taken.length td.length⟩) := by
  have hp0 : taken <+: s.stored := (List.prefix_append _ _).trans hp
  unfold packetStep
  by_cases hi : td.length < s.o.nrCycDesc
  · rw [if_pos hi]
    cases hc : (s.descs ((taken.length + td.length) % s.o.nrCycDesc)).status.cmplt with
    | false =>
      simp only [UioMemSgdma.packetBody, scanFlow, hc, Bool.not_false, if_true]
      exact Inv.scanned_nil hr hp0 hd hn
    | true =>
      obtain ⟨b, hb, hst⟩ := hr.next_block hp List.length_append hi hc
      simp only [UioMemSgdma.packetBody, hst, b.cmplt, Bool.not_true, Bool.false_eq_true, if_false]
      by_cases hz : b.status.numStoredBytes = 0
      · rw [if_pos hz]
        exact Inv.failed hr hp0 hd _
      have hsof : (!td.isEmpty || b.status.rxsof) = true := by
        cases td with
        | nil =>
          rw [← hst] at hz ⊢
          exact hskip rfl hc hz
        | cons c td => rfl
      have hno : (!(!td.isEmpty) && !b.status.rxsof) = false := by
        rw [← Bool.not_or, hsof]
        rfl
      have hseq : cycSeq s.o.nrCycDesc taken.length td.length
          ++ [(taken.length + td.length) % s.o.nrCycDesc]
            = cycSeq s.o.nrCycDesc taken.length (td ++ [b]).length := by
        rw [List.length_append, List.length_singleton, cycSeq_succ]
      simp only [if_neg hz, hno, Bool.false_eq_true, if_false, hsof, hseq, succ_mod]
      cases he : b.status.rxeof with
      | true =>
        simp only [if_true, scanFlow]
        refine Inv.scanned (hr.setPc _ _ _) ?_ hd (D.chunk_packet td b hs he) ?_
        · rwa [← List.append_assoc]
        · rw [List.length_append, List.length_singleton]
      | false =>
        simp only [Bool.false_eq_true, if_false, scanFlow]
        refine ⟨taken, [], td ++ [b], hr.setPc _ _ _, by simpa using hb, hd, ha,
          D.scan_snoc td b hs he, rfl, ?_, hn⟩
        show PacketScan.mk _ _ _ _ = PacketScan.mk _ _ _ _
        rw [List.length_append, List.length_singleton]
        congr 1
        cases td <;> rfl
  · rw [if_neg hi]
    exact Inv.scanned_nil hr hp0 hd hn

/-! ## `read_buffers` -/

theorem Inv.stats {i : Nat} {todo : List Nat} {done : List Stat} {a b : List Block}
    (hr : Ring s taken.length) (hp : taken ++ (a ++ b) <+: s.stored)
    (hd : D.log taken s.delivered) (hc : D.chunk (a ++ b))
    (hn : s.o.nextReadableBuf = (taken.length + (a ++ b).length) % s.o.nrCycDesc)
    (hdone : done = entries s.o.nrCycDesc taken.length a)
    (htodo : i :: todo = cycSeq s.o.nrCycDesc (taken.length + a.length) b.length) :
    Inv D { s with pc := .stats todo (done ++ [(i, (s.descs i).status)]) } := by
  cases b with
  | nil => exact absurd htodo (by simp [cycSeq_zero])
  | cons c b =>
    rw [List.length_cons, cycSeq_cons] at htodo
    obtain ⟨hi, htodo⟩ := List.cons.inj htodo
    have hpre : taken ++ a ++ [c] <+: s.stored :=
      List.IsPrefix.trans ⟨b, by simp⟩ hp
    have hf := hr.full_at hpre (by rw [List.length_append]; omega)
    rw [List.length_append, ← hi] at hf
    refine ⟨taken, [], a ++ c :: b, hr.setPc _ _ _, by rwa [List.append_nil], hd, hc, rfl, hn,
      a ++ [c], b, by simp, ?_, ?_⟩
    · rw [entries_snoc, ← hdone, hf.status, hi]
    · rw [htodo, List.length_append, List.length_singleton, Nat.add_assoc]

theorem Inv.copy {c : Stat} {todo : List Stat} {result : List UInt8}
    (hr : Ring s (taken.length + dn.length)) (hp : taken ++ dn ++ td <+: s.stored)
    (hd : D.log taken s.delivered) (hc : D.chunk (dn ++ td)) (hres : result = blockBytes dn)
    (hn : s.o.nextReadableBuf = (taken.length + dn.length + td.length) % s.o.nrCycDesc)
    (htodo : c :: todo = entries s.o.nrCycDesc (taken.length + dn.length) td) :
    Inv D { s with
      pc := .wrBack c todo (appendFromBuf s.o.memAddr s.phys (s.region c) result) } := by
  refine ⟨taken, dn, td, hr.setPc _ _ _, hp, hd, hc, hn, htodo, ?_⟩
  cases td with
  | nil => exact absurd htodo (by simp [entries])
  | cons b rest =>
    obtain ⟨rfl, -⟩ := List.cons.inj htodo
    refine ⟨b, rest, rfl, ?_⟩
    have hpre : taken ++ dn ++ [b] <+: s.stored := List.IsPrefix.trans ⟨rest, by simp⟩ hp
    have hf := hr.full_at hpre (by rw [List.length_append])
    rw [List.length_append] at hf
    unfold appendFromBuf region
    rw [copyFromBuf_eq, b.length, hf.bytes, hres, blockBytes_append, blockBytes_singleton]

theorem Inv.wrBack {c : Stat} {todo : List Stat} {result : List UInt8} {b : Block}
    {rest : List Block} (hr : Ring s (taken.length + dn.length))
    (hp : taken ++ dn ++ b :: rest <+: s.stored) (hd : D.log taken s.delivered)
    (hc : D.chunk (dn ++ b :: rest)) (hres : result = blockBytes (dn ++ [b]))
    (hn : s.o.nextReadableBuf = (taken.length + dn.length + (b :: rest).length) % s.o.nrCycDesc)
    (htodo : c :: todo = entries s.o.nrCycDesc (taken.length + dn.length) (b :: rest)) :
    Inv D { s with
      descs := setStatus s.descs c.1 { c.2 with cmplt := false }, pc := .copy todo result } := by
  obtain ⟨rfl, rfl⟩ := List.cons.inj htodo
  have hlt : taken.length + dn.length < s.stored.length := by
    have := hp.length_le
    simp only [List.length_append, List.length_cons] at this
    omega
  have e : taken.length + (dn ++ [b]).length = taken.length + dn.length + 1 := by
    rw [List.length_append, List.length_singleton, Nat.add_assoc]
  refine ⟨taken, dn ++ [b], rest, ?_, by simpa using hp, hd, by simpa using hc, hres, ?_, ?_⟩
  · rw [e]
    exact hr.release hlt _ rfl _
  · show s.o.nextReadableBuf = _
    rw [e, hn, List.length_cons, Nat.add_assoc _ 1, Nat.add_comm 1]
  · rw [e]

theorem Inv.process {bytes : List UInt8} (hr : Ring s (taken.length + dn.length))
    (hp : taken ++ dn <+: s.stored) (hd : D.log taken s.delivered) (hc : D.chunk dn)
    (hb : bytes = blockBytes dn)
    (hn : s.o.nextReadableBuf = (taken.length + dn.length) % s.o.nrCycDesc) :
    Inv D { s with delivered := s.delivered ++ [bytes], pc := .top } := by
  refine ⟨taken ++ dn, [], [], ?_, ?_, ?_, rfl, rfl, ?_⟩
  · rw [List.length_append]
    exact hr.setPc _ _ _
  · rwa [List.append_nil, List.append_nil]
  · rw [hb]
    exact D.log_chunk taken _ dn hd hc
  · rw [List.length_append]
    exact hn

/-! ## every step -/

theorem Inv.sw (h : Inv D s) (hskip : s.skips .sw = false) : Inv D s.swStep := by
  have ⟨taken, dn, td, hr, hp, hd, ht⟩ := h
  unfold Thread at ht
  unfold swStep
  cases hpc : s.pc with
  | out => exact h
  | top => exact h
  | failed msg => exact h
  | full l =>
    rw [hpc] at ht
    obtain ⟨ha, rfl, rfl, hn⟩ := ht
    exact Inv.full hr (by rwa [List.append_nil] at hp) hd ha hn
  | packet l =>
    rw [hpc] at ht
    obtain ⟨ha, hs, rfl, rfl, hn⟩ := ht
    rw [List.append_nil] at hp
    refine Inv.packet hr hp hd ha hs hn (fun he hc hz => ?_)
    subst he
    by_contra hsof
    rw [(skips_packet hpc).mpr ⟨hr.pos, hc, hz, rfl, by simpa using hsof⟩] at hskip
    cases hskip
  | stats todo done =>
    rw [hpc] at ht
    obtain ⟨hc, rfl, hn, a, b, rfl, hdone, htodo⟩ := ht
    rw [List.append_nil] at hp
    cases todo with
    | nil =>
      have hb : b = [] := by
        rw [← List.length_eq_zero_iff, ← cycSeq_eq_nil]
        exact htodo.symm
      subst hb
      rw [List.append_nil] at hp hc hn
      exact ⟨taken, [], a, hr.setPc _ _ _, by rwa [List.append_nil], hd, hc, rfl, hn, hdone⟩
    | cons i todo => exact Inv.stats hr hp hd hc hn hdone htodo
  | copy todo result =>
    rw [hpc] at ht
    obtain ⟨hc, hres, hn, htodo⟩ := ht
    cases todo with
    | nil =>
      cases td with
      | nil =>
        rw [List.append_nil] at hc
        exact ⟨taken, dn, [], hr.setPc _ _ _, hp, hd, hc, rfl, hres, hn⟩
      | cons b rest => exact absurd htodo (by simp [entries])
    | cons c todo => exact Inv.copy hr hp hd hc hres hn htodo
  | wrBack c todo result =>
    rw [hpc] at ht
    obtain ⟨hc, hn, htodo, b, rest, rfl, hres⟩ := ht
    exact Inv.wrBack hr hp hd hc hres hn htodo
  | process bytes =>
    rw [hpc] at ht
    obtain ⟨hc, rfl, hb, hn⟩ := ht
    rw [List.append_nil] at hp
    exact Inv.process hr hp hd hc hb hn

/-- **Every step keeps the invariant** of a discipline that allows the calls of the run. -/
theorem Inv.step (h : Inv D s) (a : Act) (hskip : s.skips a = false)
    (hcall : ∀ m, a = .call m → D.allows m) : Inv D (s.step a) := by
  cases a with
  | store bs => exact h.store bs
  | complete st => exact h.complete st
  | sw => exact h.sw hskip
  | enter =>
    show Inv D (if s.pc = .out then { s with pc := .top } else s)
    by_cases hpc : s.pc = .out
    · rw [if_pos hpc]
      obtain ⟨taken, dn, td, hr, hp, hd, ht⟩ := h
      unfold Thread at ht
      rw [hpc] at ht
      exact ⟨taken, dn, td, hr.setPc _ _ _, hp, hd, ht⟩
    · rw [if_neg hpc]
      exact h
  | call m =>
    show Inv D (if s.pc = .top then _ else s)
    by_cases hpc : s.pc = .top
    · rw [if_pos hpc]
      obtain ⟨taken, dn, td, hr, hp, hd, ht⟩ := h
      unfold Thread at ht
      rw [hpc] at ht
      obtain ⟨rfl, rfl, hn⟩ := ht
      refine ⟨taken, [], [], hr.setPc _ _ _, hp, hd, ?_⟩
      have ha := hcall m rfl
      cases m with
      | false => exact ⟨ha, rfl, rfl, hn⟩
      | true => exact ⟨ha, D.scan_nil, rfl, congrArg (PacketScan.mk 0 · false []) hn, hn⟩
    · rw [if_neg hpc]
      exact h

end

/-! ## the start -/

section
variable (D : Delivery) (o : UioMemSgdma) (descs : Nat → S2mmDesc) (phys : BitVec 64 → UInt8)
  (memAddr : BitVec 64) {n bufSize : Nat}

theorem Ring.start (hn : 0 < n) (fit : n * bufSize ≤ 2^64) :
    Ring (start o descs phys memAddr n bufSize) 0 := by
  have hN : (Drain.start o descs phys memAddr n bufSize).o.nrCycDesc = n :=
    UioMemSgdma.initBuffers_nrCycDesc o descs memAddr n bufSize
  refine ⟨?_, ?_, fun d hd => ?_, fun d hd => ?_, ⟨Nat.le_refl 0, Nat.zero_le _, ?_, ?_⟩,
    ?_, ?_, ?_⟩
  · rw [hN]; exact hn
  · rw [hN]; exact fit
  · rw [hN] at hd
    exact UioMemSgdma.initBuffers_bufAddr o descs memAddr n bufSize hd
  · rw [hN] at hd
    exact UioMemSgdma.initBuffers_bufferAddr o descs memAddr n bufSize hd
  · intro j hj
    exact absurd hj (Nat.not_lt_zero j)
  · intro d _ hd
    rw [hN] at hd
    show ((UioMemSgdma.initBuffers o descs memAddr n bufSize).2 d).status.cmplt = false
    rw [UioMemSgdma.initBuffers_status o descs memAddr n bufSize hd]
    rfl
  · exact (Nat.zero_mod _).symm
  · intro b hb
    exact absurd hb (by simp [Drain.start])
  · intro bs hbs
    exact absurd hbs (by simp [Drain.start])

theorem Inv.start (hn : 0 < n) (fit : n * bufSize ≤ 2^64) :
    Inv D (start o descs phys memAddr n bufSize) :=
  ⟨[], [], [], Ring.start o descs phys memAddr hn fit, List.nil_prefix, D.log_nil, rfl, rfl,
    (Nat.zero_mod _).symm⟩

end

end Drain

end Udmaio
