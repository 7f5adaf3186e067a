import Udmaio.Handler.Sync
import Udmaio.Queue.Producer

/-!
# From the engine to the caller of `read`

The whole path of the data: the engine of `Udmaio.Handler.Irq` fills the ring and raises interrupts,
the I/O thread drains the ring into the queue, any number of threads call `read` and `stop`.

* `SysAct`, `sysStep`   the system: `DataHandlerSync` with that engine;
* `Link`                what the handler and the queue know about each other: the vectors passed to
                        `process_data` are the items that the I/O thread has pushed;
* `read_in_order`       **the vectors returned by `read` are the stream, or its packets, in order**,
                        up to what has not been read yet;
* `read_complete`       **once the handler waits and no interrupt is due, nothing is missing**: what
                        was read and what is in the queue make up the stream.
-/

namespace Udmaio
open Lib

/-! ## two views of one ring -/

namespace Drain

theorem Ring.unique {s : Drain} {R R' : Nat} (h : Ring s R) (h' : Ring s R') : R = R' := by
  have hx : ∀ d b, s.Full d b → ¬ s.Free d := fun _ _ hf => hf.not_free
  rcases Nat.le_total R R' with hle | hle
  · exact h.holds.start_unique h'.holds hx hle
  · exact (h'.holds.start_unique h.holds hx hle).symm

theorem scanned_delivered (s : Drain) (r : List Nat) : (s.scanned r).delivered = s.delivered := by
  unfold scanned
  split <;> rfl

theorem scanFlow_delivered {σ : Type} (s : Drain) (pcOf : σ → Pc) (f : Flow (UioMemSgdma × σ)) :
    (s.scanFlow pcOf f).delivered = s.delivered := by
  cases f with
  | cont p => rfl
  | ret p r => exact scanned_delivered _ r
  | throw p msg => rfl

theorem swStep_delivered (s : Drain) (hne : ∀ bytes, s.pc ≠ .process bytes) :
    s.swStep.delivered = s.delivered := by
  unfold swStep
  cases hpc : s.pc with
  | full l =>
    dsimp only
    unfold fullStep
    split
    · exact scanFlow_delivered ..
    · exact scanned_delivered ..
  | packet l =>
    dsimp only
    unfold packetStep
    split
    · exact scanFlow_delivered ..
    · exact scanned_delivered ..
  | stats todo done => cases todo <;> rfl
  | copy todo result => cases todo <;> rfl
  | process bytes => exact absurd hpc (hne bytes)
  | out => rfl
  | top => rfl
  | wrBack c todo result => rfl
  | failed msg => rfl

theorem Inv.delivered_prefix_stream {s : Drain} (h : Inv streamDelivery s) :
    s.delivered.flatten <+: blockBytes s.stored := by
  obtain ⟨taken, dn, td, -, ⟨rest, hp⟩, hlog, -⟩ := h
  rw [show s.delivered.flatten = blockBytes taken from hlog, ← hp, List.append_assoc,
    List.append_assoc, blockBytes_append]
  exact List.prefix_append _ _

theorem Inv.delivered_prefix_packets {s : Drain} (h : Inv packetDelivery s) :
    s.delivered <+: (framing s.stored).packets := by
  obtain ⟨taken, dn, td, -, ⟨rest, hp⟩, hlog, -⟩ := h
  rw [hlog.1, ← hp, List.append_assoc, List.append_assoc, framing_append]
  exact Framing.foldl_add_packets _ _

/-- a drained ring outside the drain loop: the blocks taken are those delivered -/
theorem Inv.drained {s : Drain} {rp : Bool} (h : Inv (modeDelivery rp) s) (hpc : s.pc = .out)
    (hd : s.Drained rp) : ∃ taken td, s.stored = taken ++ td ∧
      (modeDelivery rp).log taken s.delivered ∧
      (td = [] ∨ rp = true ∧ ∀ b ∈ td, b.status.rxeof = false) := by
  obtain ⟨taken, dn, td, hr, hp, hlog, ht⟩ := h
  obtain ⟨taken', td', hr', hst, -, htd⟩ := hd
  unfold Thread at ht
  rw [hpc] at ht
  obtain ⟨rfl, rfl, -⟩ := ht
  rw [List.append_nil, List.append_nil] at hp
  have hlen : taken.length = taken'.length := hr.unique hr'
  have hp' : taken' <+: s.stored := ⟨td', hst.symm⟩
  have htk : taken = taken' :=
    (List.prefix_of_prefix_length_le hp hp' (Nat.le_of_eq hlen)).eq_of_length hlen
  rw [← htk] at hst
  exact ⟨taken, td', hst, hlog, htd⟩

end Drain

/-! ## frame lemmas of the handler -/

namespace Handler

theorem step_pc_of_engine (h : Handler) {a : HAct} (ha : a ≠ .sw) : (h.step a).pc = h.pc ∧
    (h.step a).d.delivered = h.d.delivered := by
  cases a with
  | store bs =>
    obtain ⟨phys, buf, e⟩ := Drain.engStore_cases h.d bs
    refine ⟨rfl, ?_⟩
    show (h.d.engStore bs).delivered = _
    rw [e]
  | complete st =>
    show (h.complete st).pc = _ ∧ (h.complete st).d.delivered = _
    rcases h.complete_cases st with e | e
    · rw [e]
      exact ⟨rfl, rfl⟩
    · rw [e]
      refine ⟨rfl, ?_⟩
      show (h.d.engComplete st).delivered = _
      rcases Drain.engComplete_cases h.d st with e' | ⟨b, -, -, e'⟩ <;> rw [e']
  | raise =>
    show h.raise.pc = _ ∧ h.raise.d.delivered = _
    rcases h.raise_cases with e | e <;> rw [e] <;> exact ⟨rfl, rfl⟩
  | sw => exact absurd rfl ha

theorem checked_delivered (h : Handler) (stat : S2mmDmasr) :
    (h.checked stat).d.delivered = h.d.delivered := by
  unfold checked
  split
  · show (if _ then _ else _ : Drain).delivered = _
    split <;> rfl
  · rfl

/-- `process_data` is called at one place -/
theorem swStep_delivered (h : Handler) (hne : ∀ bytes, h.pc = .drain → h.d.pc ≠ .process bytes) :
    h.swStep.d.delivered = h.d.delivered := by
  unfold swStep
  cases hpc : h.pc with
  | wait =>
    dsimp only
    split <;> rfl
  | rdSr => rfl
  | wrSr stat =>
    dsimp only
    split
    · rfl
    · exact checked_delivered _ stat
  | check stat =>
    dsimp only
    split
    · rfl
    · exact checked_delivered h stat
  | drain =>
    dsimp only
    unfold drainStep
    split
    · rfl
    · show (if _ then _ else _ : Drain).delivered = _
      split <;> rfl
    · rfl
    · exact h.d.swStep_delivered fun bytes => hne bytes hpc
  | rearm => rfl
  | failed msg => rfl

/-- mode and ring size are fixed in a run, and the invariant holds as long as the stream is one that
the mode can take -/
structure Sound (receivePackets : Bool) (n : Nat) (h : Handler) : Prop where
  mode : h.receivePackets = receivePackets
  size : h.d.o.nrCycDesc = n
  inv : h.d.StreamOk h.receivePackets → h.Inv

theorem Sound.step {rp : Bool} {n : Nat} {h : Handler} (hs : Sound rp n h) (a : HAct) :
    Sound rp n (h.step a) := by
  refine ⟨(run_frame [a] h).1.trans hs.mode, (run_frame [a] h).2.trans hs.size, fun hok => ?_⟩
  have hok' := streamOk_of_step hok
  exact (hs.inv hok').step hok' a

theorem Sound.start (rp : Bool) (o : UioMemSgdma) (descs : Nat → S2mmDesc)
    (phys : BitVec 64 → UInt8) (memAddr : BitVec 64) {n bufSize : Nat} (hn : 0 < n)
    (fit : n * bufSize ≤ 2^64) :
    Sound rp n (Handler.start rp (Drain.start o descs phys memAddr n bufSize)) :=
  ⟨rfl, UioMemSgdma.initBuffers_nrCycDesc o descs memAddr n bufSize,
    fun _ => Inv.start rp o descs phys memAddr hn fit⟩

theorem Sound.framed {rp : Bool} {n : Nat} {h : Handler} (hs : Sound rp n h)
    (hf : rp = true → WellFramed n h.d.stored) : h.receivePackets = rp ∧ h.Inv := by
  refine ⟨hs.mode, hs.inv fun hrp => ?_⟩
  rw [hs.size]
  exact hf (hs.mode.symm.trans hrp)

/-- the handler waits and no interrupt is to come: everything has been delivered -/
theorem Inv.delivered_all {rp : Bool} {h : Handler} (hi : h.Inv) (hrp : h.receivePackets = rp)
    (hpc : h.pc = .wait) (hioc : h.sr.iocIrq = false) (howed : h.owed = 0) :
    (rp = false → h.d.delivered.flatten = blockBytes h.d.stored) ∧
      (rp = true → h.d.delivered = (framing h.d.stored).packets) := by
  have hplace := hi.place
  unfold Handler.Place at hplace
  rw [hpc] at hplace
  obtain ⟨taken, td, hst, hlog, htd⟩ := hi.drain.drained hplace.1 (hplace.2 hioc howed)
  rw [hrp] at hlog htd
  rw [hst]
  constructor
  · rintro rfl
    rcases htd with rfl | ⟨h, -⟩
    · rw [List.append_nil]
      exact hlog
    · cases h
  · rintro rfl
    have hopen : ∀ b ∈ td, b.status.rxeof = false := by
      rcases htd with rfl | ⟨-, h⟩
      · exact fun b hb => absurd hb List.not_mem_nil
      · exact h
    rw [framing_append, Framing.foldl_add_open td hopen]
    exact hlog.1

end Handler

/-! ## the system -/

inductive SysAct (ι : Type) where
  | store (bytes : List UInt8)
  | complete (status : S2mmDescStatus)
  | raise
  | io
  | read (t : ι) (timed : Bool)
  | stop (t : ι)
  | svcStop (t : ι)
  | queue (a : QAct ι (List UInt8))

namespace DataHandlerSync
variable {ι : Type} [DecidableEq ι]

def sysLive (maxElems : Nat) (io : ι) (s : DataHandlerSync ι) : SysAct ι → DataHandlerSync ι
  | .store bytes => { s with h := s.h.step (.store bytes) }
  | .complete st => { s with h := s.h.step (.complete st) }
  | .raise => { s with h := s.h.step .raise }
  | .io => s.stepLive maxElems io .io
  | .read t timed => s.stepLive maxElems io (.read t timed)
  | .stop t => s.stepLive maxElems io (.stop t)
  | .svcStop t => s.stepLive maxElems io (.svcStop t)
  | .queue a => s.stepLive maxElems io (.queue a)

def sysStep (maxElems : Nat) (io : ι) (s : DataHandlerSync ι) (a : SysAct ι) : DataHandlerSync ι :=
  if s.h.ended then s else s.sysLive maxElems io a

theorem sysStep_cases (maxElems : Nat) (io : ι) (s : DataHandlerSync ι) (a : SysAct ι) :
    s.h.ended = true ∧ s.sysStep maxElems io a = s ∨
      s.h.ended = false ∧ s.sysStep maxElems io a = s.sysLive maxElems io a := by
  unfold sysStep
  cases he : s.h.ended with
  | true => exact Or.inl ⟨rfl, rfl⟩
  | false => exact Or.inr ⟨rfl, rfl⟩

/-- `q.thrown` is not empty: the I/O thread has left the handler with an exception -/
structure Link (maxElems : Nat) (io : ι) (s : DataHandlerSync ι) : Prop where
  queue : QState.Inv maxElems s.q
  sole : QState.Sole io s.q
  produced : QState.Produced io s.q s.h.d.delivered
  busy : s.q.pc io ≠ .idle → s.h.pc = .drain
  thrown : s.q.thrown ≠ [] → ∃ msg, s.h.pc = .failed msg

variable {maxElems : Nat} {io : ι} {s : DataHandlerSync ι}

omit [DecidableEq ι] in
/-- a step that leaves the producer alone -/
theorem Link.aside (h : Link maxElems io s) {q' : QState ι (List UInt8)}
    (hi : QState.Inv maxElems q') (ha : QState.Aside io s.q q') (svc : Svc ι) :
    Link maxElems io ⟨s.h, q', svc⟩ where
  queue := hi
  sole := ha.sole h.sole
  produced := ha.produced h.produced
  busy hpc := h.busy (by rwa [← ha.pc])
  thrown ht := h.thrown (by rwa [← ha.thrown])

omit [DecidableEq ι] in
/-- a step of the handler, while the I/O thread is not in `push`, that calls no `process_data` -/
theorem Link.handler (h : Link maxElems io s) {h' : Handler}
    (hdel : h'.d.delivered = s.h.d.delivered) (hbusy : s.q.pc io ≠ .idle → h'.pc = s.h.pc)
    (hthr : ∀ msg, s.h.pc = .failed msg → h'.pc = s.h.pc) (svc : Svc ι) :
    Link maxElems io ⟨h', s.q, svc⟩ where
  queue := h.queue
  sole := h.sole
  produced := by
    show QState.Produced io s.q h'.d.delivered
    rw [hdel]
    exact h.produced
  busy hpc := (hbusy hpc).trans (h.busy hpc)
  thrown ht := by
    obtain ⟨msg, hm⟩ := h.thrown ht
    exact ⟨msg, (hthr msg hm).trans hm⟩

omit [DecidableEq ι] in
theorem Link.engine (h : Link maxElems io s) {a : HAct} (ha : a ≠ .sw) (svc : Svc ι) :
    Link maxElems io ⟨s.h.step a, s.q, svc⟩ :=
  have he := s.h.step_pc_of_engine ha
  h.handler he.2 (fun _ => he.1) (fun _ _ => he.1) svc

/-- the call of `process_data` is a call of `push` -/
theorem Link.process (h : Link maxElems io s) (hidle : s.q.pc io = .idle) (hpc : s.h.pc = .drain)
    {bytes : List UInt8} (hd : s.h.d.pc = .process bytes) (svc : Svc ι) :
    Link maxElems io ⟨s.h.swStep, s.q.step maxElems (.call io (.push bytes)), svc⟩ := by
  have hsw : s.h.swStep = { s.h with d := s.h.d.swStep } := by
    simp only [Handler.swStep, hpc, Handler.drainStep, hd, Drain.step]
  have hdsw : s.h.d.swStep.delivered = s.h.d.delivered ++ [bytes] := by
    simp only [Drain.swStep, hd]
  have hthr : s.q.thrown = [] := by
    by_contra hne
    obtain ⟨msg, hm⟩ := h.thrown hne
    rw [hpc] at hm
    cases hm
  have hq : s.q.step maxElems (.call io (.push bytes)) = s.q.goto io (.pushLock bytes) := by
    simp only [QState.step, hidle, Call.entry]
  have hinv := h.queue.step (.call io (.push bytes))
  rw [hq] at hinv ⊢
  rw [hsw]
  refine ⟨hinv, h.sole.goto (Or.inr rfl) rfl, ?_, fun _ => hpc, fun ht => absurd hthr ht⟩
  show QState.Produced io _ s.h.d.swStep.delivered
  rw [hdsw]
  exact h.produced.push hidle hthr bytes

theorem Link.ioStep (h : Link maxElems io s) (hidle : s.q.pc io = .idle) :
    Link maxElems io (s.ioStep maxElems io) := by
  have hbusy : ∀ {p : HPc}, s.q.pc io ≠ .idle → p = s.h.pc := fun hb => absurd hidle hb
  have hthr : ∀ msg, s.h.pc = .failed msg → s.h.swStep.pc = s.h.pc := by
    intro msg hm
    simp only [Handler.swStep, hm]
  unfold DataHandlerSync.ioStep
  split
  · next bytes hpc hd => exact h.process hidle hpc hd _
  · next hpc =>
    split
    · exact h
    · refine h.handler (s.h.swStep_delivered fun bytes e => ?_) hbusy hthr _
      rw [hpc] at e
      cases e
  · next hne => exact h.handler (s.h.swStep_delivered hne) hbusy hthr _

/-- a step in the queue -/
theorem Link.queueStep (h : Link maxElems io s) (a : QAct ι (List UInt8)) :
    Link maxElems io (s.queueStep maxElems io a) := by
  unfold DataHandlerSync.queueStep
  cases a with
  | call t c => exact h
  | run t =>
    have hinv := h.queue.step (.run t)
    dsimp only
    by_cases ht : t = io
    · subst ht
      obtain ⟨hprod, hsole⟩ : QState.Produced t (s.q.threadStep maxElems t) s.h.d.delivered ∧ _ :=
        h.produced.run h.sole
      by_cases hth : s.q.pc t = .pushThrow
      · -- the exception leaves `process_data` and the handler
        rw [if_pos ⟨rfl, hth⟩]
        refine ⟨hinv, hsole, hprod, fun hb => absurd ?_ hb, fun _ => ⟨_, rfl⟩⟩
        simp [QState.step, QState.threadStep, hth, QState.release, QState.goto]
      · rw [if_neg fun e => hth e.2]
        refine ⟨hinv, hsole, hprod, fun hb => h.busy fun e => hb ?_,
          fun hne => h.thrown fun e => hne ?_⟩
        · simp only [QState.step, QState.threadStep, e]
        · rw [QState.step, QState.threadStep_thrown hth, e]
    · rw [if_neg fun e => ht e.1]
      exact h.aside hinv (QState.Aside.threadStep h.sole ht) _
  | notify t target =>
    have hinv := h.queue.step (.notify t target)
    by_cases ht : t = io
    · subst ht
      obtain ⟨hprod, hsole⟩ := h.produced.notify h.sole target
      refine ⟨hinv, hsole, hprod, fun hb => h.busy fun e => hb ?_,
        fun hne => h.thrown fun e => hne ?_⟩
      · simp only [QState.step, QState.notifyStep, e]
      · rw [QState.step, QState.notifyStep_thrown, e]
    · exact h.aside hinv (QState.Aside.notifyStep h.sole ht target) _
  | wake u => exact h.aside (h.queue.step _) (QState.Aside.wake h.sole u) _
  | reacquire u timeout =>
    exact h.aside (h.queue.step _) (QState.Aside.reacquire h.sole u timeout) _

/-- **Every step keeps the link.** -/
theorem Link.step (h : Link maxElems io s) (a : SysAct ι) :
    Link maxElems io (s.sysStep maxElems io a) := by
  rcases sysStep_cases maxElems io s a with ⟨-, e⟩ | ⟨-, e⟩ <;> rw [e]
  · exact h
  cases a with
  | store bytes => exact h.engine (fun e => by cases e) _
  | complete st => exact h.engine (fun e => by cases e) _
  | raise => exact h.engine (fun e => by cases e) _
  | io =>
    unfold sysLive stepLive
    dsimp only
    split
    · next hidle => exact h.ioStep hidle
    · exact h
  | read t timed =>
    unfold sysLive stepLive readCall
    dsimp only
    split
    · next ht => exact h.aside (h.queue.step _) (QState.Aside.call ht.1 rfl) _
    · exact h
  | stop t =>
    unfold sysLive stepLive stopCall
    dsimp only
    split
    · next ht => exact h.aside (h.queue.step _) (QState.Aside.call ht.1 rfl) _
    · exact h
  | svcStop t =>
    unfold sysLive stepLive svcStop
    dsimp only
    split
    · exact h.aside h.queue (QState.Aside.refl _) _
    · exact h
  | queue a => exact h.queueStep a

omit [DecidableEq ι] in
theorem Link.start (receivePackets : Bool) (d : Drain) (hd : d.delivered = []) :
    Link maxElems io (start receivePackets d : DataHandlerSync ι) where
  queue := QState.Inv.start
  sole := QState.Sole.start
  produced := by
    show QState.Produced io QState.start d.delivered
    rw [hd]
    exact QState.Produced.start
  busy hb := absurd rfl hb
  thrown hne := absurd rfl hne

omit [DecidableEq ι] in
/-- while the handler waits, every vector passed to `push` is accepted -/
theorem Link.accepted_of_wait (h : Link maxElems io s) (hpc : s.h.pc = .wait) :
    s.h.d.delivered = s.q.accepted := by
  have hidle : s.q.pc io = .idle := by
    by_contra hb
    rw [h.busy hb] at hpc
    cases hpc
  have hthr : s.q.thrown = [] := by
    by_contra hne
    obtain ⟨msg, hm⟩ := h.thrown hne
    rw [hpc] at hm
    cases hm
  have hp := h.produced
  unfold QState.Produced at hp
  rw [hidle] at hp
  rcases hp with hp | hp
  · exact hp.1
  · rw [hthr] at hp
    cases hp.2

omit [DecidableEq ι] in
/-- .. and has been returned, or is in the queue -/
theorem Link.returned_of_wait (h : Link maxElems io s) (hpc : s.h.pc = .wait) :
    s.q.popped ++ s.q.queue = s.h.d.delivered := by
  rw [← h.queue.conserved]
  exact (h.accepted_of_wait hpc).symm

/-! ## runs -/

/-- what a step does to the handler: a step of its own, none, or the exception of `push` -/
theorem sysStep_handler (maxElems : Nat) (io : ι) (s : DataHandlerSync ι) (a : SysAct ι) :
    (s.sysStep maxElems io a).h = s.h ∨ (∃ b, (s.sysStep maxElems io a).h = s.h.step b) ∨
      (s.sysStep maxElems io a).h = { s.h with pc := .failed fullMsg } := by
  rcases sysStep_cases maxElems io s a with ⟨-, e⟩ | ⟨-, e⟩ <;> rw [e]
  · exact Or.inl rfl
  cases a with
  | store bytes => exact Or.inr (Or.inl ⟨.store bytes, rfl⟩)
  | complete st => exact Or.inr (Or.inl ⟨.complete st, rfl⟩)
  | raise => exact Or.inr (Or.inl ⟨.raise, rfl⟩)
  | io =>
    unfold sysLive stepLive
    dsimp only
    by_cases hidle : s.q.pc io = .idle
    · rw [if_pos hidle]
      unfold ioStep
      split
      · exact Or.inr (Or.inl ⟨.sw, rfl⟩)
      · split
        · exact Or.inl rfl
        · exact Or.inr (Or.inl ⟨.sw, rfl⟩)
      · exact Or.inr (Or.inl ⟨.sw, rfl⟩)
    · rw [if_neg hidle]
      exact Or.inl rfl
  | read t timed =>
    unfold sysLive stepLive readCall
    dsimp only
    split <;> exact Or.inl rfl
  | stop t =>
    unfold sysLive stepLive stopCall
    dsimp only
    split <;> exact Or.inl rfl
  | svcStop t =>
    unfold sysLive stepLive svcStop
    dsimp only
    split <;> exact Or.inl rfl
  | queue a =>
    unfold sysLive stepLive queueStep
    dsimp only
    split
    · exact Or.inl rfl
    · dsimp only
      split
      · exact Or.inr (Or.inr rfl)
      · exact Or.inl rfl
    · exact Or.inl rfl

theorem sysStep_sound {rp : Bool} {n : Nat} (h : s.h.Sound rp n) (a : SysAct ι) :
    (s.sysStep maxElems io a).h.Sound rp n := by
  rcases sysStep_handler maxElems io s a with e | ⟨b, e⟩ | e
  · rw [e]
    exact h
  · rw [e]
    exact h.step b
  · rw [e]
    exact ⟨h.mode, h.size, fun hok => ⟨(h.inv hok).drain, (h.inv hok).err, trivial⟩⟩

section
variable (receivePackets : Bool) (o : UioMemSgdma) (descs : Nat → S2mmDesc)
  (phys : BitVec 64 → UInt8) (memAddr : BitVec 64) {n bufSize : Nat} (maxElems : Nat) (io : ι)
  (acts : List (SysAct ι))

theorem run_link :
    Link maxElems io (Lib.run (sysStep maxElems io)
      (start receivePackets (Drain.start o descs phys memAddr n bufSize)) acts) :=
  run_inv' (P := Link maxElems io) (fun _ a h => h.step a) acts (Link.start _ _ rfl)

theorem run_sound (hn : 0 < n) (fit : n * bufSize ≤ 2^64)
    (hf : receivePackets = true → WellFramed n (Lib.run (sysStep maxElems io) (start receivePackets
      (Drain.start o descs phys memAddr n bufSize)) acts).h.d.stored) :
    let s := Lib.run (sysStep maxElems io)
      (start receivePackets (Drain.start o descs phys memAddr n bufSize)) acts
    s.h.receivePackets = receivePackets ∧ s.h.Inv := by
  intro s
  have h : s.h.Sound receivePackets n :=
    run_inv' (P := fun s : DataHandlerSync ι => s.h.Sound receivePackets n)
      (fun _ a h => sysStep_sound h a) acts
      (.start receivePackets o descs phys memAddr hn fit)
  exact h.framed hf

/-- the I/O thread `false` takes an interrupt, pushes the buffer of two bytes and goes back to wait;
the thread `true` reads -/
def readRun : List (SysAct Bool) :=
  .io :: .store [1, 2] :: .complete (Drain.engStatus 2 true true) :: .raise ::
    (List.replicate 12 SysAct.io ++ List.replicate 4 (SysAct.queue (.run false)) ++
      SysAct.queue (.notify false none) :: (List.replicate 4 SysAct.io ++
        SysAct.read true false :: List.replicate 4 (SysAct.queue (.run true))))

/-- **`read` returns the stream in order**, in vectors of any size in stream mode and one packet
each in packet mode; nothing is returned twice, and nothing but what the engine has stored. -/
theorem read_in_order (hn : 0 < n) (fit : n * bufSize ≤ 2^64)
    (hf : receivePackets = true → WellFramed n (Lib.run (sysStep maxElems io) (start receivePackets
      (Drain.start o descs phys memAddr n bufSize)) acts).h.d.stored) :
    let s := Lib.run (sysStep maxElems io)
      (start receivePackets (Drain.start o descs phys memAddr n bufSize)) acts
    (receivePackets = false → s.q.popped.flatten <+: blockBytes s.h.d.stored) ∧
      (receivePackets = true → s.q.popped <+: (framing s.h.d.stored).packets) := by
  intro s
  have hlink : Link maxElems io s := run_link receivePackets o descs phys memAddr maxElems io acts
  obtain ⟨hrp, hi⟩ := run_sound receivePackets o descs phys memAddr maxElems io acts hn fit hf
  have hpre := hlink.produced.popped_log hlink.queue
  have hd := hi.drain
  rw [hrp] at hd
  constructor
  · rintro rfl
    obtain ⟨more, hmore⟩ := hpre
    refine List.IsPrefix.trans ?_ hd.delivered_prefix_stream
    rw [← hmore, List.flatten_append]
    exact List.prefix_append _ _
  · rintro rfl
    exact hpre.trans hd.delivered_prefix_packets

theorem read_in_order_readRun :
    (Lib.run (sysStep 64 false) (start true (Drain.sample 2 4)) readRun).q.popped = [[1, 2]] ∧
      (Lib.run (sysStep 64 false) (start true (Drain.sample 2 4)) readRun).q.popped <+:
        (framing (Lib.run (sysStep 64 false) (start true (Drain.sample 2 4))
          readRun).h.d.stored).packets :=
  ⟨by decide +kernel, (read_in_order true _ _ _ _ 64 false readRun (by decide) (by decide)
    (by decide +kernel)).2 rfl⟩

/-- **Nothing is missing** when the handler waits, `ioc_irq` is clear and the engine owes no
interrupt: the vectors returned and those in the queue are all of the stream, or all of its
packets. -/
theorem read_complete (hn : 0 < n) (fit : n * bufSize ≤ 2^64)
    (hf : receivePackets = true → WellFramed n (Lib.run (sysStep maxElems io) (start receivePackets
      (Drain.start o descs phys memAddr n bufSize)) acts).h.d.stored) :
    let s := Lib.run (sysStep maxElems io)
      (start receivePackets (Drain.start o descs phys memAddr n bufSize)) acts
    s.h.pc = .wait → s.h.sr.iocIrq = false → s.h.owed = 0 →
    (receivePackets = false → (s.q.popped ++ s.q.queue).flatten = blockBytes s.h.d.stored) ∧
      (receivePackets = true → s.q.popped ++ s.q.queue = (framing s.h.d.stored).packets) := by
  intro s hpc hioc howed
  have hlink : Link maxElems io s := run_link receivePackets o descs phys memAddr maxElems io acts
  obtain ⟨hrp, hi⟩ := run_sound receivePackets o descs phys memAddr maxElems io acts hn fit hf
  rw [hlink.returned_of_wait hpc]
  exact hi.delivered_all hrp hpc hioc howed

/-- in packet mode the packet is `[1, 2]`, in stream mode the same bytes -/
theorem read_complete_readRun :
    let s := Lib.run (sysStep 64 false) (start true (Drain.sample 2 4)) readRun
    let s' := Lib.run (sysStep 64 false) (start false (Drain.sample 2 4)) readRun
    (s.q.popped = [[1, 2]] ∧ s.q.popped ++ s.q.queue = (framing s.h.d.stored).packets) ∧
      s'.q.popped = [[1, 2]] ∧ (s'.q.popped ++ s'.q.queue).flatten = blockBytes s'.h.d.stored :=
  ⟨⟨by decide +kernel, (read_complete true _ _ _ _ 64 false readRun (by decide) (by decide)
      (by decide +kernel) (by decide +kernel) (by decide +kernel) (by decide +kernel)).2 rfl⟩,
    by decide +kernel, (read_complete false _ _ _ _ 64 false readRun (by decide) (by decide)
      (by decide +kernel) (by decide +kernel) (by decide +kernel) (by decide +kernel)).1 rfl⟩

end

end DataHandlerSync

end Udmaio
