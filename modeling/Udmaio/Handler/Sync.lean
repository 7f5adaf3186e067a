import Udmaio.Handler.Irq
import Udmaio.Queue.Carries
import Udmaio.Sgdma.Calls

/-!
# `DataHandlerSync`

`process_data` pushes what the drain loop delivers into a queue, and `read` pops from it; both use
the empty vector for "no data".  The engine is any device that leaves a status alone once it is
complete.

* `EngAct`, `Handler.engine`   such an engine, one change at a time;
* `Pc.NonEmpty`                what the drain loop knows about lengths: the buffers that a scan has
                               found stay complete and hold data until `read_buffers` has copied
                               them;
* `DataHandlerSync`, `step`    the I/O thread, the engine, and any number of threads that call
                               `read` and `stop`.  An exception that leaves the I/O thread ends the
                               process;
* `read_empty`                 **no chunk is empty, and `read` returns nothing only after a timeout
                               or an abort.**
-/

namespace Udmaio
open Lib

/-! ## the engine -/

inductive EngAct where
  | status (i : Nat) (st : S2mmDescStatus)
  | data (phys : BitVec 64 → UInt8)
  | reg (sr : S2mmDmasr)

/-- the engine never changes a status whose `cmplt` is 1 -/
def Handler.engine (h : Handler) : EngAct → Handler
  | .status i st =>
    if (h.d.descs i).status.cmplt then h
    else { h with d := { h.d with descs := setStatus h.d.descs i st } }
  | .data phys => { h with d := { h.d with phys := phys } }
  | .reg sr => { h with sr := sr }

theorem Handler.engine_filled (h : Handler) (a : EngAct) {i : Nat}
    (hf : (h.d.descs i).status.filled = true) : ((h.engine a).d.descs i).status.filled = true := by
  cases a with
  | status j st =>
    unfold engine
    dsimp only
    split
    · exact hf
    · next hc =>
      have hne : i ≠ j := by
        rintro rfl
        exact hc (filled_iff.mp hf).1
      show (setStatus h.d.descs j st i).status.filled = true
      rw [setStatus_of_ne _ _ hne]
      exact hf
  | data phys => exact hf
  | reg sr => exact hf

/-! ## the drain loop -/

def Pc.NonEmpty (descs : Nat → S2mmDesc) : Pc → Prop
  | .full l => ∀ i ∈ l.result, (descs i).status.filled = true
  | .packet l => ∀ i ∈ l.result, (descs i).status.filled = true
  | .stats todo done => (todo ≠ [] ∨ done ≠ []) ∧ (∀ i ∈ todo, (descs i).status.filled = true) ∧
      ∀ c ∈ done, c.2.numStoredBytes ≠ 0
  | .copy todo result => (todo ≠ [] ∨ result ≠ []) ∧ ∀ c ∈ todo, c.2.numStoredBytes ≠ 0
  | .wrBack _ todo result => result ≠ [] ∧ ∀ c ∈ todo, c.2.numStoredBytes ≠ 0
  | .process bytes => bytes ≠ []
  | _ => True

theorem Pc.NonEmpty.mono {descs descs' : Nat → S2mmDesc} {p : Pc} (h : p.NonEmpty descs)
    (hf : ∀ i, (descs i).status.filled = true → (descs' i).status.filled = true) :
    p.NonEmpty descs' := by
  cases p with
  | full l => exact fun i hi => hf i (h i hi)
  | packet l => exact fun i hi => hf i (h i hi)
  | stats todo done => exact ⟨h.1, fun i hi => hf i (h.2.1 i hi), h.2.2⟩
  | copy todo result => exact h
  | wrBack c todo result => exact h
  | process bytes => exact h
  | out => exact trivial
  | top => exact trivial
  | failed msg => exact trivial

namespace Drain

/-- no chunk is empty: none that was delivered, and none that is being collected -/
structure NonEmpty (s : Drain) : Prop where
  delivered : ∀ v ∈ s.delivered, v ≠ []
  pc : s.pc.NonEmpty s.descs

theorem NonEmpty.scanned {s : Drain} {r : List Nat} (h : ∀ v ∈ s.delivered, v ≠ [])
    (hr : ∀ i ∈ r, (s.descs i).status.filled = true) : (s.scanned r).NonEmpty := by
  unfold Drain.scanned
  split
  · exact ⟨h, trivial⟩
  · next he =>
    refine ⟨h, Or.inl (fun e => he (List.isEmpty_iff.mpr e)), hr, ?_⟩
    exact fun c hc => absurd hc List.not_mem_nil

/-- an iteration of a scan that has found good buffers only -/
theorem NonEmpty.scanFlow {σ : Type} {s : Drain} {pcOf : σ → Pc} {f : Flow (UioMemSgdma × σ)}
    (h : ∀ v ∈ s.delivered, v ≠ []) (hcont : ∀ p, f = .cont p → (pcOf p.2).NonEmpty s.descs)
    (hret : ∀ p r, f = .ret p r → ∀ i ∈ r, (s.descs i).status.filled = true) :
    (s.scanFlow pcOf f).NonEmpty := by
  cases f with
  | cont p => exact ⟨h, hcont p rfl⟩
  | ret p r => exact NonEmpty.scanned h (hret p r rfl)
  | throw p msg => exact ⟨h, trivial⟩

theorem NonEmpty.fullStep {s : Drain} (h : ∀ v ∈ s.delivered, v ≠ []) {l : FullScan}
    (hl : ∀ i ∈ l.result, (s.descs i).status.filled = true) : (s.fullStep l).NonEmpty := by
  unfold Drain.fullStep
  split
  · refine NonEmpty.scanFlow h (fun p hp => ?_) (fun p r hp => ?_)
    · unfold UioMemSgdma.fullBody at hp
      split_ifs at hp with h1 h2
      obtain rfl := Flow.cont.inj hp
      intro i hi
      rcases List.mem_append.mp hi with hi | hi
      · exact hl i hi
      · rw [List.mem_singleton.mp hi]
        exact filled_iff.mpr ⟨by simpa using h1, h2⟩
    · unfold UioMemSgdma.fullBody at hp
      split_ifs at hp
      obtain ⟨-, rfl⟩ := Flow.ret.inj hp
      exact hl
  · exact NonEmpty.scanned h hl

theorem NonEmpty.packetStep {s : Drain} (h : ∀ v ∈ s.delivered, v ≠ []) {l : PacketScan}
    (hl : ∀ i ∈ l.result, (s.descs i).status.filled = true) : (s.packetStep l).NonEmpty := by
  have hnil : ∀ i ∈ ([] : List Nat), (s.descs i).status.filled = true :=
    fun i hi => absurd hi List.not_mem_nil
  have hnew : (s.descs l.n).status.cmplt = true → (s.descs l.n).status.numStoredBytes ≠ 0 →
      ∀ i ∈ l.result ++ [l.n], (s.descs i).status.filled = true := by
    intro hc hz i hi
    rcases List.mem_append.mp hi with hi | hi
    · exact hl i hi
    · rw [List.mem_singleton.mp hi]
      exact filled_iff.mpr ⟨hc, hz⟩
  unfold Drain.packetStep
  split
  · refine NonEmpty.scanFlow h (fun p hp => ?_) (fun p r hp => ?_)
    · unfold UioMemSgdma.packetBody at hp
      split_ifs at hp with h1 h2 h3 h4
      · obtain rfl := Flow.cont.inj hp
        exact hl
      · obtain rfl := Flow.cont.inj hp
        exact hnew (by simpa using h1) h2
    · unfold UioMemSgdma.packetBody at hp
      split_ifs at hp with h1 h2 h3 h4
      · obtain ⟨-, rfl⟩ := Flow.ret.inj hp
        exact hnil
      · obtain ⟨-, rfl⟩ := Flow.ret.inj hp
        exact hnew (by simpa using h1) h2
  · exact NonEmpty.scanned h hnil

/-- **A step of the software** makes no empty chunk. -/
theorem NonEmpty.swStep {s : Drain} (h : s.NonEmpty) : s.swStep.NonEmpty := by
  obtain ⟨hd, hp⟩ := h
  unfold Drain.swStep
  cases hpc : s.pc with
  | out => exact ⟨hd, by rw [hpc]; exact trivial⟩
  | top => exact ⟨hd, by rw [hpc]; exact trivial⟩
  | failed msg => exact ⟨hd, by rw [hpc]; exact trivial⟩
  | full l =>
    rw [hpc] at hp
    exact NonEmpty.fullStep hd hp
  | packet l =>
    rw [hpc] at hp
    exact NonEmpty.packetStep hd hp
  | stats todo done =>
    rw [hpc] at hp
    obtain ⟨hne, htodo, hdone⟩ := hp
    cases todo with
    | nil => exact ⟨hd, Or.inl (hne.resolve_left (fun e => e rfl)), hdone⟩
    | cons i todo =>
      -- the length is read a second time: the buffer is still complete, so it is the same
      refine ⟨hd, Or.inr (by simp), fun j hj => htodo j (List.mem_cons_of_mem _ hj), fun c hc => ?_⟩
      rcases List.mem_append.mp hc with hc | hc
      · exact hdone c hc
      · rw [List.mem_singleton.mp hc]
        exact (filled_iff.mp (htodo i List.mem_cons_self)).2
  | copy todo result =>
    rw [hpc] at hp
    obtain ⟨hne, htodo⟩ := hp
    cases todo with
    | nil => exact ⟨hd, hne.resolve_left (fun e => e rfl)⟩
    | cons c todo =>
      refine ⟨hd, fun e => ?_, fun c' hc' => htodo c' (List.mem_cons_of_mem _ hc')⟩
      have hlen := congrArg List.length (List.append_eq_nil_iff.mp e).2
      rw [copyFromBuf_eq, load_length] at hlen
      apply htodo c List.mem_cons_self
      exact BitVec.toNat_inj.mp hlen
  | wrBack c todo result =>
    rw [hpc] at hp
    exact ⟨hd, Or.inr hp.1, hp.2⟩
  | process bytes =>
    rw [hpc] at hp
    refine ⟨fun v hv => ?_, trivial⟩
    rcases List.mem_append.mp hv with hv | hv
    · exact hd v hv
    · rw [List.mem_singleton.mp hv]
      exact hp

theorem NonEmpty.enter {s : Drain} (h : s.NonEmpty) : (s.step .enter).NonEmpty := by
  unfold Drain.step
  dsimp only
  split
  · exact ⟨h.delivered, trivial⟩
  · exact h

theorem NonEmpty.call {s : Drain} (h : s.NonEmpty) (rp : Bool) : (s.step (.call rp)).NonEmpty := by
  unfold Drain.step
  dsimp only
  split
  · refine ⟨h.delivered, ?_⟩
    cases rp <;> exact fun i hi => absurd hi List.not_mem_nil
  · exact h

end Drain

namespace Handler

theorem nonEmpty_checked {h : Handler} (hd : h.d.NonEmpty) (stat : S2mmDmasr) :
    (h.checked stat).d.NonEmpty := by
  unfold checked
  split
  · exact hd.enter
  · exact hd

theorem nonEmpty_swStep {h : Handler} (hd : h.d.NonEmpty) : h.swStep.d.NonEmpty := by
  unfold swStep
  cases hpc : h.pc with
  | wait =>
    dsimp only
    split <;> exact hd
  | rdSr => exact hd
  | wrSr stat =>
    dsimp only
    split
    · exact hd
    · apply nonEmpty_checked
      exact hd
  | check stat =>
    dsimp only
    split
    · exact hd
    · exact nonEmpty_checked hd stat
  | drain =>
    dsimp only
    unfold drainStep
    split
    · exact hd
    · exact hd.call h.receivePackets
    · exact hd
    · exact hd.swStep
  | rearm => exact hd
  | failed msg => exact hd

theorem nonEmpty_engine {h : Handler} (hd : h.d.NonEmpty) (a : EngAct) :
    (h.engine a).d.NonEmpty := by
  have hpc := hd.pc.mono fun i hf => h.engine_filled a (i := i) hf
  have hdel := hd.delivered
  cases a with
  | status i st =>
    unfold engine at hpc ⊢
    dsimp only at hpc ⊢
    split
    · exact hd
    · next hc =>
      rw [if_neg hc] at hpc
      exact ⟨hdel, hpc⟩
  | data phys => exact ⟨hdel, hpc⟩
  | reg sr => exact ⟨hdel, hpc⟩

end Handler

/-! ## the queue behind `process_data` -/

/-- what the caller of `read` gets -/
def Ret.value : Ret (List UInt8) → List UInt8
  | .item v => v
  | .empty _ _ => []

/-- `stopped`: `_svc.stop()` has been called; `inStop`: the threads that are in
`DataHandlerSync::stop`, which calls `_queue.abort()` and then `_svc.stop()` -/
structure Svc (ι : Type) where
  stopped : Bool
  inStop : ι → Bool

/-- `q` is `_queue`, `svc` is `_svc` -/
structure DataHandlerSync (ι : Type) where
  h : Handler
  q : QState ι (List UInt8)
  svc : Svc ι

/-- `io` is the next step of the I/O thread outside the queue, `queue` a step of any thread inside
it; `svcStop` is the second half of `stop` -/
inductive SyncAct (ι : Type) where
  | engine (a : EngAct)
  | io
  | read (t : ι) (timed : Bool)
  | stop (t : ι)
  | svcStop (t : ι)
  | queue (a : QAct ι (List UInt8))

/-- the handler has left with an exception -/
def Handler.ended (h : Handler) : Bool :=
  match h.pc with
  | .failed _ => true
  | _ => false

namespace DataHandlerSync
variable {ι : Type} [DecidableEq ι]

section
variable (maxElems : Nat) (io : ι)

def ioStep (s : DataHandlerSync ι) : DataHandlerSync ι :=
  match s.h.pc, s.h.d.pc with
  -- `process_data` is `_queue.push`
  | .drain, .process bytes =>
    { s with h := s.h.swStep, q := s.q.step maxElems (.call io (.push bytes)) }
  | .wait, _ => if s.svc.stopped then s else { s with h := s.h.swStep }
  | _, _ => { s with h := s.h.swStep }

/-- a `push` that throws ends the handler -/
def queueStep (s : DataHandlerSync ι) (a : QAct ι (List UInt8)) : DataHandlerSync ι :=
  match a with
  | .call _ _ => s
  | .run t =>
    { s with
      h := if t = io ∧ s.q.pc io = .pushThrow then { s.h with pc := .failed fullMsg } else s.h
      q := s.q.step maxElems (.run t) }
  | _ => { s with q := s.q.step maxElems a }

/-- a thread that calls neither `read` nor `stop`; the I/O thread calls none of the two -/
def Outside (s : DataHandlerSync ι) (t : ι) : Prop :=
  t ≠ io ∧ s.q.pc t = .idle ∧ s.svc.inStop t = false

instance (s : DataHandlerSync ι) (t : ι) : Decidable (Outside io s t) :=
  inferInstanceAs (Decidable (_ ∧ _))

def readCall (s : DataHandlerSync ι) (t : ι) (timed : Bool) : DataHandlerSync ι :=
  if Outside io s t then { s with q := s.q.step maxElems (.call t (.pop timed)) } else s

def stopCall (s : DataHandlerSync ι) (t : ι) : DataHandlerSync ι :=
  if Outside io s t then
    { s with
      q := s.q.step maxElems (.call t .abort)
      svc := ⟨s.svc.stopped, Function.update s.svc.inStop t true⟩ }
  else s

/-- `_svc.stop()`, after `abort` has returned -/
def svcStop (s : DataHandlerSync ι) (t : ι) : DataHandlerSync ι :=
  if s.q.pc t = .idle ∧ s.svc.inStop t = true then
    { s with svc := ⟨true, Function.update s.svc.inStop t false⟩ }
  else s

def stepLive (s : DataHandlerSync ι) : SyncAct ι → DataHandlerSync ι
  | .engine a => { s with h := s.h.engine a }
  | .io => if s.q.pc io = .idle then s.ioStep maxElems io else s
  | .read t timed => s.readCall maxElems io t timed
  | .stop t => s.stopCall maxElems io t
  | .svcStop t => s.svcStop t
  | .queue a => s.queueStep maxElems io a

/-- no thread goes on after `std::terminate` -/
def step (s : DataHandlerSync ι) (a : SyncAct ι) : DataHandlerSync ι :=
  if s.h.ended then s else s.stepLive maxElems io a

end

/-- `operator()` on a ring that `init_buffers` has set up -/
def start (receivePackets : Bool) (d : Drain) : DataHandlerSync ι :=
  ⟨Handler.start receivePackets d, QState.start, ⟨false, fun _ => false⟩⟩

structure Inv (maxElems : Nat) (s : DataHandlerSync ι) : Prop where
  chunks : s.h.d.NonEmpty
  queue : QState.Inv maxElems s.q
  items : QState.Carries (fun v => v ≠ []) s.q

variable {maxElems : Nat} {io : ι} {s : DataHandlerSync ι}

/-- a step of the queue that pushes no empty vector -/
theorem Inv.queue_step (h : Inv maxElems s) {h' : Handler} (hh : h'.d.NonEmpty)
    (a : QAct ι (List UInt8)) (ha : ∀ t v, a = .call t (.push v) → v ≠ []) (svc : Svc ι) :
    Inv maxElems ⟨h', s.q.step maxElems a, svc⟩ :=
  ⟨hh, h.queue.step a, h.items.step a ha⟩

theorem Inv.ioStep (h : Inv maxElems s) : Inv maxElems (s.ioStep maxElems io) := by
  have hsw : s.h.swStep.d.NonEmpty := Handler.nonEmpty_swStep h.chunks
  unfold DataHandlerSync.ioStep
  split
  · next bytes _ hpc =>
    refine h.queue_step hsw _ (fun t v e => ?_) _
    obtain ⟨-, rfl⟩ : io = t ∧ bytes = v := by simpa using e
    have hp := h.chunks.pc
    rw [hpc] at hp
    exact hp
  · split
    · exact h
    · exact ⟨hsw, h.queue, h.items⟩
  · exact ⟨hsw, h.queue, h.items⟩

theorem Inv.queueStep (h : Inv maxElems s) (a : QAct ι (List UInt8)) :
    Inv maxElems (s.queueStep maxElems io a) := by
  cases a with
  | call t c => exact h
  | run t =>
    refine h.queue_step ?_ _ (by simp) _
    split <;> exact h.chunks
  | notify t target => exact h.queue_step h.chunks _ (by simp) _
  | wake u => exact h.queue_step h.chunks _ (by simp) _
  | reacquire u timeout => exact h.queue_step h.chunks _ (by simp) _

theorem Inv.step (h : Inv maxElems s) (a : SyncAct ι) : Inv maxElems (s.step maxElems io a) := by
  unfold DataHandlerSync.step
  split
  · exact h
  cases a with
  | engine a => exact ⟨Handler.nonEmpty_engine h.chunks a, h.queue, h.items⟩
  | io =>
    unfold stepLive
    dsimp only
    split
    · exact h.ioStep
    · exact h
  | read t timed =>
    unfold stepLive readCall
    dsimp only
    split
    · exact h.queue_step h.chunks _ (by simp) _
    · exact h
  | stop t =>
    unfold stepLive stopCall
    dsimp only
    split
    · exact h.queue_step h.chunks _ (by simp) _
    · exact h
  | svcStop t =>
    unfold stepLive svcStop
    dsimp only
    split
    · exact ⟨h.chunks, h.queue, h.items⟩
    · exact h
  | queue a => exact h.queueStep a

/-- **Data chunks are never empty**, in either mode and with any engine; hence `read` returns the
empty vector only because of a timeout or an abort. -/
theorem read_empty (receivePackets : Bool) (o : UioMemSgdma) (descs : Nat → S2mmDesc)
    (phys : BitVec 64 → UInt8) (memAddr : BitVec 64) (n bufSize maxElems : Nat) (io : ι)
    (acts : List (SyncAct ι)) :
    let s := Lib.run (step maxElems io)
      (start receivePackets (Drain.start o descs phys memAddr n bufSize)) acts
    (∀ v ∈ s.h.d.delivered, v ≠ []) ∧
    ∀ r ∈ s.q.results, r.value = [] → ∃ timedOut left, r = .empty timedOut left ∧
      (timedOut = true ∨ s.q.abort = true) := by
  intro s
  have hstart : Inv maxElems (start receivePackets (Drain.start o descs phys memAddr n bufSize) :
      DataHandlerSync ι) :=
    ⟨⟨fun v hv => absurd hv List.not_mem_nil, trivial⟩, QState.Inv.start, QState.Carries.start⟩
  have h : Inv maxElems s := run_inv' (P := Inv maxElems) (fun _ a h => h.step a) acts hstart
  refine ⟨h.chunks.delivered, fun r hr hv => ?_⟩
  rcases h.items.result h.queue hr with ⟨v, rfl, hne⟩ | hempty
  · exact absurd hv hne
  · exact hempty

/-- the engine completes buffer 0 with two bytes, the I/O thread pushes them, thread 1 reads -/
def syncRun : List (SyncAct (Fin 2)) :=
  .io :: .engine (.data fun _ => 5) :: .engine (.status 0 (Drain.engStatus 2 true true)) ::
    .engine (.reg { iocIrq := true }) :: (List.replicate 12 SyncAct.io ++
      List.replicate 4 (SyncAct.queue (.run 0)) ++ SyncAct.queue (.notify 0 none) ::
        SyncAct.read 1 false :: List.replicate 4 (SyncAct.queue (.run 1)))

example : (Lib.run (step 64 0) (start true (Drain.sample 2 4)) syncRun).q.results
    = [.item [5, 5]] := by
  decide +kernel

end DataHandlerSync

end Udmaio
