import Udmaio.Handler.Live
import Udmaio.Handler.Reads
import Udmaio.Queue.Live

/-!
# Shutting down

`stop` sets `_abort`, notifies, and stops the I/O service.  The I/O thread finishes what it is at,
up to a scan that finds nothing, and the consumers still pop.  Each step of the handler lowers its
rank; a step in the queue leaves the handler alone, or throws it out, and lowers the weight of the
calls; the end of a `stop` leaves one less of them.

* `QState.Leaves`   a step lets no thread into `abort`, and out of it only to the end of the call;
* `Stops`           where the threads in `stop` are: one that is not in `abort` has to stop the
                    service next;
* `SysMove`         what a step can do to the system once nobody calls `read` or `stop` any more;
* `Closing`         the invariant;
* `AtRest`          how it ends;
* `shutdown`        **the system comes to rest**, unless a full queue ends the process: the calls
                    have returned, those of `stop` among them, and the I/O thread is back from the
                    service.  What it has not delivered is still in the ring.
-/

namespace Udmaio
open Lib

/-! ## threads in `abort` -/

def QPc.aborts {T : Type} : QPc T → Bool
  | .abortSet => true
  | .abortNotify => true
  | _ => false

namespace QState
variable {ι T : Type} {maxElems : Nat} {s s' s'' : QState ι T} {t : ι} {p : QPc T}

def Leaves (s s' : QState ι T) : Prop := ∀ t,
  ((s'.pc t).aborts = true → (s.pc t).aborts = true) ∧
    ((s.pc t).aborts = true ∨ s.pc t = .idle → (s'.pc t).aborts = true ∨ s'.pc t = .idle)

theorem Leaves.of_pc (h : s'.pc = s.pc) : Leaves s s' := by
  intro t
  rw [h]
  exact ⟨id, id⟩

theorem Leaves.trans (h : Leaves s s') (h' : Leaves s' s'') : Leaves s s'' :=
  fun t => ⟨fun ha => (h t).1 ((h' t).1 ha), fun ha => (h' t).2 ((h t).2 ha)⟩

variable [DecidableEq ι]

theorem Leaves.move (hpc : s'.pc = Function.update s.pc t p)
    (hin : p.aborts = true → (s.pc t).aborts = true)
    (hout : (s.pc t).aborts = true ∨ s.pc t = .idle → p.aborts = true ∨ p = .idle) :
    Leaves s s' := by
  intro u
  by_cases hu : u = t
  · rw [hpc, hu, Function.update_self]
    exact ⟨hin, hout⟩
  · rw [hpc, Function.update_of_ne hu]
    exact ⟨id, id⟩

/-- a thread in another call moves on -/
theorem Leaves.other (hpc : s'.pc = Function.update s.pc t p) (hp : p.aborts = false)
    (ht : (s.pc t).aborts = false) (hidle : s.pc t ≠ .idle) : Leaves s s' := by
  refine .move hpc (fun ha => ?_) fun ha => ?_
  · exact Bool.noConfusion (hp.symm.trans ha)
  · rcases ha with ha | ha
    · exact Bool.noConfusion (ht.symm.trans ha)
    · exact absurd ha hidle

/-- a call ends -/
theorem Leaves.idle (hpc : s'.pc = Function.update s.pc t .idle) : Leaves s s' :=
  .move hpc (fun ha => by cases ha) fun _ => .inr rfl

theorem Leaves.acquire (hp : p.aborts = false) (ht : (s.pc t).aborts = false)
    (hidle : s.pc t ≠ .idle) : Leaves s (s.acquire t p) := by
  unfold QState.acquire
  split
  · exact .other rfl hp ht hidle
  · exact .of_pc rfl

theorem Leaves.threadStep (s : QState ι T) (maxElems : Nat) (t : ι) :
    Leaves s (s.threadStep maxElems t) := by
  have hother : ∀ {q : QPc T} {s' : QState ι T}, s'.pc = Function.update s.pc t q →
      q.aborts = false → (s.pc t).aborts = false → s.pc t ≠ .idle → Leaves s s' :=
    fun h hq ht hi => .other h hq ht hi
  unfold QState.threadStep
  cases hpc : s.pc t with
  | popLock timed => exact .acquire rfl (by rw [hpc]; rfl) (by rw [hpc]; nofun)
  | pushLock item => exact .acquire rfl (by rw [hpc]; rfl) (by rw [hpc]; nofun)
  | popTest timed =>
    exact hother rfl (by split <;> rfl) (by rw [hpc]; rfl) (by rw [hpc]; nofun)
  | popAbort timed =>
    exact hother rfl (by split <;> rfl) (by rw [hpc]; rfl) (by rw [hpc]; nofun)
  | popEnter timed => exact hother rfl rfl (by rw [hpc]; rfl) (by rw [hpc]; nofun)
  | popLeave timedOut => exact .idle rfl
  | popTake =>
    dsimp only
    split
    · exact hother rfl rfl (by rw [hpc]; rfl) (by rw [hpc]; nofun)
    · exact .of_pc rfl
  | popUnlock => exact hother rfl rfl (by rw [hpc]; rfl) (by rw [hpc]; nofun)
  | pushTest item =>
    exact hother rfl (by split <;> rfl) (by rw [hpc]; rfl) (by rw [hpc]; nofun)
  | pushThrow => exact .idle rfl
  | pushAppend item => exact hother rfl rfl (by rw [hpc]; rfl) (by rw [hpc]; nofun)
  | pushUnlock => exact hother rfl rfl (by rw [hpc]; rfl) (by rw [hpc]; nofun)
  | abortSet => exact .move rfl (fun _ => by rw [hpc]; rfl) fun _ => .inl rfl
  | idle => exact .of_pc rfl
  | waiting timed => exact .of_pc rfl
  | woken timed => exact .of_pc rfl
  | popNotify => exact .of_pc rfl
  | pushNotify => exact .of_pc rfl
  | abortNotify => exact .of_pc rfl

theorem Leaves.wakeUp (s : QState ι T) (u : ι) : Leaves s (s.wakeUp u) := by
  unfold QState.wakeUp
  cases hpc : s.pc u with
  | waiting timed => exact .other rfl rfl (by rw [hpc]; rfl) (by rw [hpc]; nofun)
  | _ => exact .of_pc (Function.update_eq_self_iff.mpr hpc.symm)

theorem Leaves.notifyStep (s : QState ι T) (t : ι) (target : Option ι) :
    Leaves s (s.notifyStep t target) := by
  have hnotified : ∀ n, s.notifyOne target = some n → Leaves s n := by
    intro n hn
    rcases notifyOne_cases hn with ⟨u, -, rfl⟩ | ⟨-, rfl⟩
    · exact .wakeUp s u
    · exact .of_pc rfl
  rcases s.notifyStep_cases t target with ⟨n, hn, -, e⟩ | ⟨n, hn, -, e⟩ | e <;> rw [e]
  · exact (hnotified n hn).trans (.idle rfl)
  · exact (hnotified n hn).trans (.idle rfl)
  · exact .of_pc rfl

theorem Leaves.step (s : QState ι T) (maxElems : Nat) {a : QAct ι T}
    (ha : ∀ t c, a ≠ .call t c) : Leaves s (s.step maxElems a) := by
  refine step_rule (P := Leaves s) a (.of_pc rfl) ?_ (.threadStep s maxElems)
    (fun t target _ => .notifyStep s t target) (fun u _ => .wakeUp s u) ?_
  · intro t c e _
    exact absurd e (ha t c)
  · intro u timed timeout hpc
    exact .acquire (by split <;> rfl) (by rw [hpc]; rfl) (by rw [hpc]; nofun)

/-- `_abort` is set at one place -/
theorem abort_of_threadStep (h : (s.threadStep maxElems t).abort = true) :
    s.abort = true ∨ s.pc t = .abortSet := by
  unfold QState.threadStep QState.acquire at h
  cases hpc : s.pc t with
  | abortSet => exact .inr rfl
  | _ =>
    rw [hpc] at h
    dsimp only at h
    left
    first
    | exact h
    | (split at h <;> exact h)

theorem abort_of_step {a : QAct ι T} (h : (s.step maxElems a).abort = true) :
    s.abort = true ∨ ∃ t, s.pc t = .abortSet := by
  revert h
  refine step_rule (P := fun g => g.abort = true → s.abort = true ∨ ∃ t, s.pc t = .abortSet) a
    .inl (fun _ _ _ _ => .inl) (fun t h => (abort_of_threadStep h).imp_right fun e => ⟨t, e⟩) ?_
    (fun _ _ => .inl) ?_
  · intro t target _
    rcases s.notifyStep_cases t target with ⟨n, hn, -, e⟩ | ⟨n, hn, -, e⟩ | e <;> rw [e]
    · exact fun h => .inl ((notifyOne_abort hn).symm.trans h)
    · exact fun h => .inl ((notifyOne_abort hn).symm.trans h)
    · exact .inl
  · intro u timed timeout _
    unfold QState.acquire
    split <;> exact .inl

end QState

namespace Handler

/-- on its way, or left with the exception of `push` -/
def Alive (h : Handler) : Prop := h.Inv ∧ h.Going ∨ h.pc = .failed fullMsg

theorem Alive.step {h : Handler} (ha : h.Alive) (hok : h.d.StreamOk h.receivePackets)
    (hne : ∀ b ∈ h.d.stored, b.bytes ≠ []) (a : HAct) : (h.step a).Alive := by
  rcases ha with ⟨hi, hg⟩ | hpc
  · exact .inl ⟨hi.step hok a, hg.step hi hne a⟩
  · right
    by_cases hsw : a = .sw
    · subst hsw
      show h.swStep.pc = _
      simp only [swStep, hpc]
    · rw [(h.step_pc_of_engine hsw).1, hpc]

theorem Going.not_ended {h : Handler} (hg : h.Going) : h.ended = false := by
  unfold ended
  split
  · next msg hpc => exact absurd hpc (hg.handler msg)
  · rfl

theorem rank_lt_failed {h : Handler} (hpc : h.pc = .drain) (msg : String) :
    Handler.rank { h with pc := .failed msg } < h.rank := by
  refine rank_lt_of_place rfl rfl ?_
  show 0 < h.place
  unfold place
  rw [hpc]
  exact Nat.succ_pos 3

end Handler

namespace DataHandlerSync
variable {ι : Type} {maxElems : Nat} {io : ι} {s s' : DataHandlerSync ι}

/-- the engine stores nothing more, and nobody calls `read` or `stop` -/
def Closes : SysAct ι → Prop
  | .raise => True
  | .io => True
  | .svcStop _ => True
  | .queue _ => True
  | _ => False

/-- what a fair schedule gives: the I/O thread and the interrupts their turn, the threads in the
queue theirs, and those in `stop` the second half of it -/
def Turn (timed : ι → Prop) : SysAct ι → Prop
  | .raise => True
  | .io => True
  | .svcStop _ => True
  | .queue a => QState.Turn timed a
  | _ => False

/-! ## threads in `stop` -/

structure Stops (io : ι) (s : DataHandlerSync ι) : Prop where
  inside : ∀ t, (s.q.pc t).aborts = true → s.svc.inStop t = true
  place : ∀ t, s.svc.inStop t = true → (s.q.pc t).aborts = true ∨ s.q.pc t = .idle
  flag : s.q.abort = true → s.svc.stopped = true ∨ ∃ t, s.svc.inStop t = true
  producer : s.svc.inStop io = false

theorem Stops.handler (h : Stops io s) (h' : Handler) : Stops io ⟨h', s.q, s.svc⟩ :=
  ⟨h.inside, h.place, h.flag, h.producer⟩

theorem Stops.start (rp : Bool) (d : Drain) : Stops io (start rp d : DataHandlerSync ι) where
  inside _ h := by cases h
  place _ h := by cases h
  flag h := by cases h
  producer := rfl

variable [DecidableEq ι]

/-- a step in the queue -/
theorem Stops.queue (h : Stops io s) {a : QAct ι (List UInt8)} (ha : ∀ t c, a ≠ .call t c)
    (h' : Handler) : Stops io ⟨h', s.q.step maxElems a, s.svc⟩ where
  inside t ht := h.inside t ((QState.Leaves.step s.q maxElems ha t).1 ht)
  place t ht := (QState.Leaves.step s.q maxElems ha t).2 (h.place t ht)
  flag hf := by
    rcases QState.abort_of_step hf with hab | ⟨t, ht⟩
    · exact h.flag hab
    · exact .inr ⟨t, h.inside t (by rw [ht]; rfl)⟩
  producer := h.producer

/-- a call of `pop` or `push` -/
theorem Stops.call (h : Stops io s) {t : ι} (hidle : s.q.pc t = .idle)
    (hout : s.svc.inStop t = false) {c : Call (List UInt8)} (hc : c.entry.aborts = false)
    (h' : Handler) : Stops io ⟨h', s.q.step maxElems (.call t c), s.svc⟩ := by
  have hq : s.q.step maxElems (.call t c) = s.q.goto t c.entry := by
    simp only [QState.step, hidle]
  rw [hq]
  refine ⟨fun u hu => ?_, fun u hu => ?_, h.flag, h.producer⟩
  · by_cases e : u = t
    · rw [e] at hu
      have hu' : (Function.update s.q.pc t c.entry t).aborts = true := hu
      rw [Function.update_self, hc] at hu'
      cases hu'
    · have hu' : (Function.update s.q.pc t c.entry u).aborts = true := hu
      rw [Function.update_of_ne e] at hu'
      exact h.inside u hu'
  · have hne : u ≠ t := by
      rintro rfl
      exact Bool.noConfusion (hout.symm.trans hu)
    show (Function.update s.q.pc t c.entry u).aborts = true ∨ Function.update s.q.pc t c.entry u = _
    rw [Function.update_of_ne hne]
    exact h.place u hu

/-- a call of `stop` -/
theorem Stops.stopCall (h : Stops io s) (t : ι) : Stops io (s.stopCall maxElems io t) := by
  unfold DataHandlerSync.stopCall
  split
  · next hout =>
    obtain ⟨hio, hidle, -⟩ := hout
    have hq : s.q.step maxElems (.call t .abort) = s.q.goto t .abortSet := by
      simp only [QState.step, hidle, Call.entry]
    rw [hq]
    refine ⟨fun u hu => ?_, fun u hu => ?_, fun _ => .inr ⟨t, Function.update_self ..⟩, ?_⟩
    · by_cases e : u = t
      · rw [e]
        exact Function.update_self ..
      · have hu' : (Function.update s.q.pc t .abortSet u).aborts = true := hu
        rw [Function.update_of_ne e] at hu'
        show Function.update s.svc.inStop t true u = true
        rw [Function.update_of_ne e]
        exact h.inside u hu'
    · show (Function.update s.q.pc t .abortSet u).aborts = true ∨ Function.update s.q.pc t _ u = _
      by_cases e : u = t
      · rw [e, Function.update_self]
        exact .inl rfl
      · have hu' : Function.update s.svc.inStop t true u = true := hu
        rw [Function.update_of_ne e] at hu' ⊢
        exact h.place u hu'
    · show Function.update s.svc.inStop t true io = false
      rw [Function.update_of_ne (Ne.symm hio)]
      exact h.producer
  · exact h

/-- the end of a `stop` -/
theorem Stops.svcStop (h : Stops io s) (t : ι) : Stops io (s.svcStop t) := by
  have hsub : ∀ u, Function.update s.svc.inStop t false u = true → s.svc.inStop u = true := by
    intro u hu
    by_cases e : u = t
    · rw [e, Function.update_self] at hu
      cases hu
    · rwa [Function.update_of_ne e] at hu
  unfold DataHandlerSync.svcStop
  split
  · next hin =>
    refine ⟨fun u hu => ?_, fun u hu => h.place u (hsub u hu), fun _ => .inl rfl, ?_⟩
    · have hne : u ≠ t := by
        rintro rfl
        have hu' : (s.q.pc u).aborts = true := hu
        rw [hin.1] at hu'
        cases hu'
      show Function.update s.svc.inStop t false u = true
      rw [Function.update_of_ne hne]
      exact h.inside u hu
    · by_contra hio
      have := hsub io (Bool.not_eq_false _ ▸ hio)
      rw [h.producer] at this
      cases this
  · exact h

theorem Stops.step (h : Stops io s) (a : SysAct ι) : Stops io (s.sysStep maxElems io a) := by
  rcases sysStep_cases maxElems io s a with ⟨-, e⟩ | ⟨-, e⟩ <;> rw [e]
  · exact h
  cases a with
  | store bytes => exact h.handler _
  | complete st => exact h.handler _
  | raise => exact h.handler _
  | io =>
    unfold sysLive stepLive ioStep
    dsimp only
    split
    · next hidle =>
      split
      · exact h.call hidle h.producer rfl _
      · split
        · exact h
        · exact h.handler _
      · exact h.handler _
    · exact h
  | read t timed =>
    unfold sysLive stepLive readCall
    dsimp only
    split
    · next hout => exact h.call hout.2.1 hout.2.2 rfl _
    · exact h
  | stop t => exact h.stopCall t
  | svcStop t => exact h.svcStop t
  | queue a =>
    unfold sysLive stepLive queueStep
    cases a with
    | call t c => exact h
    | run t => exact h.queue (a := .run t) nofun _
    | notify t target => exact h.queue (a := .notify t target) nofun _
    | wake u => exact h.queue (a := .wake u) nofun _
    | reacquire u timeout => exact h.queue (a := .reacquire u timeout) nofun _

/-! ## what a step can do -/

inductive SysMove (maxElems : Nat) (s : DataHandlerSync ι) : DataHandlerSync ι → Prop where
  | stay : SysMove maxElems s s
  | raise : SysMove maxElems s { s with h := s.h.step .raise }
  | sw : SysMove maxElems s { s with h := s.h.step .sw }
  | push (a : QAct ι (List UInt8)) (hpc : s.h.pc = .drain) :
    SysMove maxElems s { s with h := s.h.step .sw, q := s.q.step maxElems a }
  | svcStop (t : ι) (hin : s.svc.inStop t = true) :
    SysMove maxElems s { s with svc := ⟨true, Function.update s.svc.inStop t false⟩ }
  | queue (a : QAct ι (List UInt8)) (ha : ∀ t c, a ≠ .call t c) :
    SysMove maxElems s { s with q := s.q.step maxElems a }
  | thrown (a : QAct ι (List UInt8)) (hpc : s.h.pc = .drain) :
    SysMove maxElems s { s with h := { s.h with pc := .failed fullMsg }, q := s.q.step maxElems a }

theorem sysMove (h : Link maxElems io s) {a : SysAct ι} (ha : Closes a) :
    SysMove maxElems s (s.sysStep maxElems io a) := by
  rcases sysStep_cases maxElems io s a with ⟨-, e⟩ | ⟨-, e⟩ <;> rw [e]
  · exact .stay
  cases a with
  | store bytes => exact ha.elim
  | complete st => exact ha.elim
  | read t timed => exact ha.elim
  | stop t => exact ha.elim
  | raise => exact .raise
  | io =>
    unfold sysLive stepLive
    dsimp only
    split
    · unfold ioStep
      split
      · next hpc hd => exact .push _ hpc
      · split
        · exact .stay
        · exact .sw
      · exact .sw
    · exact .stay
  | svcStop t =>
    unfold sysLive stepLive DataHandlerSync.svcStop
    dsimp only
    split
    · next hin => exact .svcStop t hin.2
    · exact .stay
  | queue b =>
    show SysMove maxElems s (s.queueStep maxElems io b)
    unfold queueStep
    cases b with
    | call t c => exact .stay
    | run t =>
      dsimp only
      split
      · next hthrow =>
        refine .thrown _ (h.busy ?_)
        rw [hthrow.2]
        exact nofun
      · exact .queue _ nofun
    | notify t target => exact .queue _ nofun
    | wake u => exact .queue _ nofun
    | reacquire u timeout => exact .queue _ nofun

/-- what any step does to the queue -/
theorem sysStep_queue (maxElems : Nat) (io : ι) (s : DataHandlerSync ι) (a : SysAct ι) :
    (s.sysStep maxElems io a).q = s.q ∨ ∃ b, (s.sysStep maxElems io a).q = s.q.step maxElems b := by
  rcases sysStep_cases maxElems io s a with ⟨-, e⟩ | ⟨-, e⟩ <;> rw [e]
  · exact .inl rfl
  cases a with
  | store bytes => exact .inl rfl
  | complete st => exact .inl rfl
  | raise => exact .inl rfl
  | io =>
    unfold sysLive stepLive ioStep
    dsimp only
    split
    · split
      · next bytes _ _ => exact .inr ⟨.call io (.push bytes), rfl⟩
      · left
        split <;> rfl
      · exact .inl rfl
    · exact .inl rfl
  | read t timed =>
    unfold sysLive stepLive readCall
    dsimp only
    split
    · exact .inr ⟨.call t (.pop timed), rfl⟩
    · exact .inl rfl
  | stop t =>
    unfold sysLive stepLive stopCall
    dsimp only
    split
    · exact .inr ⟨.call t .abort, rfl⟩
    · exact .inl rfl
  | svcStop t =>
    unfold sysLive stepLive DataHandlerSync.svcStop
    dsimp only
    left
    split <;> rfl
  | queue b =>
    cases b with
    | call t c => exact .inl rfl
    | run t => exact .inr ⟨.run t, rfl⟩
    | notify t target => exact .inr ⟨.notify t target, rfl⟩
    | wake u => exact .inr ⟨.wake u, rfl⟩
    | reacquire u timeout => exact .inr ⟨.reacquire u timeout, rfl⟩

theorem sysStep_tidy (h : QState.Tidy maxElems s.q) (a : SysAct ι) :
    QState.Tidy maxElems (s.sysStep maxElems io a).q := by
  rcases sysStep_queue maxElems io s a with e | ⟨b, e⟩ <;> rw [e]
  · exact h
  · exact h.step b

/-! ## the invariant -/

/-- what holds of every run -/
def Fine (s : DataHandlerSync ι) : Prop :=
  s.h.d.StreamOk s.h.receivePackets → (∀ b ∈ s.h.d.stored, b.bytes ≠ []) → s.h.Alive

theorem Fine.step (hf : s.Fine) (a : SysAct ι) : (s.sysStep maxElems io a).Fine := by
  rcases sysStep_handler maxElems io s a with e | ⟨b, e⟩ | e <;> unfold Fine <;> rw [e]
  · exact hf
  · intro hok hne
    have hok' := Handler.streamOk_of_step hok
    have hne' : ∀ b ∈ s.h.d.stored, b.bytes ≠ [] :=
      fun c hc => hne c ((s.h.stored_step b).subset hc)
    exact (hf hok' hne').step hok' hne' b
  · exact fun _ _ => .inr rfl

/-- `_abort` is set, and the engine has stored the blocks `bs` and no more are to come -/
structure Closing (maxElems : Nat) (io : ι) (rp : Bool) (n : Nat) (bs : List Block)
    (s : DataHandlerSync ι) : Prop where
  link : Link maxElems io s
  queue : QState.Stopping maxElems s.q
  stops : Stops io s
  handler : s.h.Alive
  stored : s.h.d.stored = bs
  mode : s.h.receivePackets = rp
  size : s.h.d.o.nrCycDesc = n

variable {rp : Bool} {n : Nat} {bs : List Block}

omit [DecidableEq ι] in
theorem Closing.streamOk (hc : Closing maxElems io rp n bs s) (hf : rp = true → WellFramed n bs) :
    s.h.d.StreamOk s.h.receivePackets := by
  intro hrp
  rw [hc.size, hc.stored]
  exact hf (hc.mode.symm.trans hrp)

omit [DecidableEq ι] in
/-- a step of the handler in the closing phase -/
theorem Closing.handler_step (hc : Closing maxElems io rp n bs s)
    (hf : rp = true → WellFramed n bs) (hne : ∀ b ∈ bs, b.bytes ≠ []) {a : HAct}
    (ha : a = .sw ∨ a = .raise) {q : QState ι (List UInt8)} (hq : QState.Stopping maxElems q)
    (hl : Link maxElems io ⟨s.h.step a, q, s.svc⟩) (hs : Stops io ⟨s.h.step a, q, s.svc⟩) :
    Closing maxElems io rp n bs ⟨s.h.step a, q, s.svc⟩ where
  link := hl
  queue := hq
  stops := hs
  handler := hc.handler.step (hc.streamOk hf) (by rw [hc.stored]; exact hne) a
  stored := by
    refine Eq.trans ?_ hc.stored
    rcases ha with rfl | rfl
    · exact s.h.stored_swStep
    · exact s.h.stored_raise
  mode := (Handler.run_frame [a] s.h).1.trans hc.mode
  size := (Handler.run_frame [a] s.h).2.trans hc.size

theorem Closing.step (hc : Closing maxElems io rp n bs s) (hf : rp = true → WellFramed n bs)
    (hne : ∀ b ∈ bs, b.bytes ≠ []) {a : SysAct ι} (ha : Closes a) :
    Closing maxElems io rp n bs (s.sysStep maxElems io a) := by
  have hl := hc.link.step a
  have hs : Stops io (s.sysStep maxElems io a) := hc.stops.step a
  have hm := sysMove hc.link ha
  generalize s.sysStep maxElems io a = s' at hl hs hm
  cases hm with
  | stay => exact hc
  | raise => exact hc.handler_step hf hne (.inr rfl) hc.queue hl hs
  | sw => exact hc.handler_step hf hne (.inl rfl) hc.queue hl hs
  | push b hpc => exact hc.handler_step hf hne (.inl rfl) (hc.queue.step b) hl hs
  | svcStop t hin => exact ⟨hl, hc.queue, hs, hc.handler, hc.stored, hc.mode, hc.size⟩
  | queue b _ => exact ⟨hl, hc.queue.step b, hs, hc.handler, hc.stored, hc.mode, hc.size⟩
  | thrown b _ => exact ⟨hl, hc.queue.step b, hs, .inr rfl, hc.stored, hc.mode, hc.size⟩

/-! ## every step lowers the rank -/

variable [Fintype ι]

/-- how many threads are in `stop` -/
def stopsLeft (s : DataHandlerSync ι) : Nat := ∑ t, (s.svc.inStop t).toNat

def rank (s : DataHandlerSync ι) : (ℕ ×ₗ ℕ ×ₗ ℕ ×ₗ ℕ) ×ₗ ℕ ×ₗ ℕ :=
  toLex (s.h.rank, toLex (s.q.weight, s.stopsLeft))

omit [DecidableEq ι] in
theorem rank_lt_of_handler (h : s'.h.rank < s.h.rank) : s'.rank < s.rank :=
  Prod.Lex.toLex_lt_toLex.mpr (.inl h)

omit [DecidableEq ι] in
theorem rank_lt_of_queue (h : s'.h = s.h) (hq : s'.q.weight < s.q.weight) : s'.rank < s.rank :=
  Prod.Lex.toLex_lt_toLex.mpr (.inr ⟨by rw [h], Prod.Lex.toLex_lt_toLex.mpr (.inl hq)⟩)

omit [DecidableEq ι] in
theorem rank_lt_of_stops (h : s'.h = s.h) (hq : s'.q = s.q) (hs : s'.stopsLeft < s.stopsLeft) :
    s'.rank < s.rank :=
  Prod.Lex.toLex_lt_toLex.mpr
    (.inr ⟨by rw [h], Prod.Lex.toLex_lt_toLex.mpr (.inr ⟨by rw [hq], hs⟩)⟩)

theorem stopsLeft_svcStop {t : ι} (hin : s.svc.inStop t = true)
    (hs : s'.svc.inStop = Function.update s.svc.inStop t false) : s'.stopsLeft < s.stopsLeft := by
  have hle : ∀ u, (s'.svc.inStop u).toNat ≤ (s.svc.inStop u).toNat := by
    intro u
    rw [hs]
    by_cases e : u = t
    · rw [e, Function.update_self]
      exact Nat.zero_le _
    · rw [Function.update_of_ne e]
  refine Finset.sum_lt_sum (fun u _ => hle u) ⟨t, Finset.mem_univ t, ?_⟩
  rw [hs, Function.update_self, hin]
  exact Nat.one_pos

theorem SysMove.rank (hm : SysMove maxElems s s') (hc : Closing maxElems io rp n bs s) :
    s' = s ∨ s'.rank < s.rank := by
  cases hm with
  | stay => exact .inl rfl
  | raise =>
    rcases s.h.raise_rank with ⟨-, e⟩ | hlt
    · rw [e]
      exact .inl rfl
    · exact .inr (rank_lt_of_handler hlt)
  | sw =>
    rcases hc.handler with ⟨hi, hg⟩ | hpc
    · rcases Handler.sw_rank hi hg with ⟨-, -, e⟩ | hlt
      · rw [e]
        exact .inl rfl
      · exact .inr (rank_lt_of_handler hlt)
    · have e : s.h.step .sw = s.h := by
        show s.h.swStep = s.h
        simp only [Handler.swStep, hpc]
      rw [e]
      exact .inl rfl
  | push b hpc =>
    rcases hc.handler with ⟨hi, hg⟩ | hfail
    · rcases Handler.sw_rank hi hg with ⟨hwait, -⟩ | hlt
      · cases hwait.symm.trans hpc
      · exact .inr (rank_lt_of_handler hlt)
    · cases hfail.symm.trans hpc
  | svcStop t hin => exact .inr (rank_lt_of_stops rfl rfl (stopsLeft_svcStop hin rfl))
  | queue b hb =>
    rcases QState.weight_step hc.queue.toTidy hc.queue.flag hb with e | hlt
    · rw [e]
      exact .inl rfl
    · exact .inr (rank_lt_of_queue rfl hlt)
  | thrown b hpc => exact .inr (rank_lt_of_handler (Handler.rank_lt_failed hpc fullMsg))

/-! ## something is left to do -/

omit [Fintype ι]

omit [DecidableEq ι] in
/-- when the calls have returned, so has that of the I/O thread -/
theorem Link.idle_of_returned (h : Link maxElems io s) {timed : ι → Prop}
    (hr : s.q.Returned timed) : s.q.pc io = .idle := by
  rcases hr io with hidle | ⟨-, b, hpc⟩
  · exact hidle
  · rcases h.sole.producer with hidle | hpush
    · exact hidle
    · rw [hpc] at hpush
      cases hpush

omit [DecidableEq ι] in
/-- when the calls in the queue have returned, a thread in `stop` is between its two halves -/
theorem Stops.idle_of_returned (h : Stops io s) {timed : ι → Prop} (hr : s.q.Returned timed)
    {t : ι} (ht : s.svc.inStop t = true) : s.q.pc t = .idle := by
  rcases h.place t ht with ha | hidle
  · rcases hr t with hidle | ⟨-, b, hpc⟩
    · exact hidle
    · rw [hpc] at ha
      cases ha
  · exact hidle

/-- the process has ended, or every call has returned and the I/O thread waits -/
def Settled (timed : ι → Prop) (s : DataHandlerSync ι) : Prop :=
  s.h.pc = .failed fullMsg ∨
    s.q.Returned timed ∧ (∀ t, s.svc.inStop t = false) ∧ s.h.pc = .wait ∧ s.h.owed = 0

theorem Closing.exists_turn [Fintype ι] (hc : Closing maxElems io rp n bs s) {timed : ι → Prop}
    (hs : ¬s.Settled timed) : ∃ a, Turn timed a ∧ s.sysStep maxElems io a ≠ s := by
  have hne : ∀ {h' : Handler}, h'.rank < s.h.rank → h' ≠ s.h := by
    rintro _ hlt rfl
    exact lt_irrefl _ hlt
  obtain ⟨hi, hg⟩ : s.h.Inv ∧ s.h.Going := hc.handler.resolve_right fun h => hs (.inl h)
  have hlive : ∀ a, s.sysStep maxElems io a = s.sysLive maxElems io a := by
    intro a
    unfold sysStep
    rw [hg.not_ended]
    rfl
  by_cases hr : s.q.Returned timed
  · rcases s.h.raise_rank with ⟨howed, -⟩ | hlt
    · by_cases hstop : ∀ t, s.svc.inStop t = false
      · -- only the I/O thread is left
        have hwait : s.h.pc ≠ .wait := fun hpc => hs (.inr ⟨hr, hstop, hpc, howed⟩)
        have hio : (s.sysStep maxElems io .io).h = s.h.swStep := by
          rw [hlive]
          show (if s.q.pc io = .idle then s.ioStep maxElems io else s).h = _
          rw [if_pos (hc.link.idle_of_returned hr)]
          unfold ioStep
          split
          · rfl
          · next hpc => exact absurd hpc hwait
          · rfl
        refine ⟨.io, trivial, fun e => ?_⟩
        rw [e] at hio
        rcases Handler.sw_rank hi hg with ⟨hpc, -⟩ | hlt
        · exact hwait hpc
        · exact hne hlt hio.symm
      · -- a thread in `stop` has its second half before it
        obtain ⟨t, ht⟩ := not_forall.mp hstop
        have hin : s.svc.inStop t = true := Bool.not_eq_false _ ▸ ht
        have hidle := hc.stops.idle_of_returned hr hin
        refine ⟨.svcStop t, trivial, fun e => ?_⟩
        have hout : (s.sysStep maxElems io (.svcStop t)).svc.inStop t = false := by
          rw [hlive]
          show (s.svcStop t).svc.inStop t = false
          unfold DataHandlerSync.svcStop
          rw [if_pos ⟨hidle, hin⟩]
          exact Function.update_self ..
        rw [e] at hout
        exact ht hout
    · refine ⟨.raise, trivial, fun e => hne hlt ?_⟩
      rw [hlive] at e
      exact congrArg DataHandlerSync.h e
  · obtain ⟨a, hturn, hlt⟩ := QState.exists_turn hc.queue.toTidy hc.queue.flag hr
    refine ⟨.queue a, hturn, fun e => ?_⟩
    have hq : (s.sysStep maxElems io (.queue a)).q = s.q.step maxElems a := by
      rw [hlive]
      cases a with
      | call t c => exact hturn.elim
      | run t => rfl
      | notify t target => rfl
      | wake u => rfl
      | reacquire u timeout => rfl
    rw [← hq, e] at hlt
    exact lt_irrefl _ hlt

/-! ## at rest -/

/-- every call has returned, but for consumers without timeout in the wait set, and the I/O thread
is back from the service; of the blocks `bs` that the engine has stored the first ones, in packet
mode whole packets, have been returned or are in the queue, and the others are in the ring -/
structure AtRest (rp : Bool) (n : Nat) (bs : List Block) (timed : ι → Prop)
    (s : DataHandlerSync ι) : Prop where
  returned : s.q.Returned timed
  stops : ∀ t, s.svc.inStop t = false
  ioThread : s.h.pc = .wait ∧ s.svc.stopped = true
  data : ∃ taken left, bs = taken ++ left ∧
    (rp = false → (s.q.popped ++ s.q.queue).flatten = blockBytes taken) ∧
    (rp = true → s.q.popped ++ s.q.queue = (framing taken).packets ∧ (framing taken).count = 0) ∧
    Holds n taken.length bs s.h.d.Full s.h.d.Free ∧
    s.h.d.o.nextReadableBuf = taken.length % n
  -- what is left has come with an interrupt that is not served any more
  all : s.h.sr.iocIrq = false →
    (rp = false → (s.q.popped ++ s.q.queue).flatten = blockBytes bs) ∧
      (rp = true → s.q.popped ++ s.q.queue = (framing bs).packets)

omit [DecidableEq ι] in
theorem Closing.atRest (hc : Closing maxElems io rp n bs s) {timed : ι → Prop}
    (hr : s.q.Returned timed) (hstop : ∀ t, s.svc.inStop t = false) (hwait : s.h.pc = .wait)
    (howed : s.h.owed = 0) : AtRest rp n bs timed s := by
  obtain ⟨hi, -⟩ : s.h.Inv ∧ s.h.Going := by
    refine hc.handler.resolve_right fun hfail => ?_
    cases hwait.symm.trans hfail
  have hout : s.h.d.pc = .out := by
    have hplace := hi.place
    unfold Handler.Place at hplace
    rw [hwait] at hplace
    exact hplace.1
  have hret := hc.link.returned_of_wait hwait
  have hdrain := hi.drain
  rw [hc.mode] at hdrain
  obtain ⟨taken, dn, td, hring, ⟨left, hst⟩, hlog, hthread⟩ := hdrain
  unfold Drain.Thread at hthread
  rw [hout] at hthread
  obtain ⟨rfl, rfl, hnext⟩ := hthread
  rw [List.append_nil, List.append_nil, hc.stored] at hst
  rw [hc.size] at hnext
  have hholds : Holds n taken.length bs s.h.d.Full s.h.d.Free := by
    rw [← hc.size, ← hc.stored]
    exact hring.holds
  refine ⟨hr, hstop, ⟨hwait, ?_⟩, ⟨taken, left, hst.symm, ?_, ?_, hholds, hnext⟩, fun hioc => ?_⟩
  · refine (hc.stops.flag hc.queue.flag).resolve_right ?_
    rintro ⟨t, ht⟩
    exact Bool.noConfusion ((hstop t).symm.trans ht)
  · rintro rfl
    rw [hret]
    exact hlog
  · rintro rfl
    rw [hret]
    exact hlog
  · rw [hret, ← hc.stored]
    exact hi.delivered_all hc.mode hwait hioc howed

/-! ## runs -/

section
variable [Fintype ι]
variable (receivePackets : Bool) (o : UioMemSgdma) (descs : Nat → S2mmDesc)
  (phys : BitVec 64 → UInt8) (memAddr : BitVec 64) {bufSize : Nat} (maxElems : Nat) (io : ι)
  (acts : List (SysAct ι))

omit [Fintype ι] in
theorem run_closing (hn : 0 < n) (fit : n * bufSize ≤ 2^64)
    (hf : receivePackets = true → WellFramed n (Lib.run (sysStep maxElems io) (start receivePackets
      (Drain.start o descs phys memAddr n bufSize)) acts).h.d.stored)
    (hne : ∀ b ∈ (Lib.run (sysStep maxElems io) (start receivePackets
      (Drain.start o descs phys memAddr n bufSize)) acts).h.d.stored, b.bytes ≠ [])
    (habort : (Lib.run (sysStep maxElems io) (start receivePackets
      (Drain.start o descs phys memAddr n bufSize)) acts).q.abort = true) :
    let s := Lib.run (sysStep maxElems io)
      (start receivePackets (Drain.start o descs phys memAddr n bufSize)) acts
    Closing maxElems io receivePackets n s.h.d.stored s := by
  intro s
  have hsound : s.h.Sound receivePackets n :=
    run_inv' (P := fun s : DataHandlerSync ι => s.h.Sound receivePackets n)
      (fun _ a h => sysStep_sound h a) acts (.start receivePackets o descs phys memAddr hn fit)
  have hfine : s.Fine := run_inv' (P := Fine) (fun _ a h => h.step a) acts fun _ _ =>
    .inl ⟨Handler.Inv.start receivePackets o descs phys memAddr hn fit,
      Handler.Going.start receivePackets o descs phys memAddr⟩
  have htidy : QState.Tidy maxElems s.q :=
    run_inv' (P := fun s : DataHandlerSync ι => QState.Tidy maxElems s.q)
      (fun _ a h => sysStep_tidy h a) acts QState.Tidy.start
  have hstops : Stops io s :=
    run_inv' (P := Stops io) (fun _ a h => h.step a) acts (.start receivePackets _)
  have hok : s.h.d.StreamOk s.h.receivePackets := by
    intro hrp
    rw [hsound.size]
    exact hf (hsound.mode.symm.trans hrp)
  exact ⟨run_link receivePackets o descs phys memAddr maxElems io acts, ⟨htidy, habort⟩, hstops,
    hfine hok hne, rfl, hsound.mode, hsound.size⟩

/-- **The system comes to rest.**  Take any run in which `stop` has set `_abort`, and then any
schedule in which the engine stores nothing more, nobody calls `read` or `stop`, and the I/O thread,
the interrupts owed, the threads in the queue and those in `stop` get their turn again and again.
From some time on the system is at rest, unless the exception of a full queue has ended the
process. -/
theorem shutdown (hn : 0 < n) (fit : n * bufSize ≤ 2^64)
    (hf : receivePackets = true → WellFramed n (Lib.run (sysStep maxElems io) (start receivePackets
      (Drain.start o descs phys memAddr n bufSize)) acts).h.d.stored)
    (hne : ∀ b ∈ (Lib.run (sysStep maxElems io) (start receivePackets
      (Drain.start o descs phys memAddr n bufSize)) acts).h.d.stored, b.bytes ≠ [])
    (habort : (Lib.run (sysStep maxElems io) (start receivePackets
      (Drain.start o descs phys memAddr n bufSize)) acts).q.abort = true)
    (timed : ι → Prop) (sched : Nat → SysAct ι) (hsched : ∀ i, Closes (sched i))
    (hfair : ∀ a, Turn timed a → Recurs sched a) :
    let s := Lib.run (sysStep maxElems io)
      (start receivePackets (Drain.start o descs phys memAddr n bufSize)) acts
    ∃ k, ∀ j, k ≤ j →
      (runTo (sysStep maxElems io) s sched j).h.pc = .failed fullMsg ∨
        AtRest receivePackets n s.h.d.stored timed (runTo (sysStep maxElems io) s sched j) := by
  intro s
  have h0 : Closing maxElems io receivePackets n s.h.d.stored s :=
    run_closing receivePackets o descs phys memAddr maxElems io acts hn fit hf hne habort
  have hstep : ∀ (g : DataHandlerSync ι) (a : SysAct ι), Closes a →
      Closing maxElems io receivePackets n s.h.d.stored g →
      Closing maxElems io receivePackets n s.h.d.stored (g.sysStep maxElems io a) :=
    fun g a ha hg => hg.step hf hne ha
  obtain ⟨k, hset, hstay⟩ := eventually_settled rank (Settled timed) hstep
    (fun g a ha hg => (sysMove hg.link ha).rank hg) (fun g hg hs => hg.exists_turn hs)
    hsched hfair h0
  have hclose := runTo_inv hstep hsched h0 k
  refine ⟨k, fun j hj => ?_⟩
  rw [hstay j hj]
  exact hset.imp_right fun ⟨hr, hstop, hwait, howed⟩ => hclose.atRest hr hstop hwait howed

end

omit [DecidableEq ι]

/-- every turn of the I/O thread, the interrupts and the threads `ts`, which may end a wait -/
def turns (ts : List ι) : List (SysAct ι) :=
  .raise :: .io :: (ts.map .svcStop ++ (QState.turns ts ts).map .queue)

theorem mem_turns {ts : List ι} (hts : ∀ t, t ∈ ts) {timed : ι → Prop} {a : SysAct ι}
    (h : Turn timed a) : a ∈ turns ts := by
  unfold turns
  cases a with
  | store bytes => exact h.elim
  | complete st => exact h.elim
  | read t timed => exact h.elim
  | stop t => exact h.elim
  | raise => exact List.mem_cons_self
  | io => exact List.mem_cons_of_mem _ List.mem_cons_self
  | svcStop t =>
    have ht : SysAct.svcStop t ∈ ts.map SysAct.svcStop := List.mem_map_of_mem (hts t)
    exact List.mem_cons_of_mem _ (List.mem_cons_of_mem _ (List.mem_append_left _ ht))
  | queue b =>
    have hb : b ∈ QState.turns ts ts := QState.mem_turns hts (fun t _ => hts t) h
    exact List.mem_cons_of_mem _
      (List.mem_cons_of_mem _ (List.mem_append_right _ (List.mem_map_of_mem hb)))

theorem closes_of_mem_turns {ts : List ι} {a : SysAct ι} (h : a ∈ turns ts) : Closes a := by
  rcases List.mem_cons.mp h with rfl | h
  · exact trivial
  rcases List.mem_cons.mp h with rfl | h
  · exact trivial
  rcases List.mem_append.mp h with h | h
  · obtain ⟨t, -, rfl⟩ := List.mem_map.mp h
    exact trivial
  · obtain ⟨b, -, rfl⟩ := List.mem_map.mp h
    exact trivial

/-- the consumer `t` waits, and a packet is in the ring, when `u` sets `_abort` -/
def stopRun (t u : ι) : List (SysAct ι) :=
  .io :: .read t true :: (List.replicate 4 (SysAct.queue (.run t)) ++
    [.store [1, 2], .complete (Drain.engStatus 2 true true), .stop u, .queue (.run u)])

/-- the interrupt is served before the service is stopped, and the packet is delivered -/
theorem shutdown_stopRun :
    let s := Lib.run (sysStep 64 (0 : Fin 3)) (start true (Drain.sample 2 4)) (stopRun 1 2)
    let sched := cycle (turns [0, 1, 2]) (by decide)
    (∃ k, ∀ j, k ≤ j → (runTo (sysStep 64 0) s sched j).h.pc = .failed fullMsg ∨
      AtRest true 2 s.h.d.stored (fun _ => True) (runTo (sysStep 64 0) s sched j)) ∧
    let g := runTo (sysStep 64 0) s sched 700
    g.h.pc = .wait ∧ g.svc.stopped = true ∧ g.svc.inStop 2 = false ∧
      g.q.popped ++ g.q.queue = [[1, 2]] := by
  intro s sched
  refine ⟨?_, by decide +kernel⟩
  exact shutdown true ⟨0xa0000000, 0, 0, 0, [], 0⟩ noDescs (fun _ => 0) 0x80000000 64 (0 : Fin 3)
    (stopRun 1 2) (show 0 < 2 by decide) (show 2 * 4 ≤ 2^64 by decide) (by decide +kernel)
    (by decide +kernel) (by decide +kernel) (fun _ => True) sched
    (fun _ => closes_of_mem_turns (List.get_mem _ _)) fun _ h =>
      recurs_cycle _ (mem_turns (by decide) h)

end DataHandlerSync

end Udmaio
