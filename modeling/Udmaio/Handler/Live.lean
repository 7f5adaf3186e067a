import Mathlib.Data.Prod.Lex
import Udmaio.Handler.Poll
import Udmaio.Lib.Live

/-!
# Everything is delivered in the end

Once the engine stores no more blocks, the handler goes on until all of them have been passed to
`process_data`, provided that the I/O thread and the interrupts that are owed get their turn again
and again.

* `Drain.completed`, `Drain.phase`   the rank of the drain loop: complete descriptors, then the
                                     place in the loop; each step of the software lowers it;
* `Handler.rank`                     in front of these the interrupts still to be served, behind
                                     them the place in the handler;
* `Handler.Going`                    what a run keeps: no scan has failed, and no chunk is empty;
* `delivered_eventually`             **liveness**, in both modes.
-/

namespace Udmaio
open Lib

/-! ## the rank of the drain loop -/

namespace Drain

/-- the descriptors of the ring that are complete -/
def completed (s : Drain) : Nat :=
  ((Finset.range s.o.nrCycDesc).filter fun i => (s.descs i).status.cmplt = true).card

/-- the steps to the next release of a buffer, or to the end of the loop -/
def phase (s : Drain) : Nat :=
  let N := s.o.nrCycDesc
  match s.pc with
  | .copy [] _ => 2 * N + 8
  | .process _ => 2 * N + 7
  | .top => 2 * N + 6
  | .full l => 2 * (N - l.i) + l.result.length + 5
  | .packet l => 2 * (N - l.i) + l.result.length + 5
  | .stats todo _ => todo.length + 3
  | .copy (_ :: _) _ => 2
  | .wrBack _ _ _ => 1
  | .out => 0
  | .failed _ => 0

/-- fewer complete descriptors, or as many and further on -/
def Lower (s' s : Drain) : Prop :=
  s'.completed < s.completed ∨ s'.completed = s.completed ∧ s'.phase < s.phase

theorem completed_congr {s s' : Drain} (hN : s'.o.nrCycDesc = s.o.nrCycDesc)
    (hd : s'.descs = s.descs) :
    s'.completed = s.completed := by
  unfold completed
  rw [hN, hd]

theorem Lower.of_phase {s s' : Drain} (hN : s'.o.nrCycDesc = s.o.nrCycDesc)
    (hd : s'.descs = s.descs) (h : s'.phase < s.phase) : Lower s' s :=
  .inr ⟨completed_congr hN hd, h⟩

/-- a scan has ended -/
theorem phase_scanned (s : Drain) (r : List Nat) : (s.scanned r).phase ≤ r.length + 3 := by
  unfold scanned
  split
  · exact Nat.zero_le _
  · exact Nat.le_refl _

theorem scanned_descs (s : Drain) (r : List Nat) : (s.scanned r).descs = s.descs := by
  unfold scanned
  split <;> rfl

theorem scanFlow_descs {σ : Type} (s : Drain) (pcOf : σ → Pc) (f : Flow (UioMemSgdma × σ)) :
    (s.scanFlow pcOf f).descs = s.descs := by
  cases f with
  | cont p => rfl
  | ret p r => exact scanned_descs _ r
  | throw p msg => rfl

theorem lower_fullStep {s : Drain} {l : FullScan} (hpc : s.pc = .full l) :
    Lower (s.fullStep l) s := by
  have hphase : s.phase = 2 * (s.o.nrCycDesc - l.i) + l.result.length + 5 := by
    unfold phase
    rw [hpc]
  unfold fullStep
  split
  · next hi =>
    refine .of_phase ?_ (scanFlow_descs s _ _) ?_
    · rw [(scanFlow_frame s _ _).2, UioMemSgdma.fullBody_nrCycDesc]
    · rw [hphase]
      unfold UioMemSgdma.fullBody
      split_ifs
      · exact lt_of_le_of_lt (phase_scanned _ _) (by omega)
      · exact Nat.succ_pos _
      · show 2 * (s.o.nrCycDesc - (l.i + 1)) + (l.result ++ [s.o.nextReadableBuf]).length + 5 < _
        rw [List.length_append, List.length_singleton]
        omega
  · refine .of_phase (congrArg UioMemSgdma.nrCycDesc (scanned_frame s _).2) (scanned_descs s _) ?_
    rw [hphase]
    exact lt_of_le_of_lt (phase_scanned _ _) (by omega)

theorem lower_packetStep {s : Drain} {l : PacketScan} (hpc : s.pc = .packet l) :
    Lower (s.packetStep l) s := by
  have hphase : s.phase = 2 * (s.o.nrCycDesc - l.i) + l.result.length + 5 := by
    unfold phase
    rw [hpc]
  unfold packetStep
  split
  · next hi =>
    refine .of_phase ?_ (scanFlow_descs s _ _) ?_
    · rw [(scanFlow_frame s _ _).2, UioMemSgdma.packetBody_nrCycDesc]
    · rw [hphase]
      have hlen : (l.result ++ [l.n]).length = l.result.length + 1 := by
        rw [List.length_append, List.length_singleton]
      unfold UioMemSgdma.packetBody
      dsimp only
      split_ifs
      · exact lt_of_le_of_lt (phase_scanned _ _) (by simp)
      · exact Nat.succ_pos _
      · show 2 * (s.o.nrCycDesc - (l.i + 1)) + l.result.length + 5 < _
        omega
      · exact lt_of_le_of_lt (phase_scanned _ _) (by omega)
      · show 2 * (s.o.nrCycDesc - (l.i + 1)) + (l.result ++ [l.n]).length + 5 < _
        omega
  · refine .of_phase (congrArg UioMemSgdma.nrCycDesc (scanned_frame s _).2) (scanned_descs s _) ?_
    rw [hphase]
    exact lt_of_le_of_lt (phase_scanned _ _) (by simp)

/-- one descriptor is complete no more, the others are left alone -/
theorem completed_lt {s s' : Drain} (hN : s'.o.nrCycDesc = s.o.nrCycDesc) {i : Nat}
    (hi : i < s.o.nrCycDesc) (hc : (s.descs i).status.cmplt = true)
    (hfree : (s'.descs i).status.cmplt = false) (hother : ∀ j, j ≠ i → s'.descs j = s.descs j) :
    s'.completed < s.completed := by
  unfold completed
  rw [hN]
  apply Finset.card_lt_card
  rw [Finset.ssubset_iff_of_subset]
  · refine ⟨i, ?_, ?_⟩
    · rw [Finset.mem_filter, Finset.mem_range]
      exact ⟨hi, hc⟩
    · rw [Finset.mem_filter, hfree]
      exact fun h => Bool.false_ne_true h.2
  · intro j hj
    rw [Finset.mem_filter] at hj ⊢
    by_cases hji : j = i
    · rw [hji, hfree] at hj
      exact absurd hj.2 Bool.false_ne_true
    · rwa [hother j hji] at hj

/-- the descriptor that is written back is a complete one of the ring -/
theorem Inv.wrBack_complete {D : Delivery} {s : Drain} (h : Inv D s) {c : Stat} {todo : List Stat}
    {result : List UInt8} (hpc : s.pc = .wrBack c todo result) :
    c.1 < s.o.nrCycDesc ∧ (s.descs c.1).status.cmplt = true := by
  obtain ⟨taken, dn, td, hr, hp, -, ht⟩ := h
  unfold Thread at ht
  rw [hpc] at ht
  obtain ⟨-, -, htodo, b, rest, rfl, -⟩ := ht
  obtain ⟨rfl, -⟩ := List.cons.inj htodo
  have hpre : taken ++ dn ++ [b] <+: s.stored := by
    refine List.IsPrefix.trans ⟨rest, ?_⟩ hp
    rw [List.append_assoc, List.singleton_append]
  have hfull := hr.full_at hpre (by rw [List.length_append])
  rw [List.length_append] at hfull
  refine ⟨Nat.mod_lt _ hr.pos, ?_⟩
  rw [hfull.status]
  exact b.cmplt

/-- **Each step of the drain loop lowers its rank.** -/
theorem lower_swStep {D : Delivery} {s : Drain} (h : Inv D s) (hne : s.NonEmpty)
    (hout : s.pc ≠ .out) (htop : s.pc ≠ .top) (hlive : ∀ msg, s.pc ≠ .failed msg) :
    Lower s.swStep s := by
  have hchunk := hne.pc
  unfold swStep
  cases hpc : s.pc with
  | out => exact absurd hpc hout
  | top => exact absurd hpc htop
  | failed msg => exact absurd hpc (hlive msg)
  | full l => exact lower_fullStep hpc
  | packet l => exact lower_packetStep hpc
  | stats todo done =>
    rw [hpc] at hchunk
    cases todo with
    | cons i todo =>
      refine .of_phase rfl rfl ?_
      unfold phase
      rw [hpc]
      exact Nat.lt_succ_self _
    | nil =>
      cases done with
      | nil => exact absurd hchunk.1 (by simp)
      | cons c done =>
        refine .of_phase rfl rfl ?_
        unfold phase
        rw [hpc]
        exact Nat.lt_succ_self _
  | copy todo result =>
    cases todo with
    | nil =>
      refine .of_phase rfl rfl ?_
      unfold phase
      rw [hpc]
      exact Nat.lt_succ_self _
    | cons c todo =>
      refine .of_phase rfl rfl ?_
      unfold phase
      rw [hpc]
      exact Nat.lt_succ_self _
  | wrBack c todo result =>
    obtain ⟨hi, hc⟩ := h.wrBack_complete hpc
    refine .inl (completed_lt rfl hi hc ?_ fun j hj => setStatus_of_ne _ _ hj)
    show (setStatus _ _ _ _).status.cmplt = false
    rw [setStatus_self]
  | process bytes =>
    refine .of_phase rfl rfl ?_
    unfold phase
    rw [hpc]
    exact Nat.lt_succ_self _

theorem lower_call {s : Drain} (hpc : s.pc = .top) (rp : Bool) : Lower (s.step (.call rp)) s := by
  have hstep : s.step (.call rp)
      = { s with pc := if rp then .packet s.o.packetInit else .full UioMemSgdma.fullInit } := by
    unfold step
    dsimp only
    rw [if_pos hpc]
  rw [hstep]
  refine .of_phase rfl rfl ?_
  unfold phase
  rw [hpc]
  cases rp <;> exact Nat.lt_succ_self _

end Drain

/-! ## the rank of the handler -/

namespace Handler

/-- interrupts that are owed count twice: they are raised, and served -/
def pending (h : Handler) : Nat := 2 * h.owed + if h.sr.iocIrq then 1 else 0

def place (h : Handler) : Nat :=
  match h.pc with
  | .drain => 4
  | .rearm => 3
  | .wait => 2
  | .rdSr => 1
  | _ => 0

def rank (h : Handler) : ℕ ×ₗ ℕ ×ₗ ℕ ×ₗ ℕ :=
  toLex (h.pending, toLex (h.d.completed, toLex (h.d.phase, h.place)))

theorem rank_lt_of_pending {h h' : Handler} (hp : h'.pending < h.pending) : h'.rank < h.rank :=
  Prod.Lex.toLex_lt_toLex.mpr (.inl hp)

theorem rank_lt_of_lower {h h' : Handler} (hp : h'.pending = h.pending)
    (hl : Drain.Lower h'.d h.d) :
    h'.rank < h.rank := by
  refine Prod.Lex.toLex_lt_toLex.mpr (.inr ⟨hp, Prod.Lex.toLex_lt_toLex.mpr ?_⟩)
  rcases hl with hc | ⟨hc, hph⟩
  · exact .inl hc
  · exact .inr ⟨hc, Prod.Lex.toLex_lt_toLex.mpr (.inl hph)⟩

theorem rank_lt_of_place {h h' : Handler} (hp : h'.pending = h.pending) (hd : h'.d = h.d)
    (hpl : h'.place < h.place) : h'.rank < h.rank := by
  refine Prod.Lex.toLex_lt_toLex.mpr (.inr ⟨hp, Prod.Lex.toLex_lt_toLex.mpr (.inr ⟨?_, ?_⟩)⟩)
  · show h'.d.completed = h.d.completed
    rw [hd]
  · refine Prod.Lex.toLex_lt_toLex.mpr (.inr ⟨?_, hpl⟩)
    show h'.d.phase = h.d.phase
    rw [hd]

/-! ## what a run keeps -/

structure Going (h : Handler) : Prop where
  chunks : h.d.NonEmpty
  drain : ∀ msg, h.d.pc ≠ .failed msg
  handler : ∀ msg, h.pc ≠ .failed msg
  /-- the interrupt that is being served has not been cleared -/
  serving : ∀ stat, h.pc = .wrSr stat → h.sr.iocIrq = true

theorem Going.engine {h h' : Handler} (hg : h.Going) (hc : h'.d.NonEmpty) (hd : h'.d.pc = h.d.pc)
    (hpc : h'.pc = h.pc) (hsr : h'.sr = h.sr) : h'.Going :=
  ⟨hc, by rw [hd]; exact hg.drain, by rw [hpc]; exact hg.handler,
    by rw [hpc, hsr]; exact hg.serving⟩

theorem enter_not_failed {d : Drain} (h : ∀ msg, d.pc ≠ .failed msg) (msg : String) :
    (d.step .enter).pc ≠ .failed msg := by
  unfold Drain.step
  dsimp only
  split
  · exact Pc.noConfusion
  · exact h msg

theorem Going.swStep {h : Handler} (hg : h.Going) (hi : h.Inv)
    (hne : ∀ b ∈ h.d.stored, b.bytes ≠ []) :
    h.swStep.Going := by
  have hchunks := nonEmpty_swStep hg.chunks
  have hplace := hi.place
  unfold Place at hplace
  unfold Handler.swStep at hchunks ⊢
  cases hpc : h.pc with
  | wait =>
    rw [hpc] at hchunks
    dsimp only at hchunks ⊢
    split
    · exact ⟨hg.chunks, hg.drain, fun _ => HPc.noConfusion, fun _ => HPc.noConfusion⟩
    · exact hg
  | rdSr =>
    rw [hpc] at hplace
    exact ⟨hg.chunks, hg.drain, fun _ => HPc.noConfusion, fun _ _ => hplace.2⟩
  | wrSr stat =>
    rw [hpc] at hplace hchunks
    obtain ⟨-, hioc, herr⟩ := hplace
    dsimp only at hchunks ⊢
    rw [if_neg (by rw [herr]; exact Bool.noConfusion)] at hchunks ⊢
    unfold checked at hchunks ⊢
    rw [if_pos hioc] at hchunks ⊢
    exact ⟨hchunks, enter_not_failed hg.drain, fun _ => HPc.noConfusion, fun _ => HPc.noConfusion⟩
  | check stat =>
    rw [hpc] at hplace
    exact hplace.elim
  | drain =>
    rw [hpc] at hchunks
    dsimp only at hchunks ⊢
    unfold drainStep at hchunks ⊢
    split
    · exact ⟨hg.chunks, hg.drain, fun _ => HPc.noConfusion, fun _ => HPc.noConfusion⟩
    · next hd =>
      refine ⟨hg.chunks.call _, fun msg => ?_, by rw [hpc]; exact fun _ => HPc.noConfusion,
        by rw [hpc]; exact fun _ => HPc.noConfusion⟩
      show (h.d.step (.call _)).pc ≠ _
      unfold Drain.step
      dsimp only
      rw [if_pos hd]
      cases h.receivePackets <;> exact Pc.noConfusion
    · next msg hd => exact absurd hd (hg.drain msg)
    · exact ⟨hg.chunks.swStep, hi.drain.sw_failed hne hg.drain,
        by rw [hpc]; exact fun _ => HPc.noConfusion, by rw [hpc]; exact fun _ => HPc.noConfusion⟩
  | rearm => exact ⟨hg.chunks, hg.drain, fun _ => HPc.noConfusion, fun _ => HPc.noConfusion⟩
  | failed msg => exact absurd hpc (hg.handler msg)

theorem Going.step {h : Handler} (hg : h.Going) (hi : h.Inv) (hne : ∀ b ∈ h.d.stored, b.bytes ≠ [])
    (a : HAct) : (h.step a).Going := by
  cases a with
  | store bytes => exact hg.engine (hg.chunks.engStore bytes) (Drain.pc_engStore h.d bytes) rfl rfl
  | complete st =>
    obtain ⟨taken, dn, td, hr, -⟩ := hi.drain
    show (h.complete st).Going
    rcases h.complete_cases st with e | e
    · rw [e]
      exact hg
    · rw [e]
      exact hg.engine (hg.chunks.engComplete hr st) (Drain.pc_engComplete h.d st) rfl rfl
  | raise =>
    show h.raise.Going
    rcases h.raise_cases with e | e
    · rw [e]
      exact hg
    · rw [e]
      exact ⟨hg.chunks, hg.drain, hg.handler, fun _ _ => rfl⟩
  | sw => exact hg.swStep hi hne

/-! ## each step lowers the rank -/

theorem raise_rank (h : Handler) : h.owed = 0 ∧ h.step .raise = h ∨
    (h.step .raise).rank < h.rank := by
  show _ ∧ h.raise = h ∨ h.raise.rank < _
  unfold raise
  split
  · next ho =>
    refine .inr (rank_lt_of_pending ?_)
    show 2 * (h.owed - 1) + 1 < 2 * h.owed + _
    omega
  · next ho => exact .inl ⟨by omega, rfl⟩

theorem sw_rank {h : Handler} (hi : h.Inv) (hg : h.Going) :
    h.pc = .wait ∧ h.sr.iocIrq = false ∧ h.step .sw = h ∨ (h.step .sw).rank < h.rank := by
  have hplace := hi.place
  unfold Place at hplace
  show _ ∧ _ ∧ h.swStep = h ∨ h.swStep.rank < _
  unfold Handler.swStep
  cases hpc : h.pc with
  | wait =>
    dsimp only
    split
    · refine .inr (rank_lt_of_place rfl rfl ?_)
      show 1 < h.place
      unfold place
      rw [hpc]
      exact Nat.lt_succ_self 1
    · next hl =>
      rw [Bool.or_eq_true, not_or, Bool.not_eq_true] at hl
      exact .inl ⟨rfl, hl.1, rfl⟩
  | rdSr =>
    refine .inr (rank_lt_of_place rfl rfl ?_)
    show 0 < h.place
    unfold place
    rw [hpc]
    exact Nat.one_pos
  | wrSr stat =>
    rw [hpc] at hplace
    obtain ⟨-, hioc, herr⟩ := hplace
    dsimp only
    rw [if_neg (by rw [herr]; exact Bool.noConfusion)]
    unfold checked
    rw [if_pos hioc]
    -- the interrupt is cleared
    refine .inr (rank_lt_of_pending ?_)
    have hclear : (h.sr.w1c (clearIntValue stat)).iocIrq = false := by
      rw [w1c_clearIntValue, hioc]
      exact Bool.and_false _
    unfold pending
    rw [hclear, hg.serving stat hpc]
    exact Nat.lt_succ_self _
  | check stat =>
    rw [hpc] at hplace
    exact hplace.elim
  | drain =>
    dsimp only
    unfold drainStep
    right
    split
    · refine rank_lt_of_place rfl rfl ?_
      show 3 < h.place
      unfold place
      rw [hpc]
      exact Nat.lt_succ_self 3
    · next hd => exact rank_lt_of_lower rfl (Drain.lower_call hd _)
    · next msg hd => exact absurd hd (hg.drain msg)
    · next hout htop hfail =>
      exact rank_lt_of_lower rfl (Drain.lower_swStep hi.drain hg.chunks hout htop hg.drain)
  | rearm =>
    refine .inr (rank_lt_of_place rfl rfl ?_)
    show 2 < h.place
    unfold place
    rw [hpc]
    exact Nat.lt_succ_self 2
  | failed msg => exact absurd hpc (hg.handler msg)

/-! ## runs -/

/-- what holds in a run as long as the stream is one that the mode can take, without an empty
block -/
def Fine (h : Handler) : Prop := h.d.StreamOk h.receivePackets → (∀ b ∈ h.d.stored, b.bytes ≠ []) →
  h.Inv ∧ h.Going

/-- the log of the engine only grows -/
theorem stored_step (h : Handler) (a : HAct) : h.d.stored <+: (h.step a).d.stored := by
  obtain ⟨-, hd | ⟨b, -, hd⟩⟩ := refines_step h a
  · rw [hd]
  · rw [hd]
    exact (Drain.step_frame h.d b).1

theorem stored_checked (h : Handler) (stat : S2mmDmasr) :
    (h.checked stat).d.stored = h.d.stored := by
  unfold checked
  split
  · show (if _ then _ else _ : Drain).stored = _
    split <;> rfl
  · rfl

/-- the software and the interrupts do not write to it -/
theorem stored_swStep (h : Handler) : h.swStep.d.stored = h.d.stored := by
  unfold swStep
  cases h.pc with
  | wait =>
    dsimp only
    split <;> rfl
  | rdSr => rfl
  | wrSr stat =>
    dsimp only
    split
    · rfl
    · exact stored_checked _ stat
  | check stat =>
    dsimp only
    split
    · rfl
    · exact stored_checked h stat
  | drain =>
    dsimp only
    unfold drainStep
    split
    · rfl
    · show (if _ then _ else _ : Drain).stored = _
      split <;> rfl
    · rfl
    · exact h.d.swStep_frame.1
  | rearm => rfl
  | failed msg => rfl

theorem stored_raise (h : Handler) : h.raise.d.stored = h.d.stored := by
  rcases h.raise_cases with e | e <;> rw [e]

theorem Fine.step {h : Handler} (hf : h.Fine) (a : HAct) : (h.step a).Fine := by
  intro hok hne
  have hok' := streamOk_of_step hok
  have hne' : ∀ b ∈ h.d.stored, b.bytes ≠ [] := fun b hb => hne b ((h.stored_step a).subset hb)
  obtain ⟨hi, hg⟩ := hf hok' hne'
  exact ⟨hi.step hok' a, hg.step hi hne' a⟩

section
variable (receivePackets : Bool) (o : UioMemSgdma) (descs : Nat → S2mmDesc)
  (phys : BitVec 64 → UInt8) (memAddr : BitVec 64) {n bufSize : Nat} (acts : List HAct)

theorem Going.start :
    (start receivePackets (Drain.start o descs phys memAddr n bufSize)).Going where
  chunks := ⟨fun _ hv => absurd hv List.not_mem_nil, trivial⟩
  drain := fun _ => Pc.noConfusion
  handler := fun _ => HPc.noConfusion
  serving := fun _ => HPc.noConfusion

/-- nothing is left to do -/
def Settled (h : Handler) : Prop := h.pc = .wait ∧ h.sr.iocIrq = false ∧ h.owed = 0

omit receivePackets o descs phys memAddr acts in
/-- as long as something is left to do, one of the two lowers the rank -/
theorem moves_of_not_settled {h : Handler} (hi : h.Inv) (hg : h.Going) (hs : ¬ h.Settled) :
    ∃ a, (a = .sw ∨ a = .raise) ∧ h.step a ≠ h := by
  have hne : ∀ a, (h.step a).rank < h.rank → h.step a ≠ h := by
    intro a hlt heq
    rw [heq] at hlt
    exact lt_irrefl _ hlt
  rcases sw_rank hi hg with ⟨hpc, hioc, -⟩ | hlt
  · rcases h.raise_rank with ⟨howed, -⟩ | hlt
    · exact absurd ⟨hpc, hioc, howed⟩ hs
    · exact ⟨.raise, .inr rfl, hne _ hlt⟩
  · exact ⟨.sw, .inl rfl, hne _ hlt⟩

/-- the engine has stored the blocks `bs`, and no more are to come -/
structure Closing (rp : Bool) (n : Nat) (bs : List Block) (h : Handler) : Prop where
  inv : h.Inv
  going : h.Going
  stored : h.d.stored = bs
  mode : h.receivePackets = rp
  size : h.d.o.nrCycDesc = n

omit receivePackets o descs phys memAddr acts in
theorem Closing.step {rp : Bool} {bs : List Block} {h : Handler} (hc : Closing rp n bs h)
    (hf : rp = true → WellFramed n bs) (hne : ∀ b ∈ bs, b.bytes ≠ []) {a : HAct}
    (ha : a = .sw ∨ a = .raise) :
    Closing rp n bs (h.step a) := by
  have hok : h.d.StreamOk h.receivePackets := by
    intro hrp
    rw [hc.size, hc.stored]
    exact hf (hc.mode.symm.trans hrp)
  have hst : (h.step a).d.stored = h.d.stored := by
    rcases ha with rfl | rfl
    · exact h.stored_swStep
    · exact h.stored_raise
  exact ⟨hc.inv.step hok a, hc.going.step hc.inv (by rw [hc.stored]; exact hne) a,
    hst.trans hc.stored, (run_frame [a] h).1.trans hc.mode, (run_frame [a] h).2.trans hc.size⟩

/-- **Everything is delivered in the end.**  Take any run, and then any schedule in which the engine
stores no more blocks, and the I/O thread and the interrupts owed come again and again: from some
time on the handler waits, and it has delivered all bytes, or all packets, and each once. -/
theorem delivered_eventually (hn : 0 < n) (fit : n * bufSize ≤ 2^64)
    (hf : receivePackets = true → WellFramed n (Lib.run step (start receivePackets
      (Drain.start o descs phys memAddr n bufSize)) acts).d.stored)
    (hne : ∀ b ∈ (Lib.run step (start receivePackets
      (Drain.start o descs phys memAddr n bufSize)) acts).d.stored, b.bytes ≠ [])
    (sched : Nat → HAct) (hsched : ∀ i, sched i = .sw ∨ sched i = .raise)
    (hsw : Recurs sched .sw) (hraise : Recurs sched .raise) :
    let h := Lib.run step (start receivePackets (Drain.start o descs phys memAddr n bufSize)) acts
    ∃ k, ∀ j, k ≤ j → (runTo step h sched j).pc = .wait ∧
      (receivePackets = false → (runTo step h sched j).d.delivered.flatten
        = blockBytes h.d.stored) ∧
      (receivePackets = true → (runTo step h sched j).d.delivered
        = (framing h.d.stored).packets) := by
  intro h
  have hsound : Sound receivePackets n h :=
    run_inv' (P := Sound receivePackets n) (fun _ a hs => hs.step a) acts
      (.start receivePackets o descs phys memAddr hn fit)
  have hfine : h.Fine :=
    run_inv' (P := Fine) (fun _ a hs => hs.step a) acts fun _ _ =>
      ⟨Inv.start receivePackets o descs phys memAddr hn fit,
        Going.start receivePackets o descs phys memAddr⟩
  have hok : h.d.StreamOk h.receivePackets := by
    intro hrp
    rw [hsound.size]
    exact hf (hsound.mode.symm.trans hrp)
  have h0 : Closing receivePackets n h.d.stored h :=
    ⟨(hfine hok hne).1, (hfine hok hne).2, rfl, hsound.mode, hsound.size⟩
  have hstep : ∀ (g : Handler) (a : HAct), a = .sw ∨ a = .raise →
      Closing receivePackets n h.d.stored g →
      Closing receivePackets n h.d.stored (g.step a) := fun g a ha hg => hg.step hf hne ha
  obtain ⟨k, hk, hstay⟩ := eventually_settled rank Settled hstep
    (fun g a ha hg => by
      rcases ha with rfl | rfl
      · exact (sw_rank hg.inv hg.going).imp_left fun hw => hw.2.2
      · exact g.raise_rank.imp_left fun hw => hw.2)
    (fun g hg hs => moves_of_not_settled hg.inv hg.going hs) hsched
    (fun a ha => by
      rcases ha with rfl | rfl
      · exact hsw
      · exact hraise) h0
  have hclose := runTo_inv hstep hsched h0 k
  refine ⟨k, fun j hj => ?_⟩
  rw [hstay j hj, ← hclose.stored]
  exact ⟨hk.1, hclose.inv.delivered_all hclose.mode hk.1 hk.2.1 hk.2.2⟩

/-- two packets, and the interrupt of the second one comes while the first one is drained -/
def closingRun : List HAct :=
  [.sw, .store [1], .complete (Drain.engStatus 1 true true), .raise, .sw, .sw, .store [2],
    .complete (Drain.engStatus 1 true true)]

def turns (i : Nat) : HAct := if i % 2 = 0 then .sw else .raise

theorem delivered_eventually_closingRun : ∃ k, ∀ j, k ≤ j →
    (runTo step (Lib.run step (start true (Drain.sample 2 4)) closingRun) turns j).d.delivered
      = [[1], [2]] := by
  have hturns : ∀ i, turns i = .sw ∨ turns i = .raise := by
    intro i
    unfold turns
    split
    · exact .inl rfl
    · exact .inr rfl
  have hsw : Recurs turns .sw := fun i => ⟨2 * i, by omega, if_pos (by omega)⟩
  have hraise : Recurs turns .raise := fun i => ⟨2 * i + 1, by omega, if_neg (by omega)⟩
  obtain ⟨k, hk⟩ := delivered_eventually true ⟨0xa0000000, 0, 0, 0, [], 0⟩ noDescs
    (fun _ => 0) 0x80000000
    closingRun (show 0 < 2 by decide) (show 2 * 4 ≤ 2^64 by decide) (by decide)
      (by decide) turns hturns hsw hraise
  exact ⟨k, fun j hj => (hk j hj).2.2 rfl⟩

end

end Handler

end Udmaio
