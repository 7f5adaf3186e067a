import Udmaio.Vdma.Config

/-!
# The VDMA core over a session

The methods of `UioAxiVdmaIf` share registers: `start` and `stop` change one bit of the control
register, `config` two others, and `set_frame_format` may come before or after.

* `start`, `stop`           the methods on the register file;
* `session`                 calls one after the other; the core itself clears the run bit when it
                            halts;
* `VdmaState`               what the registers mean to a user of the class;
* `decode`                  what a register file means;
* `decode_exec`             each call does to the meaning what its name says;
* `session_refines`         **the register file after any session** means what the calls say, and
                            nothing else has changed.
-/

namespace Udmaio
open Lib

namespace Vdma

abbrev rs : BitField := ⟨0, 1⟩

/-! ## the methods -/

def start : VdmaM Unit := do
  let cr ← rd s2mmVdmacr
  wr s2mmVdmacr (rs.set 1 cr)

/-- `start(frm_format)` -/
def startFrames (frmFormat : FrameFormat) : VdmaM Unit := do
  setFrameFormat frmFormat
  start

/-- `stop(false)` -/
def stop : VdmaM Unit := do
  let cr ← rd s2mmVdmacr
  wr s2mmVdmacr (rs.set 0 cr)

/-- what happens to the registers; `halt` is the core's -/
inductive Event where
  | config (frmBufs : List UioRegion)
  | configFrames (frmBufs : List UioRegion) (frmFormat : FrameFormat)
  | setFrameFormat (frmFormat : FrameFormat)
  | start
  | startFrames (frmFormat : FrameFormat)
  | stop
  | halt

def exec (longAddrs : Bool) : Event → VdmaM Unit
  | .config frmBufs => config longAddrs frmBufs
  | .configFrames frmBufs frmFormat => do
    let _ ← configFrames longAddrs frmBufs frmFormat
  | .setFrameFormat frmFormat => setFrameFormat frmFormat
  | .start => start
  | .startFrames frmFormat => startFrames frmFormat
  | .stop => stop
  | .halt => modify fun regs : VdmaRegs =>
    Function.update regs s2mmVdmacr (rs.set 0 (regs s2mmVdmacr))

/-- one event after the other; an exception ends it -/
def session (longAddrs : Bool) : List Event → VdmaM Unit
  | [] => return
  | ev :: evs => do
    exec longAddrs ev
    session longAddrs evs

/-- the buffers have registers, and these hold their addresses -/
def BufsFit (longAddrs : Bool) (frmBufs : List UioRegion) : Prop :=
  frmBufs.length * addrWords longAddrs ≤ 16 ∧
    (longAddrs = true ∨ ∀ b ∈ frmBufs, b.addr.toNat < 2^32)

/-- the register holds the height -/
def FormatFits (f : FrameFormat) : Prop := f.getDim.height.toNat < 2^13

instance (longAddrs : Bool) (frmBufs : List UioRegion) : Decidable (BufsFit longAddrs frmBufs) :=
  inferInstanceAs (Decidable (_ ∧ _))

instance (f : FrameFormat) : Decidable (FormatFits f) := inferInstanceAs (Decidable (_ < _))

/-- what is asked for fits into the registers -/
def Event.Fits (longAddrs : Bool) : Event → Prop
  | .config frmBufs => BufsFit longAddrs frmBufs
  | .configFrames frmBufs f => BufsFit longAddrs frmBufs ∧ FormatFits f
  | .setFrameFormat f => FormatFits f
  | .startFrames f => FormatFits f
  | _ => True

instance (longAddrs : Bool) : ∀ ev : Event, Decidable (ev.Fits longAddrs)
  | .config frmBufs => inferInstanceAs (Decidable (BufsFit longAddrs frmBufs))
  | .configFrames frmBufs f => inferInstanceAs
      (Decidable (BufsFit longAddrs frmBufs ∧ FormatFits f))
  | .setFrameFormat f | .startFrames f => inferInstanceAs (Decidable (FormatFits f))
  | .start | .stop | .halt => .isTrue trivial

/-! ## what the registers mean -/

/-- the core as its user sees it -/
@[ext]
structure VdmaState where
  running : Bool
  circular : Bool
  repeats : Bool
  stride : BitVec 16
  hsize : BitVec 16
  /-- in lines -/
  vsize : Nat
  addr : Nat → BitVec 64

namespace VdmaState

def setFormat (v : VdmaState) (f : FrameFormat) : VdmaState :=
  { v with stride := f.getHsize, hsize := f.getHsize, vsize := f.getDim.height.toNat }

def setBuffers (v : VdmaState) (frmBufs : List UioRegion) : VdmaState :=
  { v with
    circular := true
    repeats := true
    addr := fun i => match frmBufs[i]? with
      | some buf => buf.addr
      | none => v.addr i }

def apply (v : VdmaState) : Event → VdmaState
  | .config frmBufs => v.setBuffers frmBufs
  | .configFrames frmBufs f => (v.setBuffers frmBufs).setFormat f
  | .setFrameFormat f => v.setFormat f
  | .start => { v with running := true }
  | .startFrames f => { v.setFormat f with running := true }
  | .stop => { v with running := false }
  | .halt => { v with running := false }

end VdmaState

section
variable (longAddrs : Bool)

def decode (regs : VdmaRegs) : VdmaState where
  running := rs.get (regs s2mmVdmacr) = 1
  circular := circularPark.get (regs s2mmVdmacr) = 1
  repeats := repeatEn.get (regs s2mmVdmacr) = 1
  stride := stride.get (regs s2mmFrmdlyStride)
  hsize := horizontalSize.get (regs s2mmHsize)
  vsize := (verticalSize.get (regs s2mmVsize)).toNat
  addr i := if (i + 1) * addrWords longAddrs ≤ 16 then startAddr longAddrs regs i else 0

/-- the registers and the bits that no method names -/
structure Frame (regs regs' : VdmaRegs) : Prop where
  control : ∀ i < 32, i ≠ 0 → i ≠ 1 → i ≠ 15 →
    (regs' s2mmVdmacr).getLsbD i = (regs s2mmVdmacr).getLsbD i
  others : ∀ offs, offs ≠ s2mmVdmacr → offs ≠ s2mmVsize → offs ≠ s2mmHsize →
    offs ≠ s2mmFrmdlyStride → (∀ k < 16, offs ≠ s2mmSa + k * 4) → regs' offs = regs offs

theorem Frame.refl (regs : VdmaRegs) : Frame regs regs :=
  ⟨fun _ _ _ _ _ => rfl, fun _ _ _ _ _ _ => rfl⟩

theorem Frame.trans {regs regs1 regs2 : VdmaRegs} (h : Frame regs regs1) (h' : Frame regs1 regs2) :
    Frame regs regs2 where
  control i hi h0 h1 h15 := (h'.control i hi h0 h1 h15).trans (h.control i hi h0 h1 h15)
  others offs h1 h2 h3 h4 h5 := (h'.others offs h1 h2 h3 h4 h5).trans (h.others offs h1 h2 h3 h4 h5)

/-! ## one register -/

theorem startAddr_update_of_ne {regs : VdmaRegs} {offs : Nat} (h : ∀ k, s2mmSa + k * 4 ≠ offs)
    (w : BitVec 32) (i : Nat) :
    startAddr longAddrs (Function.update regs offs w) i = startAddr longAddrs regs i :=
  startAddr_congr fun _ _ => Function.update_of_ne (h _) _ _

/-- a write to the control register -/
theorem decode_control (regs : VdmaRegs) (cr : BitVec 32) :
    decode longAddrs (Function.update regs s2mmVdmacr cr) =
      { decode longAddrs regs with
        running := rs.get cr = 1
        circular := circularPark.get cr = 1
        repeats := repeatEn.get cr = 1 } := by
  unfold decode
  rw [Function.update_self, Function.update_of_ne (by decide), Function.update_of_ne (by decide),
    Function.update_of_ne (by decide)]
  simp only [startAddr_update_of_ne longAddrs fun k => (s2mmSa_ne k).1]

/-- the run bit alone -/
theorem decode_run (regs : VdmaRegs) (b : BitVec 1) :
    decode longAddrs (Function.update regs s2mmVdmacr (rs.set b (regs s2mmVdmacr)))
      = { decode longAddrs regs with running := b = 1 } := by
  rw [decode_control, rs.get_set _ _ (by decide),
    circularPark.get_set_of_disjoint rs _ _ (by decide) (by decide),
    repeatEn.get_set_of_disjoint rs _ _ (by decide) (by decide)]
  rfl

theorem frame_control {regs : VdmaRegs} {cr : BitVec 32}
    (h : ∀ i < 32, i ≠ 0 → i ≠ 1 → i ≠ 15 → cr.getLsbD i = (regs s2mmVdmacr).getLsbD i) :
    Frame regs (Function.update regs s2mmVdmacr cr) where
  control i hi h0 h1 h15 := by rw [Function.update_self, h i hi h0 h1 h15]
  others offs h1 _ _ _ _ := Function.update_of_ne h1 _ _

theorem frame_run (regs : VdmaRegs) (b : BitVec 1) :
    Frame regs (Function.update regs s2mmVdmacr (rs.set b (regs s2mmVdmacr))) := by
  refine frame_control fun i hi h0 _ _ => ?_
  have hout : ¬(rs.lo ≤ i ∧ i < rs.lo + rs.len) := by
    show ¬(0 ≤ i ∧ i < 0 + 1)
    omega
  rw [rs.getLsbD_set _ _ hi, if_neg hout]

/-! ## the frame format -/

def formatted (f : FrameFormat) (regs : VdmaRegs) : VdmaRegs :=
  Function.update (Function.update (Function.update regs s2mmFrmdlyStride (stride.set f.getHsize 0))
    s2mmHsize (horizontalSize.set f.getHsize 0)) s2mmVsize
      (verticalSize.set (f.getDim.height.setWidth 13) 0)

theorem setFrameFormat_eq (f : FrameFormat) (regs : VdmaRegs) :
    setFrameFormat f regs = .ok () (formatted f regs) := rfl

theorem formatted_of_ne (f : FrameFormat) (regs : VdmaRegs) {offs : Nat} (h1 : offs ≠ s2mmVsize)
    (h2 : offs ≠ s2mmHsize) (h3 : offs ≠ s2mmFrmdlyStride) : formatted f regs offs = regs offs := by
  rw [formatted, Function.update_of_ne h1, Function.update_of_ne h2, Function.update_of_ne h3]

theorem decode_formatted {f : FrameFormat} (hf : FormatFits f) (regs : VdmaRegs) :
    decode longAddrs (formatted f regs) = (decode longAddrs regs).setFormat f := by
  have hv : formatted f regs s2mmVsize = verticalSize.set (f.getDim.height.setWidth 13) 0 :=
    Function.update_self _ _ _
  have hh : formatted f regs s2mmHsize = horizontalSize.set f.getHsize 0 := by
    rw [formatted, Function.update_of_ne (by decide), Function.update_self]
  have hs : formatted f regs s2mmFrmdlyStride = stride.set f.getHsize 0 := by
    rw [formatted, Function.update_of_ne (by decide), Function.update_of_ne (by decide),
      Function.update_self]
  have hc : formatted f regs s2mmVdmacr = regs s2mmVdmacr :=
    formatted_of_ne f regs (by decide) (by decide) (by decide)
  have ha : ∀ i, startAddr longAddrs (formatted f regs) i = startAddr longAddrs regs i := by
    intro i
    refine startAddr_congr fun k _ => ?_
    obtain ⟨-, h1, h2, h3⟩ := s2mmSa_ne (i * addrWords longAddrs + k)
    exact formatted_of_ne f regs h1 h2 h3
  unfold decode
  -- `stride` and `horizontalSize` are the same bits
  rw [hv, hh, hs, hc, stride.get_set _ _ (by decide), (vsize_eq_iff _).mpr hf]
  simp only [ha]
  rfl

theorem frame_formatted (f : FrameFormat) (regs : VdmaRegs) : Frame regs (formatted f regs) where
  control i _ _ _ _ := by rw [formatted_of_ne f regs (by decide) (by decide) (by decide)]
  others offs _ h2 h3 h4 _ := formatted_of_ne f regs h2 h3 h4

/-! ## the start addresses -/

/-- the control register as `config` leaves it -/
def looping (cr : BitVec 32) : BitVec 32 := repeatEn.set 1 (circularPark.set 1 cr)

theorem config_eq {frmBufs : List UioRegion} (h : frmBufs.length * addrWords longAddrs ≤ 16)
    (regs : VdmaRegs) :
    config longAddrs frmBufs regs = .ok () (wrBufs longAddrs 0 frmBufs
      (Function.update regs s2mmVdmacr (looping (regs s2mmVdmacr)))) :=
  initBuffersLoop_ok longAddrs frmBufs 0 _ (by rw [Nat.zero_add]; exact h)

theorem wrBufs_control (frmBufs : List UioRegion) (regs : VdmaRegs) {offs : Nat}
    (h : ∀ k, s2mmSa + k * 4 ≠ offs) : wrBufs longAddrs 0 frmBufs regs offs = regs offs :=
  wrBufs_of_ne longAddrs frmBufs 0 regs fun _ _ => (h _).symm

theorem startAddr_wrBufs_of_le {frmBufs : List UioRegion} (regs : VdmaRegs) {i : Nat}
    (hi : frmBufs.length ≤ i) :
    startAddr longAddrs (wrBufs longAddrs 0 frmBufs regs) i = startAddr longAddrs regs i := by
  refine startAddr_congr fun k _ => wrBufs_of_ne longAddrs frmBufs 0 regs fun l hl => ?_
  have : frmBufs.length * addrWords longAddrs ≤ i * addrWords longAddrs := Nat.mul_le_mul_right _ hi
  omega

theorem decode_wrBufs {frmBufs : List UioRegion} (h : BufsFit longAddrs frmBufs)
    (regs : VdmaRegs) : decode longAddrs (wrBufs longAddrs 0 frmBufs regs) =
      { decode longAddrs regs with
        addr := fun i => match frmBufs[i]? with
          | some buf => buf.addr
          | none => (decode longAddrs regs).addr i } := by
  have hcr := wrBufs_control longAddrs frmBufs regs fun k => (s2mmSa_ne k).1
  have hv := wrBufs_control longAddrs frmBufs regs fun k => (s2mmSa_ne k).2.1
  have hh := wrBufs_control longAddrs frmBufs regs fun k => (s2mmSa_ne k).2.2.1
  have hs := wrBufs_control longAddrs frmBufs regs fun k => (s2mmSa_ne k).2.2.2
  have ha : (decode longAddrs (wrBufs longAddrs 0 frmBufs regs)).addr = fun i =>
      match frmBufs[i]? with
      | some buf => buf.addr
      | none => (decode longAddrs regs).addr i := by
    funext i
    by_cases hi : i < frmBufs.length
    · have hbuf := startAddr_wrBufs longAddrs frmBufs 0 regs hi
      have hfits : (i + 1) * addrWords longAddrs ≤ 16 := (Nat.mul_le_mul_right _ hi).trans h.1
      have hfull : readBack longAddrs frmBufs[i].addr = frmBufs[i].addr :=
        (readBack_eq_iff longAddrs _).mpr (h.2.imp_right fun hlt => hlt _ (List.getElem_mem hi))
      rw [Nat.zero_add, hfull] at hbuf
      simp only [decode, hbuf, if_pos hfits, List.getElem?_eq_getElem hi]
    · have hle := Nat.le_of_not_lt hi
      simp only [decode, startAddr_wrBufs_of_le longAddrs regs hle, List.getElem?_eq_none hle]
  rw [← ha]
  simp only [decode, hcr, hv, hh, hs]

theorem decode_looping (regs : VdmaRegs) :
    decode longAddrs (Function.update regs s2mmVdmacr (looping (regs s2mmVdmacr))) =
      { decode longAddrs regs with circular := true, repeats := true } := by
  have hrun : rs.get (looping (regs s2mmVdmacr)) = rs.get (regs s2mmVdmacr) := by
    rw [looping, rs.get_set_of_disjoint repeatEn _ _ (by decide) (by decide),
      rs.get_set_of_disjoint circularPark _ _ (by decide) (by decide)]
  have hcircular : circularPark.get (looping (regs s2mmVdmacr)) = 1 := by
    rw [looping, circularPark.get_set_of_disjoint repeatEn _ _ (by decide) (by decide)]
    exact circularPark.get_set _ _ (by decide)
  have hrepeat : repeatEn.get (looping (regs s2mmVdmacr)) = 1 := repeatEn.get_set _ _ (by decide)
  rw [decode_control, hrun, hcircular, hrepeat]
  rfl

theorem frame_looping (regs : VdmaRegs) :
    Frame regs (Function.update regs s2mmVdmacr (looping (regs s2mmVdmacr))) := by
  refine frame_control fun i hi _ h1 h15 => ?_
  have hr : ¬(repeatEn.lo ≤ i ∧ i < repeatEn.lo + repeatEn.len) := by
    show ¬(15 ≤ i ∧ i < 15 + 1)
    omega
  have hc : ¬(circularPark.lo ≤ i ∧ i < circularPark.lo + circularPark.len) := by
    show ¬(1 ≤ i ∧ i < 1 + 1)
    omega
  rw [looping, repeatEn.getLsbD_set _ _ hi, if_neg hr, circularPark.getLsbD_set _ _ hi, if_neg hc]

theorem frame_wrBufs {frmBufs : List UioRegion} (h : frmBufs.length * addrWords longAddrs ≤ 16)
    (regs : VdmaRegs) : Frame regs (wrBufs longAddrs 0 frmBufs regs) where
  control i _ _ _ _ := by rw [wrBufs_control longAddrs frmBufs regs fun k => (s2mmSa_ne k).1]
  others offs _ _ _ _ h5 := by
    refine wrBufs_of_ne longAddrs frmBufs 0 regs fun k hk => ?_
    rw [Nat.zero_mul, Nat.zero_add]
    exact h5 k (hk.trans_le h)

/-! ## the calls -/

theorem config_sim {frmBufs : List UioRegion} (h : BufsFit longAddrs frmBufs) (regs : VdmaRegs) :
    ∃ regs', config longAddrs frmBufs regs = .ok () regs' ∧
      decode longAddrs regs' = (decode longAddrs regs).setBuffers frmBufs ∧ Frame regs regs' := by
  refine ⟨_, config_eq longAddrs h.1 regs, ?_,
    (frame_looping regs).trans (frame_wrBufs longAddrs h.1 _)⟩
  rw [decode_wrBufs longAddrs h, decode_looping]
  rfl

theorem setFrameFormat_sim {f : FrameFormat} (hf : FormatFits f) (regs : VdmaRegs) :
    ∃ regs', setFrameFormat f regs = .ok () regs' ∧
      decode longAddrs regs' = (decode longAddrs regs).setFormat f ∧ Frame regs regs' :=
  ⟨_, setFrameFormat_eq f regs, decode_formatted longAddrs hf regs, frame_formatted f regs⟩

theorem run_sim_of (b : BitVec 1) (regs : VdmaRegs) : ∃ regs',
    (do let cr ← rd s2mmVdmacr; wr s2mmVdmacr (rs.set b cr) : VdmaM Unit) regs = .ok () regs' ∧
      decode longAddrs regs' = { decode longAddrs regs with running := b = 1 } ∧ Frame regs regs' :=
  ⟨_, rfl, decode_run longAddrs regs b, frame_run regs b⟩

/-- **Each call does to the meaning what its name says.** -/
theorem decode_exec (regs : VdmaRegs) (ev : Event) (h : ev.Fits longAddrs) :
    ∃ regs', exec longAddrs ev regs = .ok () regs' ∧
      decode longAddrs regs' = (decode longAddrs regs).apply ev ∧ Frame regs regs' := by
  cases ev with
  | config frmBufs => exact config_sim longAddrs h regs
  | configFrames frmBufs f =>
    obtain ⟨regs1, hc, hd1, hf1⟩ := config_sim longAddrs h.1 regs
    obtain ⟨regs2, hs, hd2, hf2⟩ := setFrameFormat_sim longAddrs h.2 regs1
    refine ⟨regs2, ?_, ?_, hf1.trans hf2⟩
    · have hcall : configFrames longAddrs frmBufs f regs = .ok (insufficient frmBufs f) regs2 := by
        unfold configFrames
        rw [bind_ok hc, bind_ok hs]
        rfl
      show (configFrames longAddrs frmBufs f >>= fun _ => pure ()) regs = _
      rw [bind_ok hcall]
      rfl
    · rw [hd2, hd1]
      rfl
  | setFrameFormat f => exact setFrameFormat_sim longAddrs h regs
  | start => exact run_sim_of longAddrs 1 regs
  | startFrames f =>
    obtain ⟨regs1, hs, hd1, hf1⟩ := setFrameFormat_sim longAddrs h regs
    obtain ⟨regs2, hr, hd2, hf2⟩ := run_sim_of longAddrs 1 regs1
    refine ⟨regs2, ?_, ?_, hf1.trans hf2⟩
    · show (setFrameFormat f >>= fun _ => start) regs = _
      rw [bind_ok hs]
      exact hr
    · rw [hd2, hd1]
      rfl
  | stop => exact run_sim_of longAddrs 0 regs
  | halt => exact run_sim_of longAddrs 0 regs

/-- **The registers after any session** mean what the calls say, and nothing else has changed. -/
theorem session_refines (regs : VdmaRegs) (evs : List Event) (h : ∀ ev ∈ evs, ev.Fits longAddrs) :
    ∃ regs', session longAddrs evs regs = .ok () regs' ∧
      decode longAddrs regs' = evs.foldl VdmaState.apply (decode longAddrs regs) ∧
      Frame regs regs' := by
  induction evs generalizing regs with
  | nil => exact ⟨regs, rfl, rfl, Frame.refl regs⟩
  | cons ev evs ih =>
    obtain ⟨regs1, hcall, hd1, hf1⟩ := decode_exec longAddrs regs ev (h ev List.mem_cons_self)
    obtain ⟨regs2, hrest, hd2, hf2⟩ := ih regs1 fun b hb => h b (List.mem_cons_of_mem _ hb)
    refine ⟨regs2, ?_, ?_, hf1.trans hf2⟩
    · rw [session, bind_ok hcall]
      exact hrest
    · rw [List.foldl_cons, ← hd1, hd2]

end

/-- two full HD buffers; the core halts once and is started again -/
theorem session_refines_restart :
    ∃ regs', session false
        [.configFrames [⟨0x10000000, 8294400⟩, ⟨0x20000000, 8294400⟩]
          ⟨⟨1920, 1080⟩, .RGBa8, 4, 4, 1, 7680⟩, .start, .halt,
            .start] (fun _ => 0) = .ok () regs' ∧
      decode false regs' = { decode false (fun _ => 0) with
        running := true
        circular := true
        repeats := true
        stride := 7680
        hsize := 7680
        vsize := 1080
        addr := fun i => match [(⟨0x10000000, 8294400⟩ : UioRegion), ⟨0x20000000, 8294400⟩][i]? with
          | some buf => buf.addr
          | none => (decode false (fun _ => 0)).addr i } ∧
      Frame (fun _ => 0) regs' :=
  session_refines false (fun _ => 0) _ (by decide)

end Vdma

end Udmaio
