import Mathlib.Algebra.Order.Floor.Div
import Mathlib.Tactic.Ring
import Udmaio.Lib.Run
import Udmaio.Vdma.Format

/-!
# The setters of `FrameFormat`

Seven setters change dimensions, bytes per pixel and word width, and recompute pixels per word and
line length each time.

* `Setter.exec_eq`         one equation for all of them: a call throws, or sets members (`asked`)
                           and runs `update_hsize`;
* `Calls`                  sequences of calls that all return;
* `geometry_exact_iff`     **when line length and frame size are exact**: they fit into 16 and 31
                           bits;
* `rejected_iff`           **when a call that throws changes nothing**: the dimensions are stored
                           before the format is checked;
* `no_div_by_zero_iff`     **when no call divides by zero**: after every call a pixel has at least
                           one byte and fits into a word.
-/

namespace Udmaio
open Lib

def PixelFormat.bytes (pixFmt : PixelFormat) : BitVec 16 :=
  ((0x00ff &&& (pixFmt.code >>> 16)) / 8).setWidth 16

inductive Setter where
  | setFormatBpp (dim : Dim) (bytesPerPixel : BitVec 16) (wordWidth : BitVec 8)
  | setFormat (dim : Dim) (pixFmt : PixelFormat) (wordWidth : BitVec 8)
  | setFormatStr (dim : Dim) (pixFmtStr : String) (wordWidth : BitVec 8)
  | setDim (dim : Dim)
  | setBpp (bytesPerPixel : BitVec 16)
  | setPixFmt (pixFmt : PixelFormat)
  | setWordWidth (wordWidth : BitVec 8)
deriving DecidableEq, Repr

namespace Setter

def exec : Setter → FmtM Unit
  | .setFormatBpp dim bytesPerPixel wordWidth =>
    FrameFormat.setFormatBpp dim bytesPerPixel wordWidth
  | .setFormat dim pixFmt wordWidth => FrameFormat.setFormat dim pixFmt wordWidth
  | .setFormatStr dim pixFmtStr wordWidth => FrameFormat.setFormatStr dim pixFmtStr wordWidth
  | .setDim dim => FrameFormat.setDim dim
  | .setBpp bytesPerPixel => FrameFormat.setBpp bytesPerPixel
  | .setPixFmt pixFmt => FrameFormat.setPixFmt pixFmt
  | .setWordWidth wordWidth => FrameFormat.setWordWidth wordWidth

/-! ## what a call does -/

/-- the pixel format that the call sets, if it sets one -/
def format? : Setter → Option PixelFormat
  | .setFormat _ pixFmt _ => some pixFmt
  | .setFormatStr _ pixFmtStr _ => some (pixFmtFromStr pixFmtStr)
  | .setPixFmt pixFmt => some pixFmt
  | _ => none

/-- the dimensions that the call sets, if it sets any -/
def dim? : Setter → Option Dim
  | .setFormatBpp dim _ _ => some dim
  | .setFormat dim _ _ => some dim
  | .setFormatStr dim _ _ => some dim
  | .setDim dim => some dim
  | _ => none

/-- bytes per pixel when `update_hsize` runs -/
def askedBpp (f : FrameFormat) : Setter → BitVec 16
  | .setFormatBpp _ bytesPerPixel _ => bytesPerPixel
  | .setBpp bytesPerPixel => bytesPerPixel
  | .setFormat _ pixFmt _ => pixFmt.bytes
  | .setFormatStr _ pixFmtStr _ => (pixFmtFromStr pixFmtStr).bytes
  | .setPixFmt pixFmt => pixFmt.bytes
  | _ => f.bpp

/-- word width when `update_hsize` runs -/
def askedWordWidth (f : FrameFormat) : Setter → BitVec 8
  | .setFormatBpp _ _ wordWidth => wordWidth
  | .setFormat _ _ wordWidth => wordWidth
  | .setFormatStr _ _ wordWidth => wordWidth
  | .setWordWidth wordWidth => wordWidth
  | _ => f.wordWidth

def askedPixFmt (f : FrameFormat) : Setter → PixelFormat
  | .setFormatBpp _ _ _ => .unknown
  | .setBpp _ => .unknown
  | c => c.format?.getD f.pixFmt

/-- the members when `update_hsize` runs -/
def asked (c : Setter) (f : FrameFormat) : FrameFormat :=
  { f with
    dim := c.dim?.getD f.dim
    pixFmt := c.askedPixFmt f
    bpp := c.askedBpp f
    wordWidth := c.askedWordWidth f }

def unknownMsg : String := "Attempt to set pixel format to 'unknown'"

theorem updatePxFmt_of_ne {pixFmt : PixelFormat} (h : pixFmt ≠ .unknown) :
    FrameFormat.updatePxFmt pixFmt = modify fun f =>
      { f with pixFmt := pixFmt, bpp := pixFmt.bytes } := by
  unfold FrameFormat.updatePxFmt
  rw [if_neg h]
  rfl

theorem setFormat_eq (dim : Dim) (pixFmt : PixelFormat) (wordWidth : BitVec 8) (f : FrameFormat) :
    FrameFormat.setFormat dim pixFmt wordWidth f = if pixFmt = .unknown
      then .error (.exception unknownMsg) { f with dim := dim }
      else FrameFormat.updateHsize
        { f with dim := dim, pixFmt := pixFmt, bpp := pixFmt.bytes, wordWidth := wordWidth } := by
  unfold FrameFormat.setFormat
  by_cases h : pixFmt = .unknown
  · rw [if_pos h, h]
    rfl
  · rw [if_neg h, updatePxFmt_of_ne h]
    rfl

/-- **One equation for all setters.** -/
theorem exec_eq (c : Setter) (f : FrameFormat) : c.exec f =
    if c.format? = some .unknown
    then .error (.exception unknownMsg) { f with dim := c.dim?.getD f.dim }
    else FrameFormat.updateHsize (c.asked f) := by
  cases c with
  | setFormatBpp dim bytesPerPixel wordWidth => rfl
  | setDim dim => rfl
  | setBpp bytesPerPixel => rfl
  | setWordWidth wordWidth => rfl
  | setFormat dim pixFmt wordWidth =>
    simp only [exec, format?, Option.some.injEq, setFormat_eq]
    rfl
  | setFormatStr dim pixFmtStr wordWidth =>
    simp only [exec, format?, Option.some.injEq, FrameFormat.setFormatStr, setFormat_eq]
    rfl
  | setPixFmt pixFmt =>
    simp only [exec, format?, Option.some.injEq]
    unfold FrameFormat.setPixFmt
    by_cases h : pixFmt = .unknown
    · rw [if_pos h, h]
      rfl
    · rw [if_neg h, updatePxFmt_of_ne h]
      rfl

end Setter

namespace FrameFormat

/-- a pixel has at least one byte and fits into a word -/
def PixelFits (f : FrameFormat) : Prop := 1 ≤ f.bpp.toNat ∧ f.bpp.toNat ≤ f.wordWidth.toNat

instance (f : FrameFormat) : Decidable f.PixelFits := inferInstanceAs (Decidable (_ ∧ _))

theorem toNat_div (f : FrameFormat) :
    (f.wordWidth.setWidth 16 / f.bpp).toNat = f.wordWidth.toNat / f.bpp.toNat := by
  have := f.wordWidth.isLt
  rw [BitVec.toNat_udiv, BitVec.toNat_setWidth, Nat.mod_eq_of_lt (by omega)]

/-- **What `update_hsize` does.**  It divides by zero unless a pixel fits into a word. -/
theorem updateHsize_eq (f : FrameFormat) : updateHsize f = if f.PixelFits
    then .ok () { f with
      pixPerWord := f.wordWidth.setWidth 16 / f.bpp
      hsize := BitVec.ofNat 16 (lineLen f.dim.width.toNat (f.wordWidth.toNat / f.bpp.toNat)
        f.wordWidth.toNat) }
    else .error .divByZero { f with
      pixPerWord := if f.bpp = 0 then f.pixPerWord else 0 } := by
  have hdiv := f.toNat_div
  show (ite (f.bpp = 0) _ _ : FmtM Unit) f = _
  by_cases h0 : f.bpp = 0
  · have hfit : ¬ f.PixelFits := by
      unfold PixelFits
      rw [h0]
      simp
    rw [if_pos h0, if_neg hfit, if_pos h0]
    rfl
  · have hpos : 0 < f.bpp.toNat := Nat.pos_of_ne_zero fun h => h0 (BitVec.eq_of_toNat_eq h)
    rw [if_neg h0, if_neg h0]
    show (ite (f.wordWidth.setWidth 16 / f.bpp = 0) _ _ : FmtM Unit) _ = _
    by_cases hq : f.wordWidth.setWidth 16 / f.bpp = 0
    · have hfit : ¬ f.PixelFits := by
        rintro ⟨-, hle⟩
        rw [hq] at hdiv
        exact Nat.ne_of_gt (Nat.div_pos hle hpos) hdiv.symm
      rw [if_pos hq, if_neg hfit, hq]
      rfl
    · have hfit : f.PixelFits := by
        refine ⟨hpos, Nat.le_of_not_lt fun hlt => hq ?_⟩
        apply BitVec.eq_of_toNat_eq
        rw [hdiv, Nat.div_eq_of_lt hlt]
        rfl
      rw [if_neg hq, if_pos hfit, ← hdiv]
      rfl

end FrameFormat

/-! ## calls that throw -/

namespace Setter

/-- a call that throws has stored its dimensions -/
theorem exec_exception {c : Setter} {f g : FrameFormat} {msg : String}
    (h : c.exec f = .error (.exception msg) g) : g = { f with dim := c.dim?.getD f.dim } := by
  rw [exec_eq, FrameFormat.updateHsize_eq] at h
  split at h
  · injection h with _ h
    exact h.symm
  · split at h
    · cases h
    · injection h with h _
      cases h

/-- **When a rejected format changes nothing**: the call sets no dimensions, or those that are
there. -/
theorem rejected_iff (c : Setter) (f g : FrameFormat) (msg : String)
    (h : c.exec f = .error (.exception msg) g) :
    g = f ↔ c.dim? = none ∨ c.dim? = some f.dim := by
  rw [exec_exception h]
  cases hd : c.dim? with
  | none => exact ⟨fun _ => Or.inl rfl, fun _ => rfl⟩
  | some d =>
    constructor
    · intro he
      exact Or.inr (congrArg (fun f => some f.dim) he)
    · rintro (he | he)
      · cases he
      · obtain rfl := Option.some.inj he
        rfl

/-- an unknown format name with the dimensions that are set already -/
theorem rejected_iff_sameDim : ∃ f g,
    (setFormat ⟨1920, 1080⟩ .RGBa8 4).exec FrameFormat.init = .ok () f ∧
    (setFormatStr ⟨1920, 1080⟩ "Mono9" 8).exec f = .error (.exception unknownMsg) g ∧ g = f :=
  ⟨⟨⟨1920, 1080⟩, .RGBa8, 4, 4, 1, 7680⟩, _, rfl, rfl,
    (rejected_iff (setFormatStr ⟨1920, 1080⟩ "Mono9" 8) _ _ _ rfl).mpr (Or.inr rfl)⟩

/-! ## sequences of calls -/

/-- the object after a call, whether it returns or not -/
def step (f : FrameFormat) (c : Setter) : FrameFormat :=
  match c.exec f with
  | .ok _ g => g
  | .error _ g => g

/-- an unknown format name leaves new dimensions behind, with the old line length -/
theorem rejected_format_changes_dim :
    ¬ ∀ (cs : List Setter) (c : Setter) (g : FrameFormat) (msg : String),
      c.exec (run step FrameFormat.init cs) = .error (.exception msg) g →
        g = run step FrameFormat.init cs := by
  intro h
  have := h [setFormat ⟨1920, 1080⟩ .Mono8 4] (setFormatStr ⟨64, 48⟩ "Mono9" 4) _ unknownMsg rfl
  exact absurd (congrArg FrameFormat.dim this) (by decide)

/-! ## division by zero -/

def NoDivByZero (f : FrameFormat) (c : Setter) : Prop := ∀ g, c.exec f ≠ .error .divByZero g

/-- the call throws, or the bytes per pixel and the word width that it leaves, its own or those of
the object, are such that a pixel has at least one byte and fits into a word -/
def LeavesFit (f : FrameFormat) (c : Setter) : Prop :=
  c.format? = some .unknown ∨
    1 ≤ (c.askedBpp f).toNat ∧ (c.askedBpp f).toNat ≤ (c.askedWordWidth f).toNat

instance (f : FrameFormat) (c : Setter) : Decidable (LeavesFit f c) :=
  inferInstanceAs (Decidable (_ ∨ _))

theorem noDivByZero_iff (f : FrameFormat) (c : Setter) : NoDivByZero f c ↔ LeavesFit f c := by
  have hexec := c.exec_eq f
  rw [FrameFormat.updateHsize_eq] at hexec
  by_cases hu : c.format? = some .unknown
  · rw [if_pos hu] at hexec
    refine ⟨fun _ => Or.inl hu, fun _ g hg => ?_⟩
    rw [hexec] at hg
    injection hg with hg _
    cases hg
  · rw [if_neg hu] at hexec
    by_cases hfit : (c.asked f).PixelFits
    · rw [if_pos hfit] at hexec
      refine ⟨fun _ => Or.inr hfit, fun _ g hg => ?_⟩
      rw [hexec] at hg
      cases hg
    · rw [if_neg hfit] at hexec
      exact ⟨fun h => absurd hexec (h _), fun h => absurd (h.resolve_left hu) hfit⟩

/-- **When no call of a sequence divides by zero.** -/
theorem no_div_by_zero_iff (cs : List Setter) :
    Along step NoDivByZero FrameFormat.init cs ↔ Along step LeavesFit FrameFormat.init cs :=
  Along.congr step noDivByZero_iff FrameFormat.init cs

/-- eight bytes per pixel in words of eight bytes, set one after the other: the first call divides
by zero, and so does a pixel of no bytes; the other order does not -/
theorem div_by_zero_on_the_way :
    ¬ Along step NoDivByZero FrameFormat.init [setBpp 8, setWordWidth 8] ∧
    (run step FrameFormat.init [setBpp 8, setWordWidth 8]).PixelFits ∧
    Along step NoDivByZero FrameFormat.init [setWordWidth 8, setBpp 8] ∧
    ¬ Along step NoDivByZero FrameFormat.init [setBpp 0] := by
  have h : ∀ f c, NoDivByZero f c ↔ LeavesFit f c := noDivByZero_iff
  rw [Along.congr step h, Along.congr step h, Along.congr step h]
  decide

/-! ## geometry -/

/-- the call returns and leaves `g`; a machine that does not stop at a division by zero goes on with
any pixels per word and line length -/
def Returns (c : Setter) (f g : FrameFormat) : Prop :=
  c.exec f = .ok () g ∨
    ∃ g', c.exec f = .error .divByZero g' ∧ ∃ p h, g = { g' with pixPerWord := p, hsize := h }

/-- calls that all return, one after the other -/
def Calls : List Setter → FrameFormat → FrameFormat → Prop
  | [], f, g => f = g
  | c :: cs, f, g => ∃ f', c.Returns f f' ∧ Calls cs f' g

end Setter

namespace FrameFormat

/-- pixels per word and line length are those of the other members -/
def Derived (f : FrameFormat) : Prop :=
  f.PixelFits → f.pixPerWord = f.wordWidth.setWidth 16 / f.bpp ∧
    f.hsize = BitVec.ofNat 16 (lineLen f.dim.width.toNat (f.wordWidth.toNat / f.bpp.toNat)
      f.wordWidth.toNat)

theorem Derived.init : init.Derived := fun _ => by decide

theorem Derived.returns {c : Setter} {f g : FrameFormat} (h : c.Returns f g) : g.Derived := by
  have hexec := c.exec_eq f
  rw [updateHsize_eq] at hexec
  rcases h with h | ⟨g', h, p, q, rfl⟩
  · rw [h] at hexec
    split at hexec
    · cases hexec
    · split at hexec
      · injection hexec with _ e
        subst e
        exact fun _ => ⟨rfl, rfl⟩
      · cases hexec
  · rw [h] at hexec
    split at hexec
    · injection hexec with e _
      cases e
    · split at hexec
      · cases hexec
      · next hfit =>
        injection hexec with _ e
        subst e
        exact fun hfit' => absurd hfit' hfit

theorem Derived.calls {cs : List Setter} {f g : FrameFormat} (hf : f.Derived)
    (h : Setter.Calls cs f g) : g.Derived := by
  induction cs generalizing f with
  | nil =>
    obtain rfl : f = g := h
    exact hf
  | cons c cs ih =>
    obtain ⟨f', hc, hcs⟩ := h
    exact ih (Derived.returns hc) hcs

/-- the line length in bytes as a mathematical integer -/
def line (f : FrameFormat) : Nat :=
  f.dim.width.toNat ⌈/⌉ (f.wordWidth.toNat / f.bpp.toNat) * f.wordWidth.toNat

/-- line length and frame size are the mathematical ones, and they depend on dimensions, bytes per
pixel and word width only -/
structure Exact (f : FrameFormat) : Prop where
  pixPerWord : f.getPixelPerWord.toNat = f.wordWidth.toNat / f.bpp.toNat
  hsize : f.getHsize.toNat
    = f.dim.width.toNat ⌈/⌉ f.getPixelPerWord.toNat * f.wordWidth.toNat
  multiple : f.wordWidth.toNat ∣ f.getHsize.toNat
  covers : f.dim.width.toNat * f.bpp.toNat ≤ f.getHsize.toNat
  frmSize : f.getFrmSize.toNat = f.getHsize.toNat * f.dim.height.toNat
  determined : ∀ cs g, Setter.Calls cs init g → g.dim = f.dim → g.bpp = f.bpp →
    g.wordWidth = f.wordWidth → g.getPixelPerWord = f.getPixelPerWord ∧ g.getHsize = f.getHsize ∧
      g.getFrmSize = f.getFrmSize

section
variable {f : FrameFormat} (hd : f.Derived) (hfit : f.PixelFits)
include hd hfit

theorem Derived.pixPerWord_toNat : f.getPixelPerWord.toNat = f.wordWidth.toNat / f.bpp.toNat := by
  show f.pixPerWord.toNat = _
  rw [(hd hfit).1, toNat_div]

theorem Derived.hsize_toNat : f.getHsize.toNat = f.line % 2^16 := by
  show f.hsize.toNat = _
  rw [(hd hfit).2, BitVec.toNat_ofNat]
  unfold lineLen line
  rw [Nat.ceilDiv_eq_add_pred_div]

end

/-- a line holds its pixels -/
theorem mul_le_line {f : FrameFormat} (hfit : f.PixelFits) :
    f.dim.width.toNat * f.bpp.toNat ≤ f.line := by
  have hq : 0 < f.wordWidth.toNat / f.bpp.toNat := Nat.div_pos hfit.2 hfit.1
  have hceil : f.dim.width.toNat ≤ f.wordWidth.toNat / f.bpp.toNat *
      (f.dim.width.toNat ⌈/⌉ (f.wordWidth.toNat / f.bpp.toNat)) := le_smul_ceilDiv hq
  unfold line
  generalize f.dim.width.toNat ⌈/⌉ (f.wordWidth.toNat / f.bpp.toNat) = n at hceil ⊢
  calc f.dim.width.toNat * f.bpp.toNat
      ≤ f.wordWidth.toNat / f.bpp.toNat * n * f.bpp.toNat := Nat.mul_le_mul_right _ hceil
    _ = n * (f.wordWidth.toNat / f.bpp.toNat * f.bpp.toNat) := by ring
    _ ≤ n * f.wordWidth.toNat := Nat.mul_le_mul_left _ (Nat.div_mul_le_self _ _)

/-- **When the geometry is exact**: the line length fits into 16 bits and the frame size into 31. -/
theorem geometry_exact_iff (cs : List Setter) (f : FrameFormat) (hcs : Setter.Calls cs init f)
    (hfit : f.PixelFits) : f.Exact ↔ f.line < 2^16 ∧ f.line * f.dim.height.toNat < 2^31 := by
  have hd : f.Derived := Derived.init.calls hcs
  have hppw := hd.pixPerWord_toNat hfit
  have hhs := hd.hsize_toNat hfit
  constructor
  · intro h
    have hline : f.getHsize.toNat = f.line := by
      have := h.hsize
      rwa [hppw] at this
    have hlt : f.line < 2^16 := hline ▸ f.getHsize.isLt
    refine ⟨hlt, Nat.lt_of_not_le fun hge => ?_⟩
    have hsize : f.getFrmSize.toNat = f.hsize.toNat * f.dim.height.toNat := h.frmSize
    rw [f.getFrmSize_toNat, if_pos (by rw [← hline] at hge; exact hge)] at hsize
    omega
  · rintro ⟨hlt, hsize⟩
    rw [Nat.mod_eq_of_lt hlt] at hhs
    refine ⟨hppw, by rw [hppw, hhs]; rfl, ?_, ?_, ?_, ?_⟩
    · rw [hhs]
      exact Nat.dvd_mul_left _ _
    · rw [hhs]
      exact mul_le_line hfit
    · rw [f.getFrmSize_toNat, if_neg, Nat.add_zero]
      · rfl
      · rw [show f.hsize.toNat = f.line from hhs]
        exact Nat.not_le.mpr hsize
    · intro cs' g hg h1 h2 h3
      have hd' : g.Derived := Derived.init.calls hg
      have hfit' : g.PixelFits := by
        unfold PixelFits
        rw [h2, h3]
        exact hfit
      have hp : g.pixPerWord = f.pixPerWord := by rw [(hd' hfit').1, (hd hfit).1, h2, h3]
      have hh : g.hsize = f.hsize := by rw [(hd' hfit').2, (hd hfit).2, h1, h2, h3]
      refine ⟨hp, hh, ?_⟩
      unfold getFrmSize
      rw [hh, h1]

theorem geometry_exact_iff_fullHd : ∃ f, Setter.Calls
      [.setWordWidth 8, .setFormatStr ⟨640, 480⟩ "Mono8" 4, .setPixFmt .RGBa8, .setDim ⟨1920, 1080⟩]
        init f ∧
    f.Exact ∧ f.getFrmSize = 8294400 := by
  refine ⟨⟨⟨1920, 1080⟩, .RGBa8, 4, 4, 1, 7680⟩, ?_, ?_, by decide⟩
  · exact ⟨_, Or.inl rfl, _, Or.inl rfl, _, Or.inl rfl, _, Or.inl rfl, rfl⟩
  · refine (geometry_exact_iff [.setFormat ⟨1920, 1080⟩ .RGBa8 4] _ ⟨_, Or.inl rfl, rfl⟩
      (by decide)).mpr ?_
    decide

/-- a line of 65535 pixels of four bytes, and a frame of 40000 bytes times 65535 -/
theorem geometry_overflows :
    (∃ f, Setter.Calls [.setFormatBpp ⟨65535, 1⟩ 4 4] init f ∧ f.PixelFits ∧ ¬ f.Exact) ∧
    ∃ f, Setter.Calls [.setFormatBpp ⟨40000, 65535⟩ 1 4] init f ∧ f.PixelFits ∧ ¬ f.Exact := by
  refine ⟨⟨_, ⟨_, Or.inl rfl, rfl⟩, by decide, fun h => ?_⟩,
    _, ⟨_, Or.inl rfl, rfl⟩, by decide, fun h => ?_⟩
  · exact absurd h.covers (by decide)
  · exact absurd h.frmSize (by decide)

end FrameFormat

end Udmaio
