import Mathlib.Data.BitVec

/-!
# Frame formats

`FrameFormat` (`inc/udmaio/FrameFormat.hpp`, `src/FrameFormat.cpp`): dimensions, bytes per pixel and
word width of a video stream, with the line length in bytes that follows from them.

* `PixelFormat`    a code; those with a name are listed;
* `FrameFormat`    the members;
* `setFormatBpp`, `setFormat`, `setFormatStr`, `setDim`, `setBpp`, `setPixFmt`, `setWordWidth` the
  setters.  They change member after member, so that one that throws leaves what it has already
  changed.

`update_hsize` divides twice.  The integer division by zero stops the program.  The float division
by zero does not: it is infinite, and the conversion of that to `uint16_t` has no value in C++, so
the call goes on with a line length nobody knows; here it ends at that point, as `divByZero` too.
The float quotient is rounded up to the exact ceiling, and an out-of-range conversion to `uint16_t`
wraps.  Output operators and `pix_fmt_to_str`, which they use, are left out.
-/

namespace Udmaio

/-! ## pixel formats -/

/-- an enumeration over `uint32_t`: every value of that type is one -/
structure PixelFormat where
  code : BitVec 32
deriving DecidableEq, Repr

namespace PixelFormat

def unknown : PixelFormat := ⟨0⟩
def Mono8 : PixelFormat := ⟨0x01080001⟩
def Mono10 : PixelFormat := ⟨0x01100003⟩
def Mono12 : PixelFormat := ⟨0x01100005⟩
def Mono14 : PixelFormat := ⟨0x01100025⟩
def Mono16 : PixelFormat := ⟨0x01100007⟩
def BayerGR8 : PixelFormat := ⟨0x01080008⟩
def BayerRG8 : PixelFormat := ⟨0x01080009⟩
def BayerGB8 : PixelFormat := ⟨0x0108000a⟩
def BayerBG8 : PixelFormat := ⟨0x0108000b⟩
def BayerGR10 : PixelFormat := ⟨0x0110000c⟩
def BayerRG10 : PixelFormat := ⟨0x0110000d⟩
def BayerGB10 : PixelFormat := ⟨0x0110000e⟩
def BayerBG10 : PixelFormat := ⟨0x0110000f⟩
def BayerGR12 : PixelFormat := ⟨0x01100010⟩
def BayerRG12 : PixelFormat := ⟨0x01100011⟩
def BayerGB12 : PixelFormat := ⟨0x01100012⟩
def BayerBG12 : PixelFormat := ⟨0x01100013⟩
def BayerGR16 : PixelFormat := ⟨0x0110002e⟩
def BayerRG16 : PixelFormat := ⟨0x0110002f⟩
def BayerGB16 : PixelFormat := ⟨0x01100030⟩
def BayerBG16 : PixelFormat := ⟨0x01100031⟩
def RGB8 : PixelFormat := ⟨0x02180014⟩
def BGR8 : PixelFormat := ⟨0x02180015⟩
def RGBa8 : PixelFormat := ⟨0x02200016⟩
def BGRa8 : PixelFormat := ⟨0x02200017⟩
def RGB10V1Packed1 : PixelFormat := ⟨0x0220001c⟩
def RGB10p32 : PixelFormat := ⟨0x0220001d⟩
def RGB565p : PixelFormat := ⟨0x02100035⟩
def BGR565p : PixelFormat := ⟨0x02100036⟩
def YUV422_8_UYVY : PixelFormat := ⟨0x0210001f⟩
def YUV422_8 : PixelFormat := ⟨0x02100032⟩
def YUV8_UYV : PixelFormat := ⟨0x02180020⟩
def YCbCr8_CbYCr : PixelFormat := ⟨0x0218003a⟩
def YCbCr422_8 : PixelFormat := ⟨0x0210003b⟩
def YCbCr422_8_CbYCrY : PixelFormat := ⟨0x02100043⟩
def YCbCr601_8_CbYCr : PixelFormat := ⟨0x0218003d⟩
def YCbCr601_422_8 : PixelFormat := ⟨0x0210003e⟩
def YCbCr601_422_8_CbYCrY : PixelFormat := ⟨0x02100044⟩
def YCbCr709_8_CbYCr : PixelFormat := ⟨0x02180040⟩
def YCbCr709_422_8 : PixelFormat := ⟨0x02100041⟩
def YCbCr709_422_8_CbYCrY : PixelFormat := ⟨0x02100045⟩
def RGB8_Planar : PixelFormat := ⟨0x02180021⟩

end PixelFormat

/-- `_pxfmt_enum_to_str_tab`; a key that is there already is not inserted again -/
def pxfmtEnumToStrTab : List (PixelFormat × String) := [
  (.Mono8, "Mono8"), (.Mono10, "Mono10"), (.Mono12, "Mono12"), (.Mono14, "Mono14"),
  (.Mono16, "Mono16"), (.BayerGR8, "BayerGR8"), (.BayerRG8, "BayerRG8"),
  (.BayerGB8, "BayerGB8"), (.BayerBG8, "BayerBG8"), (.BayerGR10, "BayerGR10"),
  (.BayerRG10, "BayerRG10"), (.BayerGB10, "BayerGB10"), (.BayerBG10, "BayerBG10"),
  (.BayerGR12, "BayerGR12"), (.BayerRG12, "BayerRG12"), (.BayerGB12, "BayerGB12"),
  (.BayerBG12, "BayerBG12"), (.BayerGR16, "BayerGR16"), (.BayerRG16, "BayerRG16"),
  (.BayerGB16, "BayerGB16"), (.BayerBG16, "BayerBG16"), (.RGB8, "RGB8"), (.BGR8, "BGR8"),
  (.RGBa8, "RGBa8"), (.BGRa8, "BGRa8"), (.RGB10V1Packed1, "RGB10V1Packed1"),
  (.RGB10p32, "RGB10p32"), (.RGB565p, "RGB565p"), (.BGR565p, "BGR565p"),
  (.YUV422_8_UYVY, "YUV422_8_UYVY"), (.YUV422_8, "YUV422_8"), (.YUV8_UYV, "YUV8_UYV"),
  (.YCbCr8_CbYCr, "YCbCr8_CbYCr"), (.YCbCr422_8, "YCbCr422_8"),
  (.YCbCr422_8_CbYCrY, "YCbCr422_8_CbYCrY"), (.YCbCr601_8_CbYCr, "YCbCr601_8_CbYCr"),
  (.YCbCr601_422_8, "YCbCr601_422_8"), (.YCbCr601_422_8_CbYCrY, "YCbCr601_422_8_CbYCrY"),
  (.YCbCr709_8_CbYCr, "YCbCr709_8_CbYCr"), (.YCbCr709_422_8, "YCbCr709_422_8"),
  (.YCbCr601_422_8_CbYCrY, "YCbCr601_422_8_CbYCrY"), (.YCbCr709_8_CbYCr, "YCbCr709_8_CbYCr"),
  (.YCbCr709_422_8, "YCbCr709_422_8"), (.YCbCr709_422_8_CbYCrY, "YCbCr709_422_8_CbYCrY"),
  (.RGB8_Planar, "RGB8_Planar")]

def pixFmtFromStr (pixFmtStr : String) : PixelFormat :=
  match pxfmtEnumToStrTab.find? fun f => f.2 == pixFmtStr with
  | some f => f.1
  | none => .unknown

/-! ## the members and the setters -/

structure Dim where
  width : BitVec 16
  height : BitVec 16
deriving DecidableEq, Repr

structure FrameFormat where
  dim : Dim
  pixFmt : PixelFormat
  bpp : BitVec 16
  wordWidth : BitVec 8
  pixPerWord : BitVec 16
  hsize : BitVec 16
deriving DecidableEq, Repr

inductive FmtStop where
  | exception (msg : String)
  | divByZero
deriving DecidableEq, Repr

abbrev FmtM := EStateM FmtStop FrameFormat

namespace FrameFormat

/-- the default constructor -/
def init : FrameFormat where
  dim := ⟨0, 0⟩
  pixFmt := .unknown
  bpp := 1
  wordWidth := 4
  pixPerWord := 4
  hsize := 0

def updateFrmDim (dim : Dim) : FmtM Unit := modify fun f => { f with dim := dim }

def updateBpp (bytesPerPixel : BitVec 16) : FmtM Unit :=
  modify fun f => { f with pixFmt := .unknown, bpp := bytesPerPixel }

def updatePxFmt (pixFmt : PixelFormat) : FmtM Unit :=
  if pixFmt = .unknown then throw (.exception "Attempt to set pixel format to 'unknown'")
  else modify fun f =>
    { f with pixFmt := pixFmt, bpp := ((0x00ff &&& (pixFmt.code >>> 16)) / 8).setWidth 16 }

/-- `ceil((float) width / pix_per_word) * word_width` -/
def lineLen (width pixPerWord wordWidth : Nat) : Nat :=
  (width + pixPerWord - 1) / pixPerWord * wordWidth

def updateHsize : FmtM Unit := do
  let f ← get
  if f.bpp = 0 then throw .divByZero
  let pixPerWord := f.wordWidth.setWidth 16 / f.bpp
  set { f with pixPerWord := pixPerWord }
  if pixPerWord = 0 then throw .divByZero
  modify fun f => { f with
    hsize := BitVec.ofNat 16 (lineLen f.dim.width.toNat f.pixPerWord.toNat f.wordWidth.toNat) }

def setFormatBpp (dim : Dim) (bytesPerPixel : BitVec 16) (wordWidth : BitVec 8) : FmtM Unit := do
  updateFrmDim dim
  updateBpp bytesPerPixel
  modify fun f => { f with wordWidth := wordWidth }
  updateHsize

def setFormat (dim : Dim) (pixFmt : PixelFormat) (wordWidth : BitVec 8) : FmtM Unit := do
  updateFrmDim dim
  updatePxFmt pixFmt
  modify fun f => { f with wordWidth := wordWidth }
  updateHsize

def setFormatStr (dim : Dim) (pixFmtStr : String) (wordWidth : BitVec 8) : FmtM Unit :=
  setFormat dim (pixFmtFromStr pixFmtStr) wordWidth

def setDim (dim : Dim) : FmtM Unit := do
  updateFrmDim dim
  updateHsize

def setBpp (bytesPerPixel : BitVec 16) : FmtM Unit := do
  updateBpp bytesPerPixel
  updateHsize

def setPixFmt (pixFmt : PixelFormat) : FmtM Unit := do
  updatePxFmt pixFmt
  updateHsize

def setWordWidth (wordWidth : BitVec 8) : FmtM Unit := do
  modify fun f => { f with wordWidth := wordWidth }
  updateHsize

def getDim (f : FrameFormat) : Dim := f.dim

def getHsize (f : FrameFormat) : BitVec 16 := f.hsize

def getPixelPerWord (f : FrameFormat) : BitVec 16 := f.pixPerWord

/-- the product is an `int` -/
def getFrmSize (f : FrameFormat) : BitVec 64 :=
  (f.hsize.setWidth 32 * f.dim.height.setWidth 32).signExtend 64

/-- from `2^31` on the product is negative as an `int` -/
theorem getFrmSize_toNat (f : FrameFormat) : f.getFrmSize.toNat =
    f.hsize.toNat * f.dim.height.toNat +
      if 2^31 ≤ f.hsize.toNat * f.dim.height.toNat then 2^64 - 2^32 else 0 := by
  have hw := f.hsize.isLt
  have hh := f.dim.height.isLt
  have hprod : f.hsize.toNat * f.dim.height.toNat ≤ 65535 * 65535 :=
    Nat.mul_le_mul (by omega) (by omega)
  have hmul : (f.hsize.setWidth 32 * f.dim.height.setWidth 32).toNat
      = f.hsize.toNat * f.dim.height.toNat := by
    rw [BitVec.toNat_mul, BitVec.toNat_setWidth, BitVec.toNat_setWidth,
      Nat.mod_eq_of_lt (show f.hsize.toNat < 2^32 by omega),
      Nat.mod_eq_of_lt (show f.dim.height.toNat < 2^32 by omega), Nat.mod_eq_of_lt (by omega)]
  unfold getFrmSize
  rw [BitVec.toNat_signExtend, BitVec.toNat_setWidth, BitVec.msb_eq_decide, hmul,
    Nat.mod_eq_of_lt (show f.hsize.toNat * f.dim.height.toNat < 2^64 by omega)]
  simp only [decide_eq_true_eq]

end FrameFormat

end Udmaio
