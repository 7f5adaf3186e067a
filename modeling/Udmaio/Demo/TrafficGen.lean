import Mathlib.Data.Int.Order.Basic
import Mathlib.Logic.Relation
import Udmaio.Py.Device

/-!
# The traffic generator of the demos

The C++ demo (`UioTrafficGen`) and the Python demo (`TrafficGen.py`) drive the same core.  The C++
class keeps nothing but the device; the Python class keeps a cache of each register, in which a
rejected value stays.

* `UioTrafficGen.start`, `stop`   the C++ methods, on registers as bit-fields;
* `TrafficGen.start`, `stop`      the Python methods, on `UioReg`s;
* `Checked`                       an abstract generator: the device, and whether a value was
                                  rejected for good;
* `exec_sim`                      the Python class simulates it, on any device and for any
                                  arguments;
* `exec_agrees`                  **the two classes do the same**, as long as the arguments fit;
* `start_returns_iff`             **when the Python method returns**: a packet count or pause that
                                  does not fit makes all later calls fail, a packet size does not.
-/

namespace Udmaio
open Lib

/-! ## the C++ class -/

namespace UioTrafficGen

def stControl : BitVec 32 := 0x30
def stConfig : BitVec 32 := 0x34
def trLength : BitVec 32 := 0x38
def extTrLength : BitVec 32 := 0x50

-- `StControl`
abbrev stren : BitField := ⟨0, 1⟩
abbrev done : BitField := ⟨1, 1⟩
abbrev version : BitField := ⟨24, 8⟩

-- `StConfig`
abbrev ranlen : BitField := ⟨0, 1⟩
abbrev randly : BitField := ⟨1, 1⟩
abbrev etkts : BitField := ⟨2, 1⟩
abbrev rsvd7_3 : BitField := ⟨3, 5⟩
abbrev tdest : BitField := ⟨8, 8⟩
abbrev pdly : BitField := ⟨16, 16⟩

-- `TrLength` and `ExtTrLength`
abbrev tlen : BitField := ⟨0, 16⟩
abbrev tcnt : BitField := ⟨16, 16⟩
abbrev extTlen : BitField := ⟨0, 8⟩

def stConfigWord (pktPause : BitVec 16) : BitVec 32 :=
  pdly.set pktPause <| tdest.set 0 <| rsvd7_3.set 0 <| etkts.set 0 <| randly.set 0 <| ranlen.set 0 0

def trLengthWord (numBeatsReg : BitVec 32) (nrPkts : BitVec 16) : BitVec 32 :=
  tcnt.set nrPkts <| tlen.set ((numBeatsReg &&& 0xffff).setWidth 16) 0

/-- the field takes the low bits of the value -/
def extTrLengthWord (numBeatsReg : BitVec 32) : BitVec 32 :=
  extTlen.set ((numBeatsReg >>> 16).setWidth 8) 0

variable {σ : Type} (bus : RegBus σ)

def stop : Prog σ Unit := do
  let stCtrl ← bus.rd32 stControl
  let stCtrl := stren.set 0 stCtrl
  -- W1C – Write 1 to Clear
  let stCtrl := if done.get stCtrl ≠ 0 then done.set 1 stCtrl else stCtrl
  bus.wr32 stControl stCtrl

def start (nrPkts : BitVec 16) (pktSize : BitVec 32) (pktPause : BitVec 16) : Prog σ Unit := do
  stop bus
  bus.wr32 stConfig (stConfigWord pktPause)
  let numBeatsReg := pktSize - 1
  bus.wr32 trLength (trLengthWord numBeatsReg nrPkts)
  bus.wr32 extTrLength (extTrLengthWord numBeatsReg)
  let stCtrl ← bus.rd32 stControl
  bus.wr32 stControl (stren.set 1 (done.set 0 stCtrl))

/-- the version that `print_version` logs -/
def printVersion : Prog σ (BitVec 8) := do
  let stCtrl ← bus.rd32 stControl
  return version.get stCtrl

end UioTrafficGen

/-! ## the Python class -/

namespace TrafficGen

inductive Reg where
  | stControl | stConfig | txLength | exTxLength
deriving DecidableEq, Repr

def fields : Reg → BitLayout
  | .stControl => [("Version", 8), ("Reserved", 22), ("Done", 1), ("STREN", 1)]
  | .stConfig => [("PDLY", 16), ("TDEST", 8), ("Reserved", 5), ("ETKTS", 1), ("RANDLY", 1),
      ("RANLEN", 1)]
  | .txLength => [("TCNT", 16), ("TLEN", 16)]
  | .exTxLength => [("Reserved", 24), ("Ext_TLEN", 8)]

def offs : Reg → BitVec 32
  | .stControl => 0x30
  | .stConfig => 0x34
  | .txLength => 0x38
  | .exTxLength => 0x50

/-- what `bitstruct` makes of the layouts is left open -/
def py (bs : ∀ reg, LayoutStruct Empty (fields reg)) : PyIf Reg Empty where
  offs := offs
  fields := fields
  size_eq reg := by cases reg <;> rfl
  bs := bs

/-- the objects of this class hold ints -/
abbrev M (σ α : Type) := Prog ((Reg → UioReg Empty) × σ) α

def isTrue : PyVal Empty → Bool
  | .int i => i ≠ 0

variable (bs : ∀ reg, LayoutStruct Empty (fields reg)) {σ : Type} (bus : RegBus σ)

def stop : M σ Unit := do
  let _ ← (py bs).rd bus .stControl
  (py bs).setField .stControl "STREN" 0
  let done ← PyIf.getField .stControl "Done"
  -- W1C – Write 1 to Clear
  (if isTrue done then (py bs).setField .stControl "Done" 1 else pure ())
  (py bs).wr bus .stControl

def start (nrPkts pktSize pktPause : Int) : M σ Unit := do
  stop bs bus
  (py bs).setField .stConfig "RANLEN" 0
  (py bs).setField .stConfig "RANDLY" 0
  (py bs).setField .stConfig "ETKTS" 0
  (py bs).setField .stConfig "TDEST" 0
  (py bs).setField .stConfig "PDLY" pktPause
  (py bs).wr bus .stConfig
  let numBeatsReg := pktSize - 1
  -- `& 0xffff` of an `int`, which may be negative
  (py bs).setField .txLength "TLEN" (numBeatsReg % 0x10000)
  (py bs).setField .txLength "TCNT" nrPkts
  (py bs).wr bus .txLength
  (py bs).setField .exTxLength "Ext_TLEN" (numBeatsReg >>> (16 : Nat))
  (py bs).wr bus .exTxLength
  let _ ← (py bs).rd bus .stControl
  (py bs).setField .stControl "Done" 0
  (py bs).setField .stControl "STREN" 1
  (py bs).wr bus .stControl

def version : M σ (PyVal Empty) := do
  let _ ← (py bs).rd bus .stControl
  PyIf.getField .stControl "Version"

end TrafficGen

/-! ## the abstract generator -/

/-- the device, and for the registers `StConfig` and `TxLength` whether a value has been rejected -/
structure Checked (σ : Type) where
  badConfig : Bool
  badLength : Bool
  device : σ

namespace Checked
variable {σ α : Type} (bus : RegBus σ)

def onDevice (x : Prog σ α) : Prog (Checked σ) α :=
  onPart device (fun st s => { st with device := s }) x

theorem onDevice_ok {x : Prog σ α} {st : Checked σ} {a : α} {s : σ} (h : x st.device = .ok a s) :
    onDevice x st = .ok a { st with device := s } := onPart_ok h

theorem onDevice_error {x : Prog σ α} {st : Checked σ} {e : Stop} {s : σ}
    (h : x st.device = .error e s) :
    onDevice x st = .error e { st with device := s } := onPart_error h

theorem onDevice_bind {β : Type} (x : Prog σ α) (f : α → Prog σ β) :
    onDevice (x >>= f) = onDevice x >>= fun a => onDevice (f a) := by
  refine onPart_bind ?_ ?_ x f
  · intro st s
    rfl
  · intro st s s'
    rfl

def checkConfig (pktPause : Int) : Prog (Checked σ) Unit := fun st =>
  if st.badConfig = false ∧ BitLayout.InBits 16 pktPause then .ok () st
  else .error (.exception "bitstruct.Error") { st with badConfig := true }

def checkLength (nrPkts : Int) : Prog (Checked σ) Unit := fun st =>
  if st.badLength = false ∧ BitLayout.InBits 16 nrPkts then .ok () st
  else .error (.exception "bitstruct.Error") { st with badLength := true }

def checkSize (pktSize : Int) : Prog (Checked σ) Unit := fun st =>
  if 1 ≤ pktSize ∧ pktSize ≤ 2^24 then .ok () st else .error (.exception "bitstruct.Error") st

open UioTrafficGen in
/-- `start` of the C++ class with a check before each register -/
def start (nrPkts pktSize pktPause : Int) : Prog (Checked σ) Unit := do
  onDevice (stop bus)
  checkConfig pktPause
  onDevice (bus.wr32 stConfig (stConfigWord (BitVec.ofInt 16 pktPause)))
  let numBeatsReg := BitVec.ofInt 32 pktSize - 1
  checkLength nrPkts
  onDevice (bus.wr32 trLength (trLengthWord numBeatsReg (BitVec.ofInt 16 nrPkts)))
  checkSize pktSize
  onDevice (bus.wr32 extTrLength (extTrLengthWord numBeatsReg))
  let stCtrl ← onDevice (bus.rd32 stControl)
  onDevice (bus.wr32 stControl (stren.set 1 (done.set 0 stCtrl)))

end Checked

namespace TrafficGen
variable {bs : ∀ reg, LayoutStruct Empty (fields reg)} {σ : Type} {bus : RegBus σ}

/-! ## the fields -/

theorem field_stren : (fields .stControl).field "STREN" = some UioTrafficGen.stren := rfl
theorem field_done : (fields .stControl).field "Done" = some UioTrafficGen.done := rfl
theorem field_version : (fields .stControl).field "Version" = some UioTrafficGen.version := rfl
theorem field_ranlen : (fields .stConfig).field "RANLEN" = some UioTrafficGen.ranlen := rfl
theorem field_randly : (fields .stConfig).field "RANDLY" = some UioTrafficGen.randly := rfl
theorem field_etkts : (fields .stConfig).field "ETKTS" = some UioTrafficGen.etkts := rfl
theorem field_tdest : (fields .stConfig).field "TDEST" = some UioTrafficGen.tdest := rfl
theorem field_pdly : (fields .stConfig).field "PDLY" = some UioTrafficGen.pdly := rfl
theorem field_tlen : (fields .txLength).field "TLEN" = some UioTrafficGen.tlen := rfl
theorem field_tcnt : (fields .txLength).field "TCNT" = some UioTrafficGen.tcnt := rfl
theorem field_extTlen : (fields .exTxLength).field "Ext_TLEN" = some UioTrafficGen.extTlen := rfl

/-- a cache next to the abstract generator -/
def CacheOk (bs : ∀ reg, LayoutStruct Empty (fields reg)) (badConfig badLength : Bool) :
    Reg → UioReg Empty → Prop
  | .stControl, r => ∃ w, r = UioReg.ofWord (bs .stControl) w
  | .stConfig, r =>
    if badConfig then UioReg.Stuck (bs .stConfig) "PDLY" r
    else ∃ w, r = UioReg.ofWord (bs .stConfig) w ∧ UioTrafficGen.rsvd7_3.get w = 0
  | .txLength, r =>
    if badLength then UioReg.Stuck (bs .txLength) "TCNT" r
    else ∃ w, r = UioReg.ofWord (bs .txLength) w
  | .exTxLength, r => ∃ w, UioReg.Stale (bs .exTxLength) "Ext_TLEN" w r ∧
      (BitField.mk 8 24).get w = 0

/-- the Python object next to the abstract generator -/
def Refines (bs : ∀ reg, LayoutStruct Empty (fields reg)) (st : (Reg → UioReg Empty) × σ)
    (t : Checked σ) : Prop :=
  (∀ reg, CacheOk bs t.badConfig t.badLength reg (st.1 reg)) ∧ st.2 = t.device

theorem refines_init (s : σ) : Refines bs ((py bs).init, s) ⟨false, false, s⟩ := by
  refine ⟨fun reg => ?_, rfl⟩
  rw [(py bs).init_eq_holding]
  cases reg with
  | stControl => exact ⟨0, rfl⟩
  | stConfig => exact ⟨0, rfl, rfl⟩
  | txLength => exact ⟨0, rfl⟩
  | exTxLength => exact ⟨0, UioReg.stale_ofWord field_extTlen 0, rfl⟩

/-! ## the words -/

/-- a field that is zero is zero bit by bit -/
theorem getLsbD_of_get_eq_zero {f : BitField} {w : BitVec 32} (h : f.get w = 0) {i : Nat}
    (hlo : f.lo ≤ i) (hhi : i < f.lo + f.len) : w.getLsbD i = false := by
  have hbit : (f.get w).getLsbD (i - f.lo) = false := by
    rw [h]
    exact BitVec.getLsbD_zero
  rw [BitField.get, BitVec.getLsbD_extractLsb', Nat.add_sub_cancel' hlo] at hbit
  simpa [show i - f.lo < f.len by omega] using hbit

open UioTrafficGen in
/-- the assignments of `start` to `StConfig` cover all but the reserved field -/
theorem stConfigWord_eq {w : BitVec 32} (h : rsvd7_3.get w = 0) (pktPause : BitVec 16) :
    (pdly.set pktPause <| tdest.set 0 <| etkts.set 0 <| randly.set 0 <| ranlen.set 0 w)
      = stConfigWord pktPause := by
  apply BitVec.eq_of_getLsbD_eq
  intro i hi
  have hrsvd : 3 ≤ i → i < 8 → w.getLsbD i = false := getLsbD_of_get_eq_zero h
  unfold stConfigWord
  simp only [BitField.getLsbD_set _ _ _ hi]
  grind

open UioTrafficGen in
theorem rsvd_stConfigWord (pktPause : BitVec 16) : rsvd7_3.get (stConfigWord pktPause) = 0 := by
  unfold stConfigWord
  rw [rsvd7_3.get_set_of_disjoint pdly _ _ (by decide) (by decide),
    rsvd7_3.get_set_of_disjoint tdest _ _ (by decide) (by decide), rsvd7_3.get_set _ _ (by decide)]

open UioTrafficGen in
theorem trLengthWord_eq (w numBeatsReg : BitVec 32) (nrPkts : BitVec 16) :
    (tcnt.set nrPkts <| tlen.set ((numBeatsReg &&& 0xffff).setWidth 16) w)
      = trLengthWord numBeatsReg nrPkts := by
  apply BitVec.eq_of_getLsbD_eq
  intro i hi
  unfold trLengthWord
  simp only [BitField.getLsbD_set _ _ _ hi]
  grind

open UioTrafficGen in
theorem extTrLengthWord_eq {w : BitVec 32} (h : (BitField.mk 8 24).get w = 0)
    (numBeatsReg : BitVec 32) :
    extTlen.set ((numBeatsReg >>> 16).setWidth 8) w = extTrLengthWord numBeatsReg := by
  apply BitVec.eq_of_getLsbD_eq
  intro i hi
  have hrsvd : 8 ≤ i → i < 32 → w.getLsbD i = false := getLsbD_of_get_eq_zero h
  unfold extTrLengthWord
  simp only [BitField.getLsbD_set _ _ _ hi]
  grind

theorem toNat_numBeats (pktSize : Int) :
    ((BitVec.ofInt 32 pktSize - 1).toNat : Int) = (pktSize - 1) % 2^32 := by
  rw [BitVec.toNat_sub, BitVec.toNat_ofInt]
  show (((2^32 - 1 + (pktSize % 2^32).toNat) % 2^32 : Nat) : Int) = _
  omega

/-- the low half of the size, as the two languages compute it -/
theorem ofInt_tlen (pktSize : Int) : BitVec.ofInt 16 ((pktSize - 1) % 0x10000)
    = ((BitVec.ofInt 32 pktSize - 1) &&& 0xffff).setWidth 16 := by
  have hn := toNat_numBeats pktSize
  apply BitVec.eq_of_toNat_eq
  rw [BitVec.toNat_ofInt, BitVec.toNat_setWidth, BitVec.toNat_and]
  show _ = ((BitVec.ofInt 32 pktSize - 1).toNat &&& (2^16 - 1)) % 2^16
  rw [Nat.and_two_pow_sub_one_eq_mod]
  omega

theorem ofInt_extTlen (pktSize : Int) : BitVec.ofInt 8 ((pktSize - 1) >>> (16 : Nat))
    = ((BitVec.ofInt 32 pktSize - 1) >>> 16).setWidth 8 := by
  have hn := toNat_numBeats pktSize
  apply BitVec.eq_of_toNat_eq
  rw [BitVec.toNat_ofInt, BitVec.toNat_setWidth, BitVec.toNat_ushiftRight,
    Nat.shiftRight_eq_div_pow, Int.shiftRight_eq_div_pow]
  omega

theorem inBits_tlen (pktSize : Int) : BitLayout.InBits 16 ((pktSize - 1) % 0x10000) := by
  constructor <;> omega

theorem inBits_extTlen_iff (pktSize : Int) :
    BitLayout.InBits 8 ((pktSize - 1) >>> (16 : Nat)) ↔ 1 ≤ pktSize ∧ pktSize ≤ 2^24 := by
  rw [BitLayout.InBits, Int.shiftRight_eq_div_pow]
  omega

open UioTrafficGen in
theorem rsvd_extTrLengthWord (numBeatsReg : BitVec 32) :
    (BitField.mk 8 24).get (extTrLengthWord numBeatsReg) = 0 := by
  unfold extTrLengthWord
  rw [(BitField.mk 8 24).get_set_of_disjoint extTlen _ _ (by decide) (by decide)]
  rfl

/-! ## one access -/

section
variable {α : Type} {Q : α → Prop} {regs : Reg → UioReg Empty} {s : σ} {t : Checked σ} {reg : Reg}

theorem Refines.update {badConfig badLength : Bool} {r : UioReg Empty} {s' : σ}
    (h : Refines bs (regs, s) t) (hr : CacheOk bs badConfig badLength reg r)
    (hothers : ∀ k ≠ reg, CacheOk bs t.badConfig t.badLength k (regs k) →
      CacheOk bs badConfig badLength k (regs k)) :
    Refines bs (Function.update regs reg r, s') ⟨badConfig, badLength, s'⟩ := by
  refine ⟨fun k => ?_, rfl⟩
  show CacheOk bs badConfig badLength k (Function.update regs reg r k)
  by_cases e : k = reg
  · subst e
    rwa [Function.update_self]
  · rw [Function.update_of_ne e]
    exact hothers k e (h.1 k)

/-- a value of `StConfig` is rejected -/
theorem Refines.reject_config {r : UioReg Empty} (h : Refines bs (regs, s) t)
    (hr : UioReg.Stuck (bs .stConfig) "PDLY" r) :
    Refines bs (Function.update regs .stConfig r, s) { t with badConfig := true } := by
  obtain ⟨hcache, rfl⟩ := h
  refine Refines.update ⟨hcache, rfl⟩ hr fun k hne hk => ?_
  cases k with
  | stConfig => exact absurd rfl hne
  | stControl => exact hk
  | txLength => exact hk
  | exTxLength => exact hk

theorem Refines.reject_length {r : UioReg Empty} (h : Refines bs (regs, s) t)
    (hr : UioReg.Stuck (bs .txLength) "TCNT" r) :
    Refines bs (Function.update regs .txLength r, s) { t with badLength := true } := by
  obtain ⟨hcache, rfl⟩ := h
  refine Refines.update ⟨hcache, rfl⟩ hr fun k hne hk => ?_
  cases k with
  | txLength => exact absurd rfl hne
  | stControl => exact hk
  | stConfig => exact hk
  | exTxLength => exact hk

theorem same_wr {w : BitVec 32} (h : Refines bs (regs, s) t) (hval : (regs reg).val = w.toNat) :
    Same (Refines bs) (fun _ => True) ((py bs).wr bus reg (regs, s))
      (Checked.onDevice (bus.wr32 ((py bs).offs reg) w) t) := by
  obtain ⟨hcache, rfl⟩ := h
  rw [(py bs).wr_eq, hval, BitVec.ofNat_toNat, BitVec.setWidth_eq]
  cases hw : bus.wr32 ((py bs).offs reg) w t.device with
  | ok a s' =>
    rw [PyIf.onBus_ok hw, Checked.onDevice_ok hw]
    exact .ok trivial ⟨hcache, rfl⟩
  | error e s' =>
    rw [PyIf.onBus_error hw, Checked.onDevice_error hw]
    exact .error ⟨hcache, rfl⟩

/-- reading a register, and going on with the word in its cache -/
theorem same_rd_bind {k : BitVec 32 → M σ α} {k' : BitVec 32 → Prog (Checked σ) α}
    (h : Refines bs (regs, s) t)
    (hk : ∀ w s', Same (Refines bs) Q
      (k w (Function.update regs reg (UioReg.ofWord (bs reg) w), s'))
        (k' w { t with device := s' })) :
    Same (Refines bs) Q (((py bs).rd bus reg >>= k) (regs, s))
      ((Checked.onDevice (bus.rd32 ((py bs).offs reg)) >>= k') t) := by
  obtain ⟨hcache, rfl⟩ := h
  cases hr : bus.rd32 ((py bs).offs reg) t.device with
  | ok w s' =>
    rw [bind_ok ((py bs).rd_ok hr), bind_ok (Checked.onDevice_ok hr)]
    exact hk w s'
  | error e s' =>
    rw [bind_error ((py bs).rd_error hr), bind_error (Checked.onDevice_error hr)]
    exact .error ⟨hcache, rfl⟩

/-- writing what a register holds -/
theorem same_wr_word {w : BitVec 32} {s' : σ} (h : Refines bs (regs, s) t)
    (hr : CacheOk bs t.badConfig t.badLength reg (UioReg.ofWord (bs reg) w)) :
    Same (Refines bs) (fun _ => True)
      ((py bs).wr bus reg (Function.update regs reg (UioReg.ofWord (bs reg) w), s'))
        (Checked.onDevice (bus.wr32 ((py bs).offs reg) w) { t with device := s' }) := by
  refine same_wr (h.update hr fun _ _ hk => hk) ?_
  rw [Function.update_self, UioReg.val_ofWord]

theorem same_wr_held {w : BitVec 32} (h : Refines bs (regs, s) t)
    (hr : CacheOk bs t.badConfig t.badLength reg (UioReg.ofWord (bs reg) w)) :
    Same (Refines bs) (fun _ => True)
      ((py bs).wr bus reg (Function.update regs reg (UioReg.ofWord (bs reg) w), s))
        (Checked.onDevice (bus.wr32 ((py bs).offs reg) w) t) := by
  obtain ⟨hcache, rfl⟩ := h
  exact same_wr_word ⟨hcache, rfl⟩ hr

end

/-! ## the methods -/

/-- an assignment to a register whose cache holds a word -/
theorem setField_word {regs : Reg → UioReg Empty} {s : σ} {reg : Reg} {name : String} {f : BitField}
    {v : Int} {u : BitVec f.len} (hf : (fields reg).field name = some f)
    (hv : BitLayout.InBits f.len v) (hu : BitVec.ofInt f.len v = u) (w : BitVec 32) :
    (py bs).setField reg name v (Function.update regs reg (UioReg.ofWord (bs reg) w), s)
      = .ok () (Function.update regs reg (UioReg.ofWord (bs reg) (f.set u w)), s) := by
  rw [← hu]
  exact (py bs).setField_update hf hv

theorem setField_word_error (regs : Reg → UioReg Empty) (s : σ) {reg : Reg} {name : String}
    {f : BitField} {v : Int} (hf : (fields reg).field name = some f)
    (hv : ¬BitLayout.InBits f.len v) (w : BitVec 32) :
    ∃ r, (py bs).setField reg name v (Function.update regs reg (UioReg.ofWord (bs reg) w), s)
        = .error (.exception "bitstruct.Error") (Function.update regs reg r, s) ∧
      UioReg.Stale (bs reg) name w r ∧ UioReg.Stuck (bs reg) name r := by
  have hstale : UioReg.Stale (bs reg) name w
      (Function.update regs reg (UioReg.ofWord (bs reg) w) reg) := by
    rw [Function.update_self]
    exact UioReg.stale_ofWord hf w
  obtain ⟨r, he, hr, hr'⟩ := (py bs).setField_error (s := s) hf hstale hv
  rw [Function.update_idem] at he
  exact ⟨r, he, hr, hr'⟩

theorem isTrue_toNat {n : Nat} (u : BitVec n) : isTrue (.int u.toNat) = true ↔ u ≠ 0 := by
  simp [isTrue, BitVec.toNat_eq]

theorem inBits_zero (n : Nat) : BitLayout.InBits n 0 := ⟨Int.le_refl 0, Int.pow_pos (by decide)⟩

theorem inBits_one : BitLayout.InBits 1 1 := by decide

open UioTrafficGen in
theorem stop_sim : Sim (Refines bs) (fun _ => True) (stop bs bus)
    (Checked.onDevice (UioTrafficGen.stop bus)) := by
  intro st t h
  obtain ⟨regs, s⟩ := st
  unfold stop UioTrafficGen.stop
  rw [Checked.onDevice_bind]
  refine same_rd_bind h fun w s' => ?_
  have hget : PyIf.getField .stControl "Done"
      (Function.update regs .stControl (UioReg.ofWord (bs .stControl) (stren.set 0 w)), s')
      = .ok (.int (done.get (stren.set 0 w)).toNat : PyVal Empty)
        (Function.update regs .stControl (UioReg.ofWord (bs .stControl) (stren.set 0 w)), s') :=
    (py bs).getField_ok field_done (Function.update_self _ _ _)
  rw [bind_ok (setField_word (u := 0) field_stren (inBits_zero 1) rfl w), bind_ok hget]
  dsimp only
  by_cases hd : done.get (stren.set 0 w) = 0
  · rw [if_neg ((isTrue_toNat _).not.mpr (not_not_intro hd)), if_neg (not_not_intro hd)]
    exact same_wr_word h ⟨_, rfl⟩
  · rw [if_pos ((isTrue_toNat _).mpr hd), if_pos hd,
      bind_ok (setField_word (u := 1) field_done inBits_one rfl (stren.set 0 w))]
    exact same_wr_word h ⟨_, rfl⟩

section
variable {α : Type} {Q : α → Prop} {k : M σ α} {k' : Prog (Checked σ) α}

theorem checkConfig_ok {t : Checked σ} {pktPause : Int} (hb : t.badConfig = false)
    (hp : BitLayout.InBits 16 pktPause) : Checked.checkConfig pktPause t = .ok () t :=
  if_pos ⟨hb, hp⟩

theorem checkConfig_error {t : Checked σ} {pktPause : Int}
    (h : ¬(t.badConfig = false ∧ BitLayout.InBits 16 pktPause)) : Checked.checkConfig pktPause t
      = .error (.exception "bitstruct.Error") { t with badConfig := true } := if_neg h

/-- the part of `start` for `StConfig` -/
theorem config_sim (pktPause : Int) (hk : Sim (Refines bs) Q k k') :
    Sim (Refines bs) Q
      (do
        (py bs).setField .stConfig "RANLEN" 0
        (py bs).setField .stConfig "RANDLY" 0
        (py bs).setField .stConfig "ETKTS" 0
        (py bs).setField .stConfig "TDEST" 0
        (py bs).setField .stConfig "PDLY" pktPause
        (py bs).wr bus .stConfig
        k)
      (do
        Checked.checkConfig pktPause
        Checked.onDevice (bus.wr32 UioTrafficGen.stConfig
          (UioTrafficGen.stConfigWord (BitVec.ofInt 16 pktPause)))
        k') := by
  intro st t h
  obtain ⟨regs, s⟩ := st
  have hcache := h.1 .stConfig
  cases hb : t.badConfig with
  | true =>
    -- the first assignment raises
    rw [hb] at hcache
    obtain ⟨r, he, hr⟩ : ∃ r, (py bs).setField .stConfig "RANLEN" 0 (regs, s)
        = .error (.exception "bitstruct.Error") (Function.update regs .stConfig r, s) ∧
        UioReg.Stuck (bs .stConfig) "PDLY" r :=
      (py bs).setField_blocked hcache (by decide) (show _ ∈ (fields .stConfig).names by decide) 0
    rw [bind_error he, bind_error
      (checkConfig_error fun hc => Bool.false_ne_true (hc.1.symm.trans hb))]
    exact .error (h.reject_config hr)
  | false =>
    rw [hb] at hcache
    obtain ⟨w, hw, hrsvd⟩ := hcache
    have hword : regs = Function.update regs .stConfig (UioReg.ofWord (bs .stConfig) w) := by
      rw [← hw, Function.update_eq_self]
    rw [hword, bind_ok (setField_word (u := 0) field_ranlen (inBits_zero 1) rfl w),
      bind_ok (setField_word (u := 0) field_randly (inBits_zero 1) rfl _),
      bind_ok (setField_word (u := 0) field_etkts (inBits_zero 1) rfl _),
      bind_ok (setField_word (u := 0) field_tdest (inBits_zero 8) rfl _)]
    by_cases hp : BitLayout.InBits 16 pktPause
    · rw [bind_ok (setField_word (u := BitVec.ofInt 16 pktPause) field_pdly hp rfl _),
        stConfigWord_eq hrsvd, bind_ok (checkConfig_ok hb hp)]
      refine Same.bind (same_wr_held h ?_) fun _ _ => hk
      rw [hb]
      exact ⟨_, rfl, rsvd_stConfigWord _⟩
    · -- the last assignment raises
      obtain ⟨r, he, -, hr⟩ := setField_word_error regs s field_pdly hp
        (UioTrafficGen.tdest.set 0 <| UioTrafficGen.etkts.set 0 <| UioTrafficGen.randly.set 0 <|
          UioTrafficGen.ranlen.set 0 w)
      rw [bind_error he, bind_error (checkConfig_error fun hc => hp hc.2)]
      exact .error (h.reject_config hr)

theorem checkLength_ok {t : Checked σ} {nrPkts : Int} (hb : t.badLength = false)
    (hp : BitLayout.InBits 16 nrPkts) : Checked.checkLength nrPkts t = .ok () t := if_pos ⟨hb, hp⟩

theorem checkLength_error {t : Checked σ} {nrPkts : Int}
    (h : ¬(t.badLength = false ∧ BitLayout.InBits 16 nrPkts)) : Checked.checkLength nrPkts t
      = .error (.exception "bitstruct.Error") { t with badLength := true } := if_neg h

/-- the part of `start` for `TxLength` -/
theorem length_sim (nrPkts pktSize : Int) (hk : Sim (Refines bs) Q k k') :
    Sim (Refines bs) Q
      (do
        (py bs).setField .txLength "TLEN" ((pktSize - 1) % 0x10000)
        (py bs).setField .txLength "TCNT" nrPkts
        (py bs).wr bus .txLength
        k)
      (do
        Checked.checkLength nrPkts
        Checked.onDevice (bus.wr32 UioTrafficGen.trLength
          (UioTrafficGen.trLengthWord (BitVec.ofInt 32 pktSize - 1) (BitVec.ofInt 16 nrPkts)))
        k') := by
  intro st t h
  obtain ⟨regs, s⟩ := st
  have hcache := h.1 .txLength
  cases hb : t.badLength with
  | true =>
    rw [hb] at hcache
    obtain ⟨r, he, hr⟩ : ∃ r, (py bs).setField .txLength "TLEN" ((pktSize - 1) % 0x10000) (regs, s)
        = .error (.exception "bitstruct.Error") (Function.update regs .txLength r, s) ∧
        UioReg.Stuck (bs .txLength) "TCNT" r :=
      (py bs).setField_blocked hcache (by decide) (show _ ∈ (fields .txLength).names by decide) _
    rw [bind_error he, bind_error
      (checkLength_error fun hc => Bool.false_ne_true (hc.1.symm.trans hb))]
    exact .error (h.reject_length hr)
  | false =>
    rw [hb] at hcache
    obtain ⟨w, hw⟩ := hcache
    have hword : regs = Function.update regs .txLength (UioReg.ofWord (bs .txLength) w) := by
      rw [← hw, Function.update_eq_self]
    rw [hword, bind_ok (setField_word field_tlen (inBits_tlen pktSize) (ofInt_tlen pktSize) w)]
    by_cases hp : BitLayout.InBits 16 nrPkts
    · rw [bind_ok (setField_word (u := BitVec.ofInt 16 nrPkts) field_tcnt hp rfl _),
        trLengthWord_eq, bind_ok (checkLength_ok hb hp)]
      refine Same.bind (same_wr_held h ?_) fun _ _ => hk
      rw [hb]
      exact ⟨_, rfl⟩
    · obtain ⟨r, he, -, hr⟩ := setField_word_error regs s field_tcnt hp
        (UioTrafficGen.tlen.set (((BitVec.ofInt 32 pktSize - 1) &&& 0xffff).setWidth 16) w)
      rw [bind_error he, bind_error (checkLength_error fun hc => hp hc.2)]
      exact .error (h.reject_length hr)

theorem checkSize_ok {t : Checked σ} {pktSize : Int} (h : 1 ≤ pktSize ∧ pktSize ≤ 2^24) :
    Checked.checkSize pktSize t = .ok () t := if_pos h

theorem checkSize_error {t : Checked σ} {pktSize : Int} (h : ¬(1 ≤ pktSize ∧ pktSize ≤ 2^24)) :
    Checked.checkSize pktSize t = .error (.exception "bitstruct.Error") t := if_neg h

/-- the part of `start` for `ExTxLength`: the only field that is assigned takes the rejected
value -/
theorem extLength_sim (pktSize : Int) (hk : Sim (Refines bs) Q k k') :
    Sim (Refines bs) Q
      (do
        (py bs).setField .exTxLength "Ext_TLEN" ((pktSize - 1) >>> (16 : Nat))
        (py bs).wr bus .exTxLength
        k)
      (do
        Checked.checkSize pktSize
        Checked.onDevice (bus.wr32 UioTrafficGen.extTrLength
          (UioTrafficGen.extTrLengthWord (BitVec.ofInt 32 pktSize - 1)))
        k') := by
  intro st t h
  obtain ⟨regs, s⟩ := st
  obtain ⟨w, hstale, hrsvd⟩ := h.1 .exTxLength
  have hf : ((py bs).fields .exTxLength).field "Ext_TLEN" = some UioTrafficGen.extTlen :=
    field_extTlen
  by_cases hp : 1 ≤ pktSize ∧ pktSize ≤ 2^24
  · have hset : (py bs).setField .exTxLength "Ext_TLEN" ((pktSize - 1) >>> (16 : Nat)) (regs, s)
        = .ok () (Function.update regs .exTxLength (UioReg.ofWord (bs .exTxLength)
          (UioTrafficGen.extTrLengthWord (BitVec.ofInt 32 pktSize - 1))), s) := by
      rw [← extTrLengthWord_eq hrsvd, ← ofInt_extTlen]
      exact (py bs).setField_ok hf hstale ((inBits_extTlen_iff pktSize).mpr hp)
    rw [bind_ok hset, bind_ok (checkSize_ok hp)]
    refine Same.bind (same_wr_held h ?_) fun _ _ => hk
    exact ⟨_, UioReg.stale_ofWord field_extTlen _, rsvd_extTrLengthWord _⟩
  · have hnot : ¬BitLayout.InBits 8 ((pktSize - 1) >>> (16 : Nat)) :=
      (inBits_extTlen_iff pktSize).not.mpr hp
    obtain ⟨r, he, hr⟩ : ∃ r, (py bs).setField .exTxLength "Ext_TLEN" ((pktSize - 1) >>> (16 : Nat))
      (regs, s)
        = .error (.exception "bitstruct.Error") (Function.update regs .exTxLength r, s) ∧
        UioReg.Stale (bs .exTxLength) "Ext_TLEN" w r := by
      obtain ⟨r, he, hr, -⟩ := (py bs).setField_error (s := s) hf hstale hnot
      exact ⟨r, he, hr⟩
    rw [bind_error he, bind_error (checkSize_error hp)]
    obtain ⟨hcache, rfl⟩ := h
    exact .error (Refines.update ⟨hcache, rfl⟩ ⟨w, hr, hrsvd⟩ fun _ _ hk => hk)

end

open UioTrafficGen in
/-- **`start` of the Python class** is `start` of the abstract generator, on any device. -/
theorem start_sim (nrPkts pktSize pktPause : Int) :
    Sim (Refines bs) (fun _ => True) (TrafficGen.start bs bus nrPkts pktSize pktPause)
      (Checked.start bus nrPkts pktSize pktPause) := by
  refine Sim.bind stop_sim fun _ _ => config_sim pktPause <| length_sim nrPkts pktSize <|
    extLength_sim pktSize fun st t h => same_rd_bind h fun w s' => ?_
  rw [bind_ok (setField_word (u := 0) field_done (inBits_zero 1) rfl w),
    bind_ok (setField_word (u := 1) field_stren inBits_one rfl _)]
  exact same_wr_word h ⟨_, rfl⟩

theorem version_sim : Sim (Refines bs) (fun _ => True)
    (do return UioReg.intOf (← version bs bus)) (do
    let version ← Checked.onDevice (UioTrafficGen.printVersion bus)
    return some (version.toNat : Int)) := by
  intro st t h
  unfold version UioTrafficGen.printVersion
  rw [Checked.onDevice_bind, bind_assoc, bind_assoc]
  refine same_rd_bind h fun w s' => ?_
  have hget : PyIf.getField .stControl "Version"
      (Function.update st.1 .stControl (UioReg.ofWord (bs .stControl) w), s')
      = .ok (.int (UioTrafficGen.version.get w).toNat : PyVal Empty)
        (Function.update st.1 .stControl (UioReg.ofWord (bs .stControl) w), s') :=
    (py bs).getField_ok field_version (Function.update_self _ _ _)
  rw [bind_ok hget]
  exact .ok trivial (h.update ⟨w, rfl⟩ fun _ _ hk => hk)

/-! ## sessions -/

end TrafficGen

/-- what is called on the object -/
inductive TrafficGenCall where
  | start (nrPkts pktSize pktPause : Int)
  | stop
  | version
deriving DecidableEq, Repr

/-- packet count and pause fit into their fields -/
def TrafficGenCall.CountsFit : TrafficGenCall → Prop
  | .start nrPkts _ pktPause => BitLayout.InBits 16 nrPkts ∧ BitLayout.InBits 16 pktPause
  | _ => True

/-- so does the packet size -/
def TrafficGenCall.Fits : TrafficGenCall → Prop
  | .start nrPkts pktSize pktPause =>
    (BitLayout.InBits 16 nrPkts ∧ BitLayout.InBits 16 pktPause) ∧ 1 ≤ pktSize ∧ pktSize ≤ 2^24
  | _ => True

/-- the C++ object; the arguments are of unsigned types -/
def UioTrafficGen.exec {σ : Type} (bus : RegBus σ) : TrafficGenCall → Prog σ (Option Int)
  | .start nrPkts pktSize pktPause => do
    start bus (BitVec.ofInt 16 nrPkts) (BitVec.ofInt 32 pktSize) (BitVec.ofInt 16 pktPause)
    return none
  | .stop => do
    stop bus
    return none
  | .version => do return some ((← printVersion bus).toNat : Int)

def Checked.exec {σ : Type} (bus : RegBus σ) : TrafficGenCall → Prog (Checked σ) (Option Int)
  | .start nrPkts pktSize pktPause => do
    start bus nrPkts pktSize pktPause
    return none
  | .stop => do
    onDevice (UioTrafficGen.stop bus)
    return none
  | .version => do
    let version ← onDevice (UioTrafficGen.printVersion bus)
    return some (version.toNat : Int)

namespace TrafficGen
variable (bs : ∀ reg, LayoutStruct Empty (fields reg)) {σ : Type} (bus : RegBus σ)

/-- the Python object -/
def exec : TrafficGenCall → M σ (Option Int)
  | .start nrPkts pktSize pktPause => do
    start bs bus nrPkts pktSize pktPause
    return none
  | .stop => do
    stop bs bus
    return none
  | .version => do return UioReg.intOf (← version bs bus)

/-- a caller catches what a call raises -/
def step (st : (Reg → UioReg Empty) × σ) (call : TrafficGenCall) : (Reg → UioReg Empty) × σ :=
  final (exec bs bus call st)

/-- the object and its device after a session, from the constructor on -/
def session (s : σ) (calls : List TrafficGenCall) : (Reg → UioReg Empty) × σ :=
  run (step bs bus) ((py bs).init, s) calls

variable {bs bus}

/-- **The Python class simulates the abstract generator**, call by call. -/
theorem exec_sim (call : TrafficGenCall) :
    Sim (Refines bs) (fun _ => True) (exec bs bus call) (Checked.exec bus call) := by
  cases call with
  | start nrPkts pktSize pktPause =>
    exact Sim.bind (start_sim nrPkts pktSize pktPause) fun _ _ => Sim.pure trivial
  | stop => exact Sim.bind stop_sim fun _ _ => Sim.pure trivial
  | version => exact version_sim

end TrafficGen

namespace Checked
variable {σ : Type} {bus : RegBus σ}

def step (bus : RegBus σ) (t : Checked σ) (call : TrafficGenCall) : Checked σ :=
  final (exec bus call t)

/-- nothing has been rejected for good -/
def Clean (t : Checked σ) : Prop := t.badConfig = false ∧ t.badLength = false

/-- a session that rejects nothing for good stays so -/
def KeepsClean (t t' : Checked σ) : Prop := t.Clean → t'.Clean

instance : @Std.Refl (Checked σ) KeepsClean := ⟨fun _ h => h⟩

instance : IsTrans (Checked σ) KeepsClean := ⟨fun _ _ _ h h' ht => h' (h ht)⟩

theorem keepsClean_onDevice {α : Type} (x : Prog σ α) : Makes KeepsClean (onDevice x) := by
  intro t ht
  cases hx : x t.device with
  | ok a s =>
    rw [onDevice_ok hx]
    exact ht
  | error e s =>
    rw [onDevice_error hx]
    exact ht

theorem keepsClean_checkConfig {pktPause : Int} (h : BitLayout.InBits 16 pktPause) :
    Makes KeepsClean (checkConfig pktPause : Prog (Checked σ) Unit) := by
  intro t ht
  rw [checkConfig, if_pos ⟨ht.1, h⟩]
  exact ht

theorem keepsClean_checkLength {nrPkts : Int} (h : BitLayout.InBits 16 nrPkts) :
    Makes KeepsClean (checkLength nrPkts : Prog (Checked σ) Unit) := by
  intro t ht
  rw [checkLength, if_pos ⟨ht.2, h⟩]
  exact ht

theorem keepsClean_checkSize (pktSize : Int) :
    Makes KeepsClean (checkSize pktSize : Prog (Checked σ) Unit) := by
  intro t ht
  unfold checkSize
  split
  · exact ht
  · exact ht

theorem keepsClean_exec {call : TrafficGenCall} (h : call.CountsFit) :
    Makes KeepsClean (exec bus call) := by
  cases call with
  | stop => exact Makes.bind (keepsClean_onDevice _) fun _ => Makes.pure _
  | version => exact Makes.bind (keepsClean_onDevice _) fun _ => Makes.pure _
  | start nrPkts pktSize pktPause =>
    refine Makes.bind ?_ fun _ => Makes.pure _
    refine Makes.bind (keepsClean_onDevice _) fun _ => ?_
    refine Makes.bind (keepsClean_checkConfig h.2) fun _ =>
      Makes.bind (keepsClean_onDevice _) fun _ => ?_
    refine Makes.bind (keepsClean_checkLength h.1) fun _ =>
      Makes.bind (keepsClean_onDevice _) fun _ => ?_
    refine Makes.bind (keepsClean_checkSize _) fun _ =>
      Makes.bind (keepsClean_onDevice _) fun _ => ?_
    exact Makes.bind (keepsClean_onDevice _) fun _ => keepsClean_onDevice _

theorem clean_run {t : Checked σ} (ht : t.Clean) {calls : List TrafficGenCall}
    (h : ∀ call ∈ calls, call.CountsFit) : (run (step bus) t calls).Clean := by
  have hstep : ∀ (t : Checked σ) (call : TrafficGenCall),
      call.CountsFit → t.Clean → (step bus t call).Clean :=
    fun t _ hcall => keepsClean_exec hcall t
  exact run_inv hstep (Along.of_forall _ calls h t) ht

/-! ## a clean generator and arguments that fit -/

section
variable {α β : Type}

/-- a program on the device leaves the rest as it is -/
theorem onDevice_bind_congr {x : Prog σ α} {f g : α → Prog (Checked σ) β} {t : Checked σ}
    (h : ∀ a s, f a { t with device := s } = g a { t with device := s }) :
    (onDevice x >>= f) t = (onDevice x >>= g) t := by
  cases hx : x t.device with
  | ok a s => rw [bind_ok (onDevice_ok hx), bind_ok (onDevice_ok hx), h]
  | error e s => rw [bind_error (onDevice_error hx), bind_error (onDevice_error hx)]

end

theorem start_eq_onDevice {t : Checked σ} (ht : t.Clean) {nrPkts pktSize pktPause : Int}
    (hn : BitLayout.InBits 16 nrPkts) (hp : BitLayout.InBits 16 pktPause)
    (hs : 1 ≤ pktSize ∧ pktSize ≤ 2^24) :
    start bus nrPkts pktSize pktPause t = onDevice (UioTrafficGen.start bus (BitVec.ofInt 16 nrPkts)
      (BitVec.ofInt 32 pktSize) (BitVec.ofInt 16 pktPause)) t := by
  unfold start UioTrafficGen.start
  rw [onDevice_bind]
  refine onDevice_bind_congr fun _ s1 => ?_
  have h1 : checkConfig pktPause { t with device := s1 } = .ok () { t with device := s1 } :=
    if_pos ⟨ht.1, hp⟩
  rw [onDevice_bind, bind_ok h1]
  refine onDevice_bind_congr fun _ s2 => ?_
  have h2 : checkLength nrPkts { t with device := s2 } = .ok () { t with device := s2 } :=
    if_pos ⟨ht.2, hn⟩
  dsimp only
  rw [onDevice_bind, bind_ok h2]
  refine onDevice_bind_congr fun _ s3 => ?_
  have h3 : checkSize pktSize { t with device := s3 } = .ok () { t with device := s3 } := if_pos hs
  rw [onDevice_bind, bind_ok h3]
  refine onDevice_bind_congr fun _ s4 => ?_
  rw [onDevice_bind]

/-- **The abstract generator is the C++ class** as long as nothing is rejected. -/
theorem exec_eq_onDevice {t : Checked σ} (ht : t.Clean) {call : TrafficGenCall} (h : call.Fits) :
    exec bus call t = onDevice (UioTrafficGen.exec bus call) t := by
  cases call with
  | start nrPkts pktSize pktPause =>
    obtain ⟨⟨hn, hp⟩, hs⟩ := h
    have hstart : start bus nrPkts pktSize pktPause t = _ := start_eq_onDevice ht hn hp hs
    unfold exec UioTrafficGen.exec
    dsimp only
    rw [onDevice_bind]
    cases hx : onDevice (UioTrafficGen.start bus (BitVec.ofInt 16 nrPkts) (BitVec.ofInt 32 pktSize)
        (BitVec.ofInt 16 pktPause)) t with
    | ok a t' =>
      rw [bind_ok (hstart.trans hx), bind_ok hx]
      rfl
    | error e t' => rw [bind_error (hstart.trans hx), bind_error hx]
  | stop =>
    unfold exec UioTrafficGen.exec
    rw [onDevice_bind]
    rfl
  | version =>
    unfold exec UioTrafficGen.exec
    rw [onDevice_bind]
    rfl

end Checked

namespace TrafficGen
variable {bs : ∀ reg, LayoutStruct Empty (fields reg)} {σ : Type} {bus : RegBus σ}

/-- the Python object and the abstract generator, all through a session -/
theorem refines_session (s : σ) (calls : List TrafficGenCall) :
    Refines bs (session bs bus s calls) (run (Checked.step bus) ⟨false, false, s⟩ calls) := by
  -- from any related states on
  have key : ∀ (calls : List TrafficGenCall) st t, Refines bs st t →
      Refines bs (run (step bs bus) st calls) (run (Checked.step bus) t calls) := by
    intro calls
    induction calls with
    | nil =>
      intro st t h
      exact h
    | cons call calls ih =>
      intro st t h
      exact ih _ _ (exec_sim call st t h).final
  exact key calls _ _ (refines_init s)

/-- **The two classes do the same.**  Whatever the device does and whatever the calls before have
raised, as long as no packet count or pause was too big: a call whose arguments fit leaves the
device as the C++ method leaves it, and both return the same or throw the same. -/
theorem exec_agrees (bs : ∀ reg, LayoutStruct Empty (fields reg)) (bus : RegBus σ) (s : σ)
    (calls : List TrafficGenCall)
    (hcalls : ∀ call ∈ calls, call.CountsFit) (call : TrafficGenCall) (hcall : call.Fits) :
    Same (fun st s' => st.2 = s') (fun _ => True) (exec bs bus call (session bs bus s calls))
      (UioTrafficGen.exec bus call (session bs bus s calls).2) := by
  have hr : Refines bs (session bs bus s calls) (run (Checked.step bus) ⟨false, false, s⟩ calls) :=
    refines_session s calls
  have hclean : (run (Checked.step bus) ⟨false, false, s⟩ calls).Clean :=
    Checked.clean_run ⟨rfl, rfl⟩ hcalls
  have hsame : Same (Refines bs) (fun _ => True) (exec bs bus call (session bs bus s calls))
      (Checked.exec bus call _) :=
    exec_sim call _ _ hr
  rw [Checked.exec_eq_onDevice hclean hcall] at hsame
  rw [hr.2]
  revert hsame
  generalize run (Checked.step bus) ⟨false, false, s⟩ calls = t
  generalize exec bs bus call (session bs bus s calls) = res
  cases hx : UioTrafficGen.exec bus call t.device with
  | ok a s' =>
    rw [Checked.onDevice_ok hx]
    intro hsame
    cases hsame with
    | ok _ h => exact .ok trivial h.2
  | error e s' =>
    rw [Checked.onDevice_error hx]
    intro hsame
    cases hsame with
    | error h => exact .error h.2

/-- registers that hold what is written -/
def memBus : RegBus (BitVec 32 → BitVec 32) where
  rd32 offs := do return (← get) offs
  wr32 offs value := modify fun regs => Function.update regs offs value

/-- the layouts of this class -/
def intStructs (reg : Reg) : LayoutStruct Empty (fields reg) :=
  LayoutStruct.ofInts (fields reg) (by cases reg <;> rfl) (by cases reg <;> decide)

/-- the session begins with a packet size that is rejected -/
theorem exec_agrees_memBus : Same (fun st s' => st.2 = s') (fun _ => True)
    (exec intStructs memBus (.start 42 128 10000)
      (session intStructs memBus (fun _ => 2) [.start 1 0 60000, .version]))
    (UioTrafficGen.exec memBus (.start 42 128 10000)
      (session intStructs memBus (fun _ => 2) [.start 1 0 60000, .version]).2) :=
  exec_agrees intStructs memBus (fun _ => 2) [.start 1 0 60000, .version]
    (by simp [TrafficGenCall.CountsFit, BitLayout.InBits]) (.start 42 128 10000)
    (by simp [TrafficGenCall.Fits, BitLayout.InBits])

end TrafficGen

/-! ## a device that throws nothing -/

structure RegBus.Returns {σ : Type} (bus : RegBus σ) : Prop where
  rd32 : ∀ offs s, ∃ w s', bus.rd32 offs s = .ok w s'
  wr32 : ∀ offs w s, ∃ s', bus.wr32 offs w s = .ok () s'

/-- writes to some registers -/
def RegBus.WritesTo {σ : Type} (bus : RegBus σ) (offsets : List (BitVec 32)) : σ → σ → Prop :=
  Relation.ReflTransGen fun s s' => ∃ offs ∈ offsets, ∃ w, bus.wr32 offs w s = .ok () s'

theorem UioTrafficGen.stop_returns {σ : Type} {bus : RegBus σ} (hbus : bus.Returns) (s : σ) :
    ∃ s', stop bus s = .ok () s' := by
  obtain ⟨w, s1, h1⟩ := hbus.rd32 stControl s
  unfold stop
  rw [bind_ok h1]
  exact hbus.wr32 _ _ _

namespace Checked
variable {σ : Type} {bus : RegBus σ}

/-- how `start` can end: before `StConfig`, before `TxLength`, before `ExTxLength` or as it
should -/
inductive Started (bus : RegBus σ) (nrPkts pktSize pktPause : Int) (t : Checked σ) :
    EStateM.Result Stop (Checked σ) Unit → Prop
  | badPause {s : σ} (h : ¬(t.badConfig = false ∧ BitLayout.InBits 16 pktPause))
      (hs : UioTrafficGen.stop bus t.device = .ok () s) :
      Started bus nrPkts pktSize pktPause t
        (.error (.exception "bitstruct.Error") { t with badConfig := true, device := s })
  | badCount {s s' : σ} (hp : t.badConfig = false ∧ BitLayout.InBits 16 pktPause)
      (h : ¬(t.badLength = false ∧ BitLayout.InBits 16 nrPkts))
      (hs : UioTrafficGen.stop bus t.device = .ok () s)
      (hw : bus.WritesTo [UioTrafficGen.stConfig, UioTrafficGen.trLength] s s') :
      Started bus nrPkts pktSize pktPause t
        (.error (.exception "bitstruct.Error") { t with badLength := true, device := s' })
  | badSize {s s' : σ} (hp : t.badConfig = false ∧ BitLayout.InBits 16 pktPause)
      (hn : t.badLength = false ∧ BitLayout.InBits 16 nrPkts) (h : ¬(1 ≤ pktSize ∧ pktSize ≤ 2^24))
      (hs : UioTrafficGen.stop bus t.device = .ok () s)
      (hw : bus.WritesTo [UioTrafficGen.stConfig, UioTrafficGen.trLength] s s') :
      Started bus nrPkts pktSize pktPause t
        (.error (.exception "bitstruct.Error") { t with device := s' })
  | started {s : σ} (hp : t.badConfig = false ∧ BitLayout.InBits 16 pktPause)
      (hn : t.badLength = false ∧ BitLayout.InBits 16 nrPkts) (h : 1 ≤ pktSize ∧ pktSize ≤ 2^24) :
      Started bus nrPkts pktSize pktPause t (.ok () { t with device := s })

theorem writesTo_single {offsets : List (BitVec 32)} {offs w : BitVec 32} {s s' : σ}
    (h : offs ∈ offsets) (hw : bus.wr32 offs w s = .ok () s') : bus.WritesTo offsets s s' :=
  Relation.ReflTransGen.single ⟨offs, h, w, hw⟩

theorem start_cases (hbus : bus.Returns) (nrPkts pktSize pktPause : Int) (t : Checked σ) :
    Started bus nrPkts pktSize pktPause t (start bus nrPkts pktSize pktPause t) := by
  obtain ⟨s1, h1⟩ := UioTrafficGen.stop_returns hbus t.device
  unfold start
  rw [bind_ok (onDevice_ok h1)]
  by_cases hp : t.badConfig = false ∧ BitLayout.InBits 16 pktPause
  · have e1 : checkConfig pktPause { t with device := s1 } = .ok () { t with device := s1 } :=
      if_pos hp
    obtain ⟨s2, h2⟩ := hbus.wr32 UioTrafficGen.stConfig
      (UioTrafficGen.stConfigWord (BitVec.ofInt 16 pktPause)) s1
    have hw2 : bus.WritesTo [UioTrafficGen.stConfig, UioTrafficGen.trLength] s1 s2 :=
      writesTo_single List.mem_cons_self h2
    rw [bind_ok e1, bind_ok (onDevice_ok h2)]
    dsimp only
    by_cases hn : t.badLength = false ∧ BitLayout.InBits 16 nrPkts
    · have e2 : checkLength nrPkts { t with device := s2 } = .ok () { t with device := s2 } :=
        if_pos hn
      obtain ⟨s3, h3⟩ := hbus.wr32 UioTrafficGen.trLength
        (UioTrafficGen.trLengthWord (BitVec.ofInt 32 pktSize - 1) (BitVec.ofInt 16 nrPkts)) s2
      have hw3 : bus.WritesTo [UioTrafficGen.stConfig, UioTrafficGen.trLength] s1 s3 :=
        hw2.trans (writesTo_single (List.mem_cons_of_mem _ List.mem_cons_self) h3)
      rw [bind_ok e2, bind_ok (onDevice_ok h3)]
      by_cases hs : 1 ≤ pktSize ∧ pktSize ≤ 2^24
      · have e3 : checkSize pktSize { t with device := s3 } = .ok () { t with device := s3 } :=
          if_pos hs
        obtain ⟨s4, h4⟩ := hbus.wr32 UioTrafficGen.extTrLength
          (UioTrafficGen.extTrLengthWord (BitVec.ofInt 32 pktSize - 1)) s3
        obtain ⟨w, s5, h5⟩ := hbus.rd32 UioTrafficGen.stControl s4
        obtain ⟨s6, h6⟩ := hbus.wr32 UioTrafficGen.stControl
          (UioTrafficGen.stren.set 1 (UioTrafficGen.done.set 0 w)) s5
        rw [bind_ok e3, bind_ok (onDevice_ok h4), bind_ok (onDevice_ok h5), onDevice_ok h6]
        exact .started hp hn hs
      · have e3 : checkSize pktSize { t with device := s3 }
            = .error (.exception "bitstruct.Error") { t with device := s3 } := if_neg hs
        rw [bind_error e3]
        exact .badSize hp hn hs h1 hw3
    · have e2 : checkLength nrPkts { t with device := s2 }
          = .error (.exception "bitstruct.Error") { t with badLength := true, device := s2 } :=
            if_neg hn
      rw [bind_error e2]
      exact .badCount hp hn h1 hw2
  · have e1 : checkConfig pktPause { t with device := s1 }
        = .error (.exception "bitstruct.Error") { t with badConfig := true, device := s1 } :=
          if_neg hp
    rw [bind_error e1]
    exact .badPause hp h1

theorem clean_onDevice {α : Type} (x : Prog σ α) (t : Checked σ) :
    (final (onDevice x t)).Clean ↔ t.Clean := by
  cases hx : x t.device with
  | ok a s =>
    rw [onDevice_ok hx]
    exact Iff.rfl
  | error e s =>
    rw [onDevice_error hx]
    exact Iff.rfl

theorem final_bind_pure {α β : Type} (x : Prog (Checked σ) α) (f : α → β) (t : Checked σ) :
    final ((x >>= fun a => pure (f a)) t) = final (x t) := by
  cases hx : x t with
  | ok a t' =>
    rw [bind_ok hx]
    rfl
  | error e t' =>
    rw [bind_error hx]
    rfl

/-- a call leaves the generator clean if and only if it was and packet count and pause fit -/
theorem clean_step (hbus : bus.Returns) (t : Checked σ) (call : TrafficGenCall) :
    (step bus t call).Clean ↔ t.Clean ∧ call.CountsFit := by
  cases call with
  | stop =>
    show (final (exec bus .stop t)).Clean ↔ _
    rw [exec, final_bind_pure, clean_onDevice]
    exact (and_iff_left trivial).symm
  | version =>
    show (final (exec bus .version t)).Clean ↔ _
    rw [exec, final_bind_pure, clean_onDevice]
    exact (and_iff_left trivial).symm
  | start nrPkts pktSize pktPause =>
    show (final (exec bus (.start nrPkts pktSize pktPause) t)).Clean ↔ _
    rw [exec, final_bind_pure]
    have hcases := start_cases hbus nrPkts pktSize pktPause t
    revert hcases
    generalize start bus nrPkts pktSize pktPause t = res
    intro hcases
    cases hcases with
    | badPause h hs =>
      refine iff_of_false (fun hc => Bool.false_ne_true hc.1.symm) fun hc => h ⟨hc.1.1, hc.2.2⟩
    | badCount hp h hs hw =>
      refine iff_of_false (fun hc => Bool.false_ne_true hc.2.symm) fun hc => h ⟨hc.1.2, hc.2.1⟩
    | badSize hp hn h hs hw => exact iff_of_true ⟨hp.1, hn.1⟩ ⟨⟨hp.1, hn.1⟩, hn.2, hp.2⟩
    | started hp hn h => exact iff_of_true ⟨hp.1, hn.1⟩ ⟨⟨hp.1, hn.1⟩, hn.2, hp.2⟩

theorem clean_run_iff (hbus : bus.Returns) (t : Checked σ) (calls : List TrafficGenCall) :
    (run (step bus) t calls).Clean ↔ t.Clean ∧ ∀ call ∈ calls, call.CountsFit := by
  induction calls generalizing t with
  | nil => exact (and_iff_left fun _ h => absurd h List.not_mem_nil).symm
  | cons call calls ih =>
    rw [run, ih, clean_step hbus, List.forall_mem_cons, and_assoc]

end Checked

namespace TrafficGen
variable {bs : ∀ reg, LayoutStruct Empty (fields reg)} {σ : Type}

/-- `start` next to the abstract generator -/
theorem start_of_refines {bus : RegBus σ} (hbus : bus.Returns) (nrPkts pktSize pktPause : Int)
    {st : (Reg → UioReg Empty) × σ} {t : Checked σ} (hr : Refines bs st t) :
    ((∃ st', start bs bus nrPkts pktSize pktPause st = .ok () st') ↔
      (TrafficGenCall.start nrPkts pktSize pktPause).Fits ∧ t.Clean) ∧
    ∀ e st', start bs bus nrPkts pktSize pktPause st = .error e st' →
      ∃ s', UioTrafficGen.stop bus t.device = .ok () s' ∧
        bus.WritesTo [UioTrafficGen.stConfig, UioTrafficGen.trLength] s' st'.2 := by
  have hsame : Same (Refines bs) (fun _ => True) (start bs bus nrPkts pktSize pktPause st)
      (Checked.start bus nrPkts pktSize pktPause t) := start_sim nrPkts pktSize pktPause st t hr
  have hcases := Checked.start_cases hbus nrPkts pktSize pktPause t
  revert hsame hcases
  generalize start bs bus nrPkts pktSize pktPause st = res
  generalize Checked.start bus nrPkts pktSize pktPause t = res'
  intro hsame hcases
  cases hcases with
  | badPause h hs =>
    cases hsame with
    | error hr' =>
      refine ⟨iff_of_false (fun ⟨_, he⟩ => nomatch he) fun hc => h ⟨hc.2.1, hc.1.1.2⟩,
        fun e st' he => ?_⟩
      injection he with _ he
      rw [← he, hr'.2]
      exact ⟨_, hs, Relation.ReflTransGen.refl⟩
  | badCount hp h hs hw =>
    cases hsame with
    | error hr' =>
      refine ⟨iff_of_false (fun ⟨_, he⟩ => nomatch he) fun hc => h ⟨hc.2.2, hc.1.1.1⟩,
        fun e st' he => ?_⟩
      injection he with _ he
      rw [← he, hr'.2]
      exact ⟨_, hs, hw⟩
  | badSize hp hn h hs hw =>
    cases hsame with
    | error hr' =>
      refine ⟨iff_of_false (fun ⟨_, he⟩ => nomatch he) fun hc => h hc.1.2, fun e st' he => ?_⟩
      injection he with _ he
      rw [← he, hr'.2]
      exact ⟨_, hs, hw⟩
  | started hp hn h =>
    cases hsame with
    | ok _ hr' =>
      refine ⟨iff_of_true ⟨_, rfl⟩ ⟨⟨⟨hn.2, hp.2⟩, h⟩, hp.1, hn.1⟩, fun e st' he => ?_⟩
      cases he

/-- **When `start` of the Python class returns**, on a device that throws nothing: exactly if its
arguments fit and no call of the session before has had a packet count or pause that did not.  A
call that raises has stopped the generator and written to no register but `StConfig` and `TxLength`
since. -/
theorem start_returns_iff (bs : ∀ reg, LayoutStruct Empty (fields reg)) (bus : RegBus σ)
    (hbus : bus.Returns) (s : σ) (calls : List TrafficGenCall) (nrPkts pktSize pktPause : Int) :
    ((∃ st', start bs bus nrPkts pktSize pktPause (session bs bus s calls) = .ok () st') ↔
      (TrafficGenCall.start nrPkts pktSize pktPause).Fits ∧ ∀ call ∈ calls, call.CountsFit) ∧
    ∀ e st', start bs bus nrPkts pktSize pktPause (session bs bus s calls) = .error e st' →
      ∃ s', UioTrafficGen.stop bus (session bs bus s calls).2 = .ok () s' ∧
        bus.WritesTo [UioTrafficGen.stConfig, UioTrafficGen.trLength] s' st'.2 := by
  have hr : Refines bs (session bs bus s calls) (run (Checked.step bus) ⟨false, false, s⟩ calls) :=
    refines_session s calls
  have hclean := Checked.clean_run_iff hbus ⟨false, false, s⟩ calls
  rw [and_iff_right (show Checked.Clean ⟨false, false, s⟩ from ⟨rfl, rfl⟩)] at hclean
  rw [← hclean, hr.2]
  exact start_of_refines hbus nrPkts pktSize pktPause hr

theorem memBus_returns : memBus.Returns where
  rd32 offs s := ⟨s offs, s, rfl⟩
  wr32 offs w s := ⟨Function.update s offs w, rfl⟩

/-- a rejected pause is in the way of the next call -/
theorem start_returns_iff_memBus :
    ¬∃ st', start intStructs memBus 1 1024 10
      (session intStructs memBus (fun _ => 0) [.start 1 1024 70000, .stop]) = .ok () st' := by
  intro h
  have hfit := ((start_returns_iff intStructs memBus memBus_returns _ _ 1 1024 10).1.mp h).2
    (.start 1 1024 70000)
    List.mem_cons_self
  simp [TrafficGenCall.CountsFit, BitLayout.InBits] at hfit

end TrafficGen

end Udmaio
