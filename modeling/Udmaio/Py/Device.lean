import Udmaio.Lib.BitLayout
import Udmaio.Lib.Sim
import Udmaio.Py.UioReg

/-!
# Devices of the Python binding

A class derived from the binding's `UioIf` holds a `UioReg` for each register and reaches the device
through `_rd32` and `_wr32`.

* `LayoutStruct`         `bitstruct.compile` of a layout of unsigned fields, with what is used of
                         it;
* `ofWord`               the register cache after a word has been read into it;
* `RegBus`               a device: two programs on any state, which may throw;
* `PyIf`                 the registers of a class, each with an offset and a layout of 32 bits;
* `rd`, `wr`, `setField`, `getField`   what a method does with a register;
* `Same.rd_bind`, `Same.wr_bind`       next to a program that accesses the device directly.
-/

namespace Udmaio
open Lib

namespace UioReg
variable {Obj : Type}

/-! ## unsigned fields -/

def intOf : PyVal Obj → Option Int
  | .int i => some i
  | .obj _ => none

def wordBytes (w : BitVec 32) : List UInt8 := (leBytes 4 w.toNat).reverse

theorem fromBytes_wordBytes (w : BitVec 32) : fromBytes (wordBytes w) = w.toNat := by
  rw [fromBytes, wordBytes, List.reverse_reverse, leNat_leBytes]
  exact Nat.mod_eq_of_lt w.isLt

theorem wordBytes_length (w : BitVec 32) : (wordBytes w).length = 4 := by
  rw [wordBytes, List.length_reverse, leBytes_length]

end UioReg

/-- `bitstruct.compile` of unsigned fields, the most significant one first: such a field takes the
numbers of its bits, and is read as the number that these bits make -/
structure LayoutStruct (Obj : Type) (l : BitLayout) extends BitStruct Obj where
  mem_names : ∀ name, name ∈ names ↔ name ∈ l.names
  fits_int : ∀ name f v, l.field name = some f → (fits name (.int v) ↔ BitLayout.InBits f.len v)
  unpack_field : ∀ w name f, l.field name = some f →
    unpack (UioReg.wordBytes w) name = some (.int (f.get w).toNat)

namespace UioReg
variable {Obj : Type}

/-! ## a cache that holds a word -/

section
variable {l : BitLayout} {bs : LayoutStruct Obj l}

/-- the cache after `self.val = w` -/
def ofWord (bs : LayoutStruct Obj l) (w : BitVec 32) : UioReg Obj :=
  ⟨bs.unpack (wordBytes w), wordBytes w⟩

/-- a word is read as its bit-fields -/
theorem unpack_wordBytes (w : BitVec 32) (name : String) :
    bs.unpack (wordBytes w) name = (l.unpack w name).map .int := by
  rw [BitLayout.unpack, Option.map_map]
  cases hf : l.field name with
  | some f => exact bs.unpack_field w name f hf
  | none =>
    have hnot : name ∉ l.names := by
      rw [← BitLayout.isSome_field_iff, hf]
      exact Bool.false_ne_true
    rw [← bs.mem_names, ← bs.isSome_unpack (wordBytes w)] at hnot
    exact Option.not_isSome_iff_eq_none.mp hnot

theorem val_ofWord (w : BitVec 32) : (ofWord bs w).val = w.toNat := fromBytes_wordBytes w

/-- the value of a field -/
theorem ofWord_field {name : String} {f : BitField} (h : l.field name = some f) (w : BitVec 32) :
    (ofWord bs w).dict name = some (.int (f.get w).toNat) := bs.unpack_field w name f h

theorem init_eq_ofWord : init bs.toBitStruct = ofWord bs 0 := by
  have hzero : wordBytes 0 = (leBytes 4 0).reverse := rfl
  unfold init ofWord
  rw [hzero]

theorem toBytes_toNat (w : BitVec 32) :
    toBytes (.int w.toNat : PyVal Obj) = some (wordBytes w) := by
  have hlt : w.toNat < 4294967296 := w.isLt
  have hin : (0 : Int) ≤ (w.toNat : Int) ∧ (w.toNat : Int) < 0x100000000 := by omega
  rw [toBytes, if_pos hin, Int.toNat_natCast, wordBytes]

theorem setVal_some {bs : BitStruct Obj} {value : PyVal Obj} {raw : List UInt8}
    (h : toBytes value = some raw) (r : UioReg Obj) :
    setVal bs value r = .ok () ⟨bs.unpack raw, raw⟩ := by
  unfold setVal
  rw [h]
  rfl

theorem setVal_word (w : BitVec 32) (r : UioReg Obj) :
    setVal bs.toBitStruct (.int w.toNat) r = .ok () (ofWord bs w) :=
  setVal_some (toBytes_toNat w) r

/-- only the value of the field `name` may differ from those of the word, as after a rejected
assignment -/
def Stale (bs : LayoutStruct Obj l) (name : String) (w : BitVec 32) (r : UioReg Obj) : Prop :=
  ∃ value, r = ⟨Function.update (bs.unpack (wordBytes w)) name (some value), wordBytes w⟩

variable {name : String} {f : BitField} {w : BitVec 32} {r : UioReg Obj}

theorem stale_ofWord (h : l.field name = some f) (w : BitVec 32) :
    Stale bs name w (ofWord bs w) := by
  refine ⟨.int (f.get w).toNat, ?_⟩
  have hv : bs.unpack (wordBytes w) name = some (.int (f.get w).toNat : PyVal Obj) :=
    ofWord_field h w
  rw [← hv, Function.update_eq_self]
  rfl

/-- **An assignment that fits** sets the bit-field of the word, whatever value was rejected
before. -/
theorem setField_fits (hsize : l.size = 32) (hf : l.field name = some f) (hr : Stale bs name w r)
    {v : Int} (hv : BitLayout.InBits f.len v) : setField bs.toBitStruct name (.int v) r
      = .ok () (ofWord bs (f.set (BitVec.ofInt f.len v) w)) := by
  obtain ⟨old, rfl⟩ := hr
  have hval : ((BitVec.ofInt f.len v).toNat : Int) = v := by
    rw [BitVec.toNat_ofInt, Int.emod_eq_of_lt hv.1 (by exact_mod_cast hv.2)]
    exact Int.toNat_of_nonneg hv.1
  have hdict : Function.update (Function.update (bs.unpack (wordBytes w)) name (some old)) name
      (some (.int v : PyVal Obj)) = bs.unpack (wordBytes (f.set (BitVec.ofInt f.len v) w)) := by
    rw [Function.update_idem]
    funext k
    rw [unpack_wordBytes, BitLayout.unpack_set hf (Nat.le_of_eq hsize)]
    by_cases e : k = name
    · subst e
      rw [Function.update_self, Function.update_self, hval]
      rfl
    · rw [Function.update_of_ne e, Function.update_of_ne e, unpack_wordBytes]
  have hin : (Function.update (bs.unpack (wordBytes w)) name (some old) name).isSome = true := by
    rw [Function.update_self]
    rfl
  rw [setField_of_isSome _ hin, hdict]
  exact packDict_some _ (bs.pack_unpack _ (wordBytes_length _))

/-- the dictionary holds a value of the field `name` that does not fit -/
structure Stuck (bs : LayoutStruct Obj l) (name : String) (r : UioReg Obj) : Prop where
  keys : ∀ k, (r.dict k).isSome ↔ k ∈ bs.names
  stuck : ∃ value, r.dict name = some value ∧ ¬bs.fits name value

theorem Stuck.pack (h : Stuck bs name r) : bs.pack r.dict = none := by
  obtain ⟨value, hv, hnot⟩ := h.stuck
  rw [← Option.not_isSome_iff_eq_none, bs.pack_isSome_iff r.dict h.keys]
  intro hall
  exact hnot (hall name value hv)

theorem Stale.keys (hf : l.field name = some f) (h : Stale bs name w r) (k : String) :
    (r.dict k).isSome ↔ k ∈ bs.names := by
  obtain ⟨old, rfl⟩ := h
  show (Function.update (bs.unpack (wordBytes w)) name (some old) k).isSome ↔ _
  by_cases e : k = name
  · subst e
    rw [Function.update_self, bs.mem_names]
    exact iff_of_true rfl (BitLayout.isSome_field_iff.mp (by rw [hf]; rfl))
  · rw [Function.update_of_ne e]
    exact bs.isSome_unpack _ _

theorem packDict_raises (bs : BitStruct Obj) (h : bs.pack r.dict = none) :
    packDict bs r = .error (.exception "bitstruct.Error") r := by
  unfold packDict
  rw [bind_ok (get_ok r), h]
  rfl

/-- **An assignment that does not fit** raises and leaves its value behind. -/
theorem setField_rejects (hf : l.field name = some f) (hr : Stale bs name w r) {v : Int}
    (hv : ¬BitLayout.InBits f.len v) :
    ∃ r', setField bs.toBitStruct name (.int v) r = .error (.exception "bitstruct.Error") r' ∧
      Stale bs name w r' ∧ Stuck bs name r' := by
  obtain ⟨old, rfl⟩ := hr
  have hin : (Function.update (bs.unpack (wordBytes w)) name (some old) name).isSome = true := by
    rw [Function.update_self]
    rfl
  have hstale : Stale bs name w
      ⟨Function.update (Function.update (bs.unpack (wordBytes w)) name (some old))
      name (some (.int v : PyVal Obj)), wordBytes w⟩ := ⟨.int v, by rw [Function.update_idem]⟩
  have hstuck : Stuck bs name
      ⟨Function.update (Function.update (bs.unpack (wordBytes w)) name (some old))
      name (some (.int v : PyVal Obj)), wordBytes w⟩ :=
    ⟨hstale.keys hf, .int v, Function.update_self _ _ _, (bs.fits_int name f v hf).not.mpr hv⟩
  exact ⟨_, (setField_of_isSome _ hin (.int v)).trans (packDict_raises _ hstuck.pack),
    hstale, hstuck⟩

/-- **A value that does not fit blocks the assignments to all other fields.** -/
theorem setField_stuck (h : Stuck bs name r) {other : String} (hne : other ≠ name)
    (hother : other ∈ l.names) (value : PyVal Obj) :
    ∃ r', setField bs.toBitStruct other value r = .error (.exception "bitstruct.Error") r' ∧
      Stuck bs name r' := by
  have hmem : other ∈ bs.names := (bs.mem_names other).mpr hother
  have hin : (r.dict other).isSome = true := (h.keys other).mpr hmem
  have hstuck : Stuck bs name ⟨Function.update r.dict other (some value), r.rawVal⟩ := by
    obtain ⟨bad, hbad, hnot⟩ := h.stuck
    refine ⟨fun k => ?_, bad, (Function.update_of_ne hne.symm _ _).trans hbad, hnot⟩
    show (Function.update r.dict other (some value) k).isSome ↔ _
    by_cases e : k = other
    · subst e
      rw [Function.update_self]
      exact iff_of_true rfl hmem
    · rw [Function.update_of_ne e]
      exact h.keys k
  exact ⟨_, (setField_of_isSome _ hin value).trans (packDict_raises _ hstuck.pack), hstuck⟩

end

end UioReg

/-! ## devices -/

/-- a device behind `_rd32` and `_wr32`: what an access does is left open -/
structure RegBus (σ : Type) where
  rd32 : BitVec 32 → Prog σ (BitVec 32)
  wr32 : BitVec 32 → BitVec 32 → Prog σ Unit

/-- the registers of a class, each with its `bs`; `UioReg` raises for a layout that is not of 32
bits -/
structure PyIf (Reg Obj : Type) where
  offs : Reg → BitVec 32
  fields : Reg → BitLayout
  size_eq : ∀ reg, (fields reg).size = 32
  bs : ∀ reg, LayoutStruct Obj (fields reg)

namespace PyIf
variable {Reg σ Obj α : Type} (py : PyIf Reg Obj) (bus : RegBus σ)

/-- the registers of an object, and its device -/
abbrev PyM (Reg σ Obj : Type) := Prog ((Reg → UioReg Obj) × σ)

/-- a method of the binding -/
def onBus (x : Prog σ α) : PyM Reg σ Obj α := onPart Prod.snd (fun st s => (st.1, s)) x

/-- the registers after `__init__` -/
def init : Reg → UioReg Obj := fun reg => UioReg.init (py.bs reg).toBitStruct

def wr (reg : Reg) : PyM Reg σ Obj Unit := do
  let st ← get
  onBus (bus.wr32 (py.offs reg) (BitVec.ofNat 32 (st.1 reg).val))

/-- `self.reg.name` -/
def getField (reg : Reg) (name : String) : PyM Reg σ Obj (PyVal Obj) := do
  let st ← get
  match (st.1 reg).dict name with
  | some value => return value
  | none => throw (.exception s!"{name}: unknown attribute")

/-- the caches of registers that hold these words -/
def holding (words : Reg → BitVec 32) : Reg → UioReg Obj :=
  fun reg => UioReg.ofWord (py.bs reg) (words reg)

theorem init_eq_holding : py.init = py.holding fun _ => 0 := by
  funext reg
  exact UioReg.init_eq_ofWord

section
variable {bus} {regs : Reg → UioReg Obj} {s s' : σ} {reg : Reg} {name : String} {f : BitField}

theorem onBus_ok {x : Prog σ α} {a : α} (h : x s = .ok a s') :
    (onBus x : PyM Reg σ Obj α) (regs, s) = .ok a (regs, s') := onPart_ok h

theorem onBus_error {x : Prog σ α} {e : Stop} (h : x s = .error e s') :
    (onBus x : PyM Reg σ Obj α) (regs, s) = .error e (regs, s') := onPart_error h

theorem wr_eq (regs : Reg → UioReg Obj) (s : σ) : py.wr bus reg (regs, s)
    = (onBus (bus.wr32 (py.offs reg) (BitVec.ofNat 32 (regs reg).val)) : PyM Reg σ Obj Unit)
      (regs, s) := rfl

theorem getField_ok {w : BitVec 32} (hf : (py.fields reg).field name = some f)
    (hr : regs reg = UioReg.ofWord (py.bs reg) w) :
    (getField reg name : PyM Reg σ Obj (PyVal Obj)) (regs, s)
      = .ok (.int (f.get w).toNat) (regs, s) := by
  have hget : (regs reg).dict name = some (.int (f.get w).toNat) := by
    rw [hr, UioReg.ofWord_field hf]
  show (match (regs reg).dict name with
    | some value => pure value
    | none => throw _ : PyM Reg σ Obj (PyVal Obj)) (regs, s) = _
  rw [hget]
  rfl

end

/-! ## reading and assigning -/

variable [DecidableEq Reg]

/-- a method of one register -/
def onReg (reg : Reg) (x : UioReg.RegM Obj α) : PyM Reg σ Obj α :=
  onPart (fun st => st.1 reg) (fun st r => (Function.update st.1 reg r, st.2)) x

def rd (reg : Reg) : PyM Reg σ Obj (BitVec 32) := do
  let val ← onBus (bus.rd32 (py.offs reg))
  onReg reg (UioReg.setVal (py.bs reg).toBitStruct (.int val.toNat))
  return val

/-- `self.reg.name = value` -/
def setField (reg : Reg) (name : String) (value : Int) : PyM Reg σ Obj Unit :=
  onReg reg (UioReg.setField (py.bs reg).toBitStruct name (.int value))

variable {bus} {regs : Reg → UioReg Obj} {s s' : σ} {reg : Reg} {name : String} {f : BitField}

theorem onReg_ok {x : UioReg.RegM Obj α} {a : α} {r : UioReg Obj} (h : x (regs reg) = .ok a r) :
    onReg reg x (regs, s) = .ok a (Function.update regs reg r, s) := onPart_ok h

theorem onReg_error {x : UioReg.RegM Obj α} {e : Stop} {r : UioReg Obj}
    (h : x (regs reg) = .error e r) :
    onReg reg x (regs, s) = .error e (Function.update regs reg r, s) := onPart_error h

theorem rd_ok {w : BitVec 32} (h : bus.rd32 (py.offs reg) s = .ok w s') :
    py.rd bus reg (regs, s) = .ok w (Function.update regs reg (UioReg.ofWord (py.bs reg) w),
      s') := by
  have hset : onReg reg (UioReg.setVal (py.bs reg).toBitStruct (.int w.toNat)) (regs, s')
      = .ok () (Function.update regs reg (UioReg.ofWord (py.bs reg) w), s') :=
    onReg_ok (UioReg.setVal_word w _)
  unfold rd
  rw [bind_ok (onBus_ok h), bind_ok hset]
  rfl

theorem rd_error {e : Stop} (h : bus.rd32 (py.offs reg) s = .error e s') :
    py.rd bus reg (regs, s) = .error e (regs, s') := by
  unfold rd
  rw [bind_error (onBus_error h)]

/-- an assignment that fits -/
theorem setField_ok {w : BitVec 32} (hf : (py.fields reg).field name = some f)
    (hr : UioReg.Stale (py.bs reg) name w (regs reg)) {v : Int} (hv : BitLayout.InBits f.len v) :
    py.setField reg name v (regs, s) = .ok () (Function.update regs reg
      (UioReg.ofWord (py.bs reg) (f.set (BitVec.ofInt f.len v) w)), s) :=
  onReg_ok (UioReg.setField_fits (py.size_eq reg) hf hr hv)

/-- an assignment that fits, to a register that holds the word `w` -/
theorem setField_update {w : BitVec 32} (hf : (py.fields reg).field name = some f) {v : Int}
    (hv : BitLayout.InBits f.len v) :
    py.setField reg name v (Function.update regs reg (UioReg.ofWord (py.bs reg) w), s)
      = .ok () (Function.update regs reg
        (UioReg.ofWord (py.bs reg) (f.set (BitVec.ofInt f.len v) w)), s) := by
  have hr : UioReg.Stale (py.bs reg) name w
      (Function.update regs reg (UioReg.ofWord (py.bs reg) w) reg : UioReg Obj) := by
    rw [Function.update_self]
    exact UioReg.stale_ofWord hf w
  refine (py.setField_ok hf hr hv).trans ?_
  rw [Function.update_idem]

theorem setField_error {w : BitVec 32} (hf : (py.fields reg).field name = some f)
    (hr : UioReg.Stale (py.bs reg) name w (regs reg)) {v : Int} (hv : ¬BitLayout.InBits f.len v) :
    ∃ r, py.setField reg name v (regs, s)
        = .error (.exception "bitstruct.Error") (Function.update regs reg r, s) ∧
      UioReg.Stale (py.bs reg) name w r ∧ UioReg.Stuck (py.bs reg) name r := by
  obtain ⟨r, he, hstale, hstuck⟩ := UioReg.setField_rejects hf hr hv
  exact ⟨r, onReg_error he, hstale, hstuck⟩

theorem setField_blocked {other : String} (h : UioReg.Stuck (py.bs reg) name (regs reg))
    (hne : other ≠ name) (hother : other ∈ (py.fields reg).names) (v : Int) :
    ∃ r, py.setField reg other v (regs, s)
        = .error (.exception "bitstruct.Error") (Function.update regs reg r, s) ∧
      UioReg.Stuck (py.bs reg) name r := by
  obtain ⟨r, he, hstuck⟩ := UioReg.setField_stuck h hne hother (.int v)
  exact ⟨r, onReg_error he, hstuck⟩

end PyIf

/-! ## a compiled layout -/

namespace LayoutStruct
variable {Obj : Type} {l : BitLayout}

def packInts (l : BitLayout) (dict : PyDict Obj) : Option (List UInt8) :=
  (l.pack fun name => (dict name).bind UioReg.intOf).map fun w => (leBytes 4 w).reverse

def unpackInts (l : BitLayout) (raw : List UInt8) (name : String) : Option (PyVal Obj) :=
  (l.unpack (BitVec.ofNat 32 (fromBytes raw)) name).map .int

def FitsInts (l : BitLayout) (name : String) (value : PyVal Obj) : Prop :=
  ∃ f v, l.field name = some f ∧ value = .int v ∧ BitLayout.InBits f.len v

theorem ints_unpackInts (raw : List UInt8) :
    (fun name => (unpackInts l raw name : Option (PyVal Obj)).bind UioReg.intOf)
      = l.unpack (BitVec.ofNat 32 (fromBytes raw)) := by
  funext name
  unfold unpackInts
  cases l.unpack (BitVec.ofNat 32 (fromBytes raw)) name with
  | none => rfl
  | some v => rfl

/-- the word of four bytes, and its bytes -/
theorem wordBytes_fromBytes {raw : List UInt8} (h : raw.length = 4) :
    (leBytes 4 (BitVec.ofNat 32 (fromBytes raw)).toNat).reverse = raw := by
  have hlt := leNat_lt raw.reverse
  have hback := leBytes_leNat raw.reverse
  rw [List.length_reverse, h] at hlt hback
  have hmod : leNat raw.reverse % 2^32 = leNat raw.reverse := Nat.mod_eq_of_lt hlt
  rw [BitVec.toNat_ofNat, fromBytes, hmod, hback, List.reverse_reverse]

theorem packInts_unpackInts (hsize : l.size = 32) (hn : l.names.Nodup) {raw : List UInt8}
    (h : raw.length = 4) : packInts l (unpackInts l raw : PyDict Obj) = some raw := by
  rw [packInts, ints_unpackInts, BitLayout.pack_unpack hn (Nat.le_of_eq hsize.symm),
    Option.map_some, wordBytes_fromBytes h]

theorem bind_intOf_eq_some {dict : PyDict Obj} {name : String} {v : Int} :
    (dict name).bind UioReg.intOf = some v ↔ dict name = some (.int v) := by
  rw [Option.bind_eq_some_iff]
  constructor
  · intro ⟨value, h, hv⟩
    cases value with
    | int i =>
      injection hv with hv
      rw [h, hv]
    | obj o => cases hv
  · intro h
    exact ⟨_, h, rfl⟩

theorem isSome_packInts_iff (hn : l.names.Nodup) {dict : PyDict Obj}
    (hkeys : ∀ name, (dict name).isSome ↔ name ∈ l.names) :
    (packInts l dict).isSome ↔ ∀ name value, dict name = some value → FitsInts l name value := by
  rw [packInts, Option.isSome_map, BitLayout.isSome_pack_iff hn]
  constructor
  · intro hall name value hv
    have hmem := (hkeys name).mp (by rw [hv]; rfl)
    obtain ⟨f, hf⟩ := Option.isSome_iff_exists.mp (BitLayout.isSome_field_iff.mpr hmem)
    obtain ⟨v, h, hin⟩ := hall name f hf
    rw [bind_intOf_eq_some, hv] at h
    injection h with h
    exact ⟨f, v, hf, h, hin⟩
  · intro hall name f hf
    have hmem : name ∈ l.names := BitLayout.isSome_field_iff.mp (by rw [hf]; rfl)
    obtain ⟨value, hv⟩ := Option.isSome_iff_exists.mp ((hkeys name).mpr hmem)
    obtain ⟨g, v, hg, rfl, hin⟩ := hall name value hv
    rw [hf] at hg
    injection hg with hg
    exact ⟨v, bind_intOf_eq_some.mpr hv, hg ▸ hin⟩

/-- a layout whose fields hold ints only -/
def ofInts (l : BitLayout) (hsize : l.size = 32) (hn : l.names.Nodup) : LayoutStruct Obj l where
  names := l.names
  fits := FitsInts l
  pack := packInts l
  unpack := unpackInts l
  isSome_unpack raw name := by
    rw [unpackInts, Option.isSome_map]
    exact BitLayout.isSome_unpack
  pack_unpack _ h := packInts_unpackInts hsize hn h
  pack_isSome_iff _ hkeys := isSome_packInts_iff hn hkeys
  mem_names _ := Iff.rfl
  fits_int name f v hf := by
    constructor
    · intro ⟨g, u, hg, hu, hin⟩
      rw [hf] at hg
      injection hg with hg
      injection hu with hu
      rw [hg, hu]
      exact hin
    · intro hin
      exact ⟨f, v, hf, rfl, hin⟩
  unpack_field w name f hf := by
    rw [unpackInts, UioReg.fromBytes_wordBytes, BitVec.ofNat_toNat, BitVec.setWidth_eq,
      BitLayout.unpack_eq hf]
    rfl

end LayoutStruct

end Udmaio
