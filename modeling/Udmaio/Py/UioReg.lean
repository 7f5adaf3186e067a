import Mathlib.Logic.Function.Basic
import Mathlib.Tactic.ByContra
import Udmaio.Lib.Bytes
import Udmaio.Lib.Prog
import Udmaio.Lib.Run

/-!
# The register cache of the Python binding

`UioReg` (`pyudmaio/_UioReg.py`) holds a register twice: as the values of its fields (`dict`) and as
four bytes (`raw_val`).  Reading goes through `__getattr__`, writing through `__setattr__`.

* `BitStruct`          a compiled field layout of 32 bits, with what is used of what `bitstruct`
                       promises;
* `UioReg`, `exec`     the two copies, and `rd`, assignments to `val` and to other attributes;
* `OpOk`               what an operation should do: keep the copies in step, change one field at
                       most, and nothing at all if it raises;
* `cache_coherent_iff`   **when every operation of a run does so**: as long as the values assigned
                         to fields fit.
-/

namespace Udmaio
open Lib

/-- a Python value: an `int`, or an object without `to_bytes` -/
inductive PyVal (Obj : Type) where
  | int (i : Int)
  | obj (o : Obj)
deriving DecidableEq, Repr

abbrev PyDict (Obj : Type) := String → Option (PyVal Obj)

/-- `int.from_bytes(_, 'big')` -/
def fromBytes (raw : List UInt8) : Nat := leNat raw.reverse

/-- `value.to_bytes(4, 'big')`, if that does not raise -/
def toBytes {Obj : Type} : PyVal Obj → Option (List UInt8)
  | .int i => if 0 ≤ i ∧ i < 0x100000000 then some (leBytes 4 i.toNat).reverse else none
  | .obj _ => none

/-- `bitstruct.compile` of a layout of 32 bits; `pack` is `none` where it raises -/
structure BitStruct (Obj : Type) where
  names : List String
  fits : String → PyVal Obj → Prop
  pack : PyDict Obj → Option (List UInt8)
  unpack : List UInt8 → PyDict Obj
  isSome_unpack : ∀ raw name, (unpack raw name).isSome ↔ name ∈ names
  pack_unpack : ∀ raw, raw.length = 4 → pack (unpack raw) = some raw
  pack_isSome_iff : ∀ dict, (∀ name, (dict name).isSome ↔ name ∈ names) →
    ((pack dict).isSome ↔ ∀ name value, dict name = some value → fits name value)

structure UioReg (Obj : Type) where
  dict : PyDict Obj
  rawVal : List UInt8

namespace UioReg
variable {Obj : Type} (bs : BitStruct Obj)

/-- `val`, the word that `wr()` writes -/
def val (r : UioReg Obj) : Nat := fromBytes r.rawVal

/-! ## operations -/

abbrev RegM (Obj : Type) := Prog (UioReg Obj)

/-- `__setattr__` of `val` -/
def setVal (value : PyVal Obj) : RegM Obj Unit :=
  match toBytes value with
  | some raw => do
    modify fun r => { r with rawVal := raw }
    modify fun r => { r with dict := bs.unpack r.rawVal }
  | none => throw (.exception "to_bytes")

/-- `self.raw_val = self.bs.pack(self.dict)` -/
def packDict : RegM Obj Unit := do
  let r ← get
  match bs.pack r.dict with
  | some raw => set { r with rawVal := raw }
  | none => throw (.exception "bitstruct.Error")

/-- `__setattr__` of a name that is none of the attributes of `UioReg` -/
def setField (name : String) (value : PyVal Obj) : RegM Obj Unit := do
  let r ← get
  if (r.dict name).isSome then do
    set { r with dict := Function.update r.dict name (some value) }
    packDict bs
  else throw (.exception s!"{name}: unknown attribute")

/-- `__init__` ends with `self.val = 0` -/
def init : UioReg Obj := ⟨bs.unpack (leBytes 4 0).reverse, (leBytes 4 0).reverse⟩

/-- what is done with the register; `rd` comes with what `_rd32` returns, if it does -/
inductive Op (Obj : Type) where
  | rd (word : Option (BitVec 32))
  | setVal (value : PyVal Obj)
  | setField (name : String) (value : PyVal Obj)

def exec : Op Obj → RegM Obj Unit
  | .rd (some word) => setVal bs (.int word.toNat)
  | .rd none => throw (.exception "_rd32")
  | .setVal value => setVal bs value
  | .setField name value => setField bs name value

def step (r : UioReg Obj) (op : Op Obj) : UioReg Obj := final (exec bs op r)

/-- `val` is the packing of the fields -/
def Agrees (r : UioReg Obj) : Prop := ∃ raw, bs.pack r.dict = some raw ∧ r.val = fromBytes raw

/-- what an operation should do -/
structure OpOk (r : UioReg Obj) (op : Op Obj) : Prop where
  agrees : Agrees bs (step bs r op)
  frame : ∀ name value, op = .setField name value →
    ∀ other, other ≠ name → (step bs r op).dict other = r.dict other
  rollback : ∀ e r', exec bs op r = .error e r' → r'.val = r.val ∧ r'.dict = r.dict

/-! ## one operation -/

/-- the two copies are in step -/
structure Coherent (r : UioReg Obj) : Prop where
  keys : ∀ name, (r.dict name).isSome ↔ name ∈ bs.names
  pack : bs.pack r.dict = some r.rawVal

/-- the values assigned to fields fit -/
def Op.Fits : Op Obj → Prop
  | .setField name value => name ∈ bs.names → bs.fits name value
  | _ => True

theorem toBytes_length {value : PyVal Obj} {raw : List UInt8} (h : toBytes value = some raw) :
    raw.length = 4 := by
  cases value with
  | obj o => cases h
  | int i =>
    rw [toBytes] at h
    split at h
    · injection h with h
      rw [← h, List.length_reverse, leBytes_length]
    · cases h

theorem setVal_cases (value : PyVal Obj) (r : UioReg Obj) :
    (∃ raw, raw.length = 4 ∧ setVal bs value r = .ok () ⟨bs.unpack raw, raw⟩) ∨
      ∃ e, setVal bs value r = .error e r := by
  unfold setVal
  cases h : toBytes value with
  | some raw => exact Or.inl ⟨raw, toBytes_length h, rfl⟩
  | none => exact Or.inr ⟨_, rfl⟩

theorem get_ok (r : UioReg Obj) : (get : RegM Obj (UioReg Obj)) r = .ok r r := rfl

theorem packDict_some {r : UioReg Obj} {raw : List UInt8} (h : bs.pack r.dict = some raw) :
    packDict bs r = .ok () ⟨r.dict, raw⟩ := by
  unfold packDict
  rw [bind_ok (get_ok r), h]
  rfl

theorem packDict_none {r : UioReg Obj} (h : bs.pack r.dict = none) :
    ∃ e, packDict bs r = .error e r := by
  unfold packDict
  rw [bind_ok (get_ok r), h]
  exact ⟨_, rfl⟩

/-- the dictionary is written first -/
theorem setField_of_isSome {r : UioReg Obj} {name : String} (h : (r.dict name).isSome = true)
    (value : PyVal Obj) : setField bs name value r
      = packDict bs ⟨Function.update r.dict name (some value), r.rawVal⟩ := by
  unfold setField
  rw [bind_ok (get_ok r), if_pos h]
  rfl

theorem setField_of_none {r : UioReg Obj} {name : String} (h : r.dict name = none)
    (value : PyVal Obj) : ∃ e, setField bs name value r = .error e r := by
  unfold setField
  rw [bind_ok (get_ok r), h]
  exact ⟨_, rfl⟩

/-- an assignment to a field: the name is unknown, or the value is packed, or it is not -/
theorem setField_cases (name : String) (value : PyVal Obj) (r : UioReg Obj) :
    (∃ e, r.dict name = none ∧ setField bs name value r = .error e r) ∨
    (r.dict name).isSome ∧
      ((∃ raw, bs.pack (Function.update r.dict name (some value)) = some raw ∧
        setField bs name value r = .ok () ⟨Function.update r.dict name (some value), raw⟩) ∨
      ∃ e, bs.pack (Function.update r.dict name (some value)) = none ∧
        setField bs name value r = .error e
          ⟨Function.update r.dict name (some value), r.rawVal⟩) := by
  cases h : r.dict name with
  | none =>
    obtain ⟨e, he⟩ := setField_of_none bs h value
    exact Or.inl ⟨e, rfl, he⟩
  | some old =>
    have heq := setField_of_isSome bs (show (r.dict name).isSome = true by rw [h]; rfl) value
    refine Or.inr ⟨rfl, ?_⟩
    cases hp : bs.pack (Function.update r.dict name (some value)) with
    | some raw => exact Or.inl ⟨raw, rfl, heq.trans (packDict_some bs hp)⟩
    | none =>
      obtain ⟨e, he⟩ := packDict_none bs
        (r := ⟨Function.update r.dict name (some value), r.rawVal⟩) hp
      exact Or.inr ⟨e, rfl, heq.trans he⟩

variable {bs}

theorem Coherent.agrees {r : UioReg Obj} (h : Coherent bs r) : Agrees bs r :=
  ⟨r.rawVal, h.pack, rfl⟩

theorem Coherent.fits {r : UioReg Obj} (h : Coherent bs r) {name : String} {value : PyVal Obj}
    (hv : r.dict name = some value) : bs.fits name value := by
  have hs : (bs.pack r.dict).isSome = true := by rw [h.pack]; rfl
  exact (bs.pack_isSome_iff r.dict h.keys).mp hs name value hv

theorem coherent_unpack {raw : List UInt8} (h : raw.length = 4) :
    Coherent bs ⟨bs.unpack raw, raw⟩ where
  keys := bs.isSome_unpack raw
  pack := bs.pack_unpack raw h

theorem coherent_init : Coherent bs (init bs) :=
  coherent_unpack (by rw [List.length_reverse, leBytes_length])

section
variable {r : UioReg Obj} {name : String}

/-- an assignment adds no field -/
theorem keys_update (h : Coherent bs r) (hn : (r.dict name).isSome = true) (value : PyVal Obj)
    (other : String) :
    (Function.update r.dict name (some value) other).isSome ↔ other ∈ bs.names := by
  by_cases e : other = name
  · rw [e, Function.update_self]
    exact iff_of_true rfl ((h.keys name).mp hn)
  · rw [Function.update_of_ne e]
    exact h.keys other

/-- whether `pack` raises depends on the new value alone -/
theorem isSome_pack_update (h : Coherent bs r) (hn : (r.dict name).isSome = true)
    (value : PyVal Obj) :
    (bs.pack (Function.update r.dict name (some value))).isSome ↔ bs.fits name value := by
  rw [bs.pack_isSome_iff _ (keys_update h hn value)]
  constructor
  · intro hall
    exact hall name value (Function.update_self _ _ _)
  · intro hf other v hv
    by_cases e : other = name
    · rw [e, Function.update_self] at hv
      injection hv with hv
      rw [e, ← hv]
      exact hf
    · rw [Function.update_of_ne e] at hv
      exact h.fits hv

end

section
variable {r : UioReg Obj} {op : Op Obj}

theorem opOk_unchanged (hr : Coherent bs r) {e : Stop} (he : exec bs op r = .error e r) :
    OpOk bs r op ∧ Coherent bs (step bs r op) := by
  have hstep : step bs r op = r := by rw [step, he]; rfl
  rw [← hstep] at hr
  refine ⟨⟨hr.agrees, fun _ _ _ _ _ => by rw [hstep], fun e' r' h => ?_⟩, hr⟩
  rw [he] at h
  injection h with _ h
  subst h
  exact ⟨rfl, rfl⟩

/-- an operation that returns and leaves the copies in step -/
theorem opOk_returned {r' : UioReg Obj} (he : exec bs op r = .ok () r') (hr' : Coherent bs r')
    (hframe : ∀ name value, op = .setField name value →
      ∀ other, other ≠ name → r'.dict other = r.dict other) :
    OpOk bs r op ∧ Coherent bs (step bs r op) := by
  have hstep : step bs r op = r' := by rw [step, he]; rfl
  rw [← hstep] at hr' hframe
  refine ⟨⟨hr'.agrees, hframe, fun e r'' h => ?_⟩, hr'⟩
  rw [he] at h
  cases h

theorem opOk_setVal (hr : Coherent bs r) {value : PyVal Obj} (he : exec bs op r = setVal bs value r)
    (hop : ∀ name v, op ≠ .setField name v) : OpOk bs r op ∧ Coherent bs (step bs r op) := by
  rcases setVal_cases bs value r with ⟨raw, hl, h⟩ | ⟨e, h⟩
  · exact opOk_returned (he.trans h) (coherent_unpack hl) fun name v hc => absurd hc (hop name v)
  · exact opOk_unchanged hr (he.trans h)

/-- **One operation whose value fits** does what it should. -/
theorem opOk_of_fits (hr : Coherent bs r) (hf : op.Fits bs) :
    OpOk bs r op ∧ Coherent bs (step bs r op) := by
  cases op with
  | rd word =>
    cases word with
    | some word =>
      have he : exec bs (.rd (some word)) r = setVal bs (.int word.toNat) r := by rw [exec]
      exact opOk_setVal hr he fun _ _ h => nomatch h
    | none => exact opOk_unchanged hr rfl
  | setVal value => exact opOk_setVal hr rfl fun _ _ h => nomatch h
  | setField name value =>
    rcases setField_cases bs name value r with ⟨e, -, he⟩ | ⟨hn, ⟨raw, hp, he⟩ | ⟨e, hp, -⟩⟩
    · exact opOk_unchanged hr he
    · refine opOk_returned he ⟨keys_update hr hn value, hp⟩ fun name' value' h other hne => ?_
      injection h with e1 _
      exact Function.update_of_ne (e1 ▸ hne) _ _
    · -- `pack` does not raise
      have := (isSome_pack_update hr hn value).mpr (hf ((hr.keys name).mp hn))
      rw [hp] at this
      cases this

/-- a value that does not fit stays in the dictionary -/
theorem fits_of_opOk (hr : Coherent bs r) (hok : OpOk bs r op) : op.Fits bs := by
  cases op with
  | rd word => exact trivial
  | setVal value => exact trivial
  | setField name value =>
    intro hmem
    rcases setField_cases bs name value r with ⟨e, hn, -⟩ | ⟨hn, ⟨raw, hp, -⟩ | ⟨e, -, he⟩⟩
    · have := (hr.keys name).mpr hmem
      rw [hn] at this
      cases this
    · have : (bs.pack (Function.update r.dict name (some value))).isSome = true := by rw [hp]; rfl
      exact (isSome_pack_update hr hn value).mp this
    · have hdict : Function.update r.dict name (some value) name = r.dict name :=
        congrFun (hok.rollback e _ he).2 name
      rw [Function.update_self] at hdict
      exact hr.fits hdict.symm

end

theorem along_opOk_iff {r : UioReg Obj} (hr : Coherent bs r) (ops : List (Op Obj)) :
    Along (step bs) (OpOk bs) r ops ↔ ∀ op ∈ ops, op.Fits bs := by
  induction ops generalizing r with
  | nil => exact iff_of_true trivial fun _ h => absurd h List.not_mem_nil
  | cons op ops ih =>
    rw [List.forall_mem_cons]
    constructor
    · intro ⟨hok, hrest⟩
      have hf := fits_of_opOk hr hok
      exact ⟨hf, (ih (opOk_of_fits hr hf).2).mp hrest⟩
    · intro ⟨hf, hrest⟩
      obtain ⟨hok, hc⟩ := opOk_of_fits hr hf
      exact ⟨hok, (ih hc).mpr hrest⟩

variable (bs)

/-- **When the cache stays coherent**: all through a run of operations `val` is the packing of the
fields, assigning a field leaves the others alone and an operation that raises changes nothing, if
and only if the values assigned to fields fit. -/
theorem cache_coherent_iff (ops : List (Op Obj)) :
    (Agrees bs (init bs) ∧ Along (step bs) (OpOk bs) (init bs) ops) ↔
      ∀ name value, Op.setField name value ∈ ops → name ∈ bs.names → bs.fits name value := by
  rw [along_opOk_iff coherent_init ops]
  constructor
  · intro ⟨_, hall⟩ name value hop
    exact hall _ hop
  · intro hall
    refine ⟨coherent_init.agrees, fun op hop => ?_⟩
    cases op with
    | rd word => exact trivial
    | setVal value => exact trivial
    | setField name value => exact hall name value hop

/-! ## a layout -/

def isHalfWord (i : Int) : Prop := 0 ≤ i ∧ i < 0x10000

instance (i : Int) : Decidable (isHalfWord i) := inferInstanceAs (Decidable (_ ∧ _))

def packHalfWords (dict : PyDict Unit) : Option (List UInt8) :=
  match dict "hi", dict "lo" with
  | some (.int hi), some (.int lo) =>
    if isHalfWord hi ∧ isHalfWord lo then some (leBytes 4 (hi.toNat * 2^16 + lo.toNat)).reverse
    else none
  | _, _ => none

def unpackHalfWords (raw : List UInt8) (name : String) : Option (PyVal Unit) :=
  if name = "hi" then some (.int (fromBytes raw / 2^16 : Nat))
  else if name = "lo" then some (.int (fromBytes raw % 2^16 : Nat))
  else none

theorem packHalfWords_eq_some {dict : PyDict Unit} {raw : List UInt8}
    (h : packHalfWords dict = some raw) : ∃ hi lo : Int, dict "hi" = some (.int hi) ∧
      dict "lo" = some (.int lo) ∧ isHalfWord hi ∧ isHalfWord lo ∧
      raw = (leBytes 4 (hi.toNat * 2^16 + lo.toNat)).reverse := by
  unfold packHalfWords at h
  split at h
  · next hi lo h1 h2 =>
    split at h
    · next hc =>
      injection h with h
      exact ⟨hi, lo, h1, h2, hc.1, hc.2, h.symm⟩
    · cases h
  · cases h

theorem packHalfWords_int {dict : PyDict Unit} {hi lo : Int} (h1 : dict "hi" = some (.int hi))
    (h2 : dict "lo" = some (.int lo)) (hh : isHalfWord hi) (hl : isHalfWord lo) :
    packHalfWords dict = some (leBytes 4 (hi.toNat * 2^16 + lo.toNat)).reverse := by
  unfold packHalfWords
  rw [h1, h2]
  exact if_pos ⟨hh, hl⟩

theorem isSome_unpackHalfWords (raw : List UInt8) (name : String) :
    (unpackHalfWords raw name).isSome ↔ name ∈ ["hi", "lo"] := by
  unfold unpackHalfWords
  rw [List.mem_cons, List.mem_singleton]
  split
  · next h => exact iff_of_true rfl (Or.inl h)
  · next h =>
    split
    · next h' => exact iff_of_true rfl (Or.inr h')
    · next h' => exact iff_of_false Bool.false_ne_true (fun hor => hor.elim h h')

/-- two unsigned fields of 16 bits, `hi` first -/
def halfWords : BitStruct Unit where
  names := ["hi", "lo"]
  fits _ value := ∃ i : Int, value = .int i ∧ isHalfWord i
  pack := packHalfWords
  unpack := unpackHalfWords
  isSome_unpack := isSome_unpackHalfWords
  pack_unpack raw hl := by
    have hlt := leNat_lt raw.reverse
    rw [List.length_reverse, hl] at hlt
    have hN : fromBytes raw < 2^32 := hlt
    have hhi : isHalfWord (fromBytes raw / 2^16 : Nat) := ⟨by omega, by omega⟩
    have hlo : isHalfWord (fromBytes raw % 2^16 : Nat) := ⟨by omega, by omega⟩
    have hback := leBytes_leNat raw.reverse
    rw [List.length_reverse, hl] at hback
    rw [packHalfWords_int rfl rfl hhi hlo, Int.toNat_natCast, Int.toNat_natCast, Nat.div_add_mod']
    show some (leBytes 4 (leNat raw.reverse)).reverse = _
    rw [hback, List.reverse_reverse]
  pack_isSome_iff dict hkeys := by
    constructor
    · intro hs name value hv
      obtain ⟨raw, h⟩ := Option.isSome_iff_exists.mp hs
      obtain ⟨hi, lo, h1, h2, h3, h4, -⟩ := packHalfWords_eq_some h
      have hmem : name ∈ ["hi", "lo"] := (hkeys name).mp (by rw [hv]; rfl)
      rw [List.mem_cons, List.mem_singleton] at hmem
      rcases hmem with rfl | rfl
      · rw [h1] at hv
        injection hv with hv
        exact ⟨hi, hv.symm, h3⟩
      · rw [h2] at hv
        injection hv with hv
        exact ⟨lo, hv.symm, h4⟩
    · intro hall
      obtain ⟨v1, h1⟩ := Option.isSome_iff_exists.mp ((hkeys "hi").mpr (by decide))
      obtain ⟨v2, h2⟩ := Option.isSome_iff_exists.mp ((hkeys "lo").mpr (by decide))
      obtain ⟨hi, rfl, h3⟩ := hall _ _ h1
      obtain ⟨lo, rfl, h4⟩ := hall _ _ h2
      rw [packHalfWords_int h1 h2 h3 h4]
      rfl

theorem halfWords_pack (dict : PyDict Unit) : halfWords.pack dict = packHalfWords dict := rfl

theorem pack_big (dict : PyDict Unit) :
    halfWords.pack (Function.update dict "lo" (some (.int 0x10000))) = none := by
  rw [halfWords_pack, Option.eq_none_iff_forall_ne_some]
  intro raw h
  obtain ⟨hi, lo, -, h2, -, ⟨-, hlt⟩, -⟩ := packHalfWords_eq_some h
  rw [Function.update_self] at h2
  injection h2 with h2
  injection h2 with h2
  rw [← h2] at hlt
  exact absurd hlt (by decide)

/-- `reg.lo = 0x10000` raises, and leaves the value in the dictionary -/
theorem rejected_value_stays :
    ∃ e r', exec halfWords (.setField "lo" (.int 0x10000)) (init halfWords) = .error e r' ∧
      (init halfWords).dict "lo" = some (.int 0) ∧ r'.dict "lo" = some (.int 0x10000) ∧
      r'.val = 0 ∧ halfWords.pack r'.dict = none := by
  have hp := pack_big (init halfWords).dict
  have hin : ((init halfWords).dict "lo").isSome = true := rfl
  have hset := setField_of_isSome halfWords hin (.int 0x10000)
  obtain ⟨e, he⟩ := packDict_none halfWords
    (r := ⟨Function.update (init halfWords).dict "lo" (some (.int 0x10000)),
      (init halfWords).rawVal⟩) hp
  have hlo : (init halfWords).dict "lo" = some (.int 0) := rfl
  have hlo' : Function.update (init halfWords).dict "lo" (some (.int 0x10000)) "lo"
      = some (.int 0x10000) := Function.update_self "lo" _ _
  exact ⟨e, _, hset.trans he, hlo, hlo', rfl, hp⟩

end UioReg

end Udmaio
